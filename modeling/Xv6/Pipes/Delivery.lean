import Xv6.Pipes.Model

/-!
# What goes into a pipe and what its readers report

The bytes stored by `pipewrite`, the bytes reported by `piperead`, the bytes a
running `piperead` has copied out but not yet reported, and the bytes in the ring
are tied together by one equation. It has a fourth term: `piperead` advances
`nread` before it knows whether `copyout` succeeds, so every failing copy drops
one byte. The equation is kept with the number of such drops as a parameter.
-/
namespace Xv6.Pipes

open Function

set_option autoImplicit false

namespace Pipe

/-- Number of bytes in the ring. -/
def size (pi : Pipe) : Nat := Lib.Ring.count (2 ^ 32) pi.nread.toNat pi.nwrite.toNat

theorem length_held (pi : Pipe) : pi.held.length = pi.size := Lib.Ring.length_contents _ _ _

theorem empty_iff (pi : Pipe) : pi.empty = true ↔ pi.size = 0 := by
  have h := Lib.Ring.count_eq_zero pi.nread.toNat_lt pi.nwrite.toNat_lt
  simp only [empty, size, beq_iff_eq, ← UInt32.toNat_inj]
  exact h.symm

theorem size_ne_zero {pi : Pipe} (h : pi.empty = false) : pi.size ≠ 0 := by
  intro h0
  rw [(empty_iff pi).mpr h0] at h
  cases h

theorem full_of_size {pi : Pipe} (h : pi.size = PIPESIZE) : pi.full = true := by
  have hw := Lib.Ring.write_eq pi.nread.toNat_lt pi.nwrite.toNat_lt
  change pi.nwrite.toNat = (pi.nread.toNat + pi.size) % 2 ^ 32 at hw
  rw [h] at hw
  simp only [full, beq_iff_eq, ← UInt32.toNat_inj, UInt32.toNat_add]
  exact hw

theorem toNat_succ (c : UInt32) : (c + 1).toNat = (c.toNat + 1) % 2 ^ 32 := by
  rw [UInt32.toNat_add]; rfl

theorem size_push {pi : Pipe} (ch : UInt8) (h : pi.size < PIPESIZE) :
    (pi.push ch).size = pi.size + 1 := by
  have hb : pi.size + 1 < 2 ^ 32 := lt_of_le_of_lt (Nat.succ_le_of_lt h) (by decide)
  simp only [size, push, toNat_succ]
  exact Lib.Ring.count_write_succ hb

theorem held_push {pi : Pipe} (ch : UInt8) (h : pi.size < PIPESIZE) :
    (pi.push ch).held = pi.held ++ [ch] := by
  simp only [held, push, toNat_succ]
  exact Lib.Ring.contents_push (by decide) (by decide) _ _ pi.nread.toNat_lt pi.nwrite.toNat_lt h

theorem size_pop {pi : Pipe} (h : pi.size ≠ 0) : pi.pop.size + 1 = pi.size := by
  simp only [size, pop, toNat_succ]
  exact Lib.Ring.count_read_succ pi.nread.toNat_lt h

theorem held_pop {pi : Pipe} (h : pi.size ≠ 0) : pi.held = pi.front :: pi.pop.held := by
  simp only [held, pop, front, toNat_succ]
  exact Lib.Ring.contents_pop (by decide) _ pi.nread.toNat_lt h

end Pipe

/-- What a process in the copy loop of `piperead` has copied out so far. -/
def Ctl.got : Ctl → List UInt8
  | .readCopy _ got => got
  | _ => []

theorem got_wake (c : Ctl) : c.wake.got = c.got := by cases c <;> rfl

/-- Bytes copied out by the call that holds the lock, not yet reported. -/
def transit (s : Sys) : List UInt8 := (s.lock.map fun p => (s.ctl p).got).getD []

theorem transit_holder {s : Sys} {p : Pid} (hp : s.lock = some p) :
    transit s = (s.ctl p).got := by
  simp [transit, hp]

theorem transit_free {s : Sys} (h : s.lock = none) : transit s = [] := by
  simp [transit, h]

/-- A process may move on without touching what is in transit. -/
theorem transit_update {s s' : Sys} {p : Pid} {c : Ctl} (hl : s'.lock = s.lock)
    (hctl : s'.ctl = update s.ctl p c) (hc : c.got = (s.ctl p).got) :
    transit s' = transit s := by
  unfold transit
  rw [hl, hctl]
  cases s.lock with
  | none => rfl
  | some q =>
    by_cases hq : q = p
    · subst hq; simp [hc]
    · simp [update_of_ne hq]

/-- The books of a pipe after `lost` copies to a reader have failed. -/
structure Books (lost : Nat) (s : Sys) : Prop where
  locked : Locked s
  fits : s.pi.size ≤ PIPESIZE
  length_eq : s.written.length = s.reported.length + (transit s).length + lost + s.pi.size
  exact_of : lost = 0 → s.written = s.reported ++ transit s ++ s.pi.held

theorem books_init (data : Fin PIPESIZE → UInt8) : Books 0 (init data) := by
  have hz : (init data).pi.size = 0 := Lib.Ring.count_self (UInt32.toNat_lt _)
  have hn : (init data).pi.held = [] := List.length_eq_zero_iff.mp ((Pipe.length_held _).trans hz)
  refine ⟨locked_init data, ?_, ?_, ?_⟩
  · rw [hz]; exact Nat.zero_le _
  · rw [hz]; rfl
  · intro _; rw [hn]; rfl

/-- A step that moves no byte and reports none. -/
theorem books_quiet {lost : Nat} {s s' : Sys} (hb : Books lost s) (hl : Locked s')
    (hsize : s'.pi.size = s.pi.size) (hheld : s'.pi.held = s.pi.held)
    (hw : s'.written = s.written) (hr : s'.reported = s.reported)
    (ht : transit s' = transit s) : Books lost s' where
  locked := hl
  fits := by rw [hsize]; exact hb.fits
  length_eq := by rw [hw, hr, ht, hsize]; exact hb.length_eq
  exact_of := fun h0 => by rw [hw, hr, ht, hheld]; exact hb.exact_of h0

/-- The holder of the lock leaves with nothing in transit. -/
theorem transit_leave {s s' : Sys} (hs : Locked s) {p : Pid} (hp : (s.ctl p).holds = true)
    (hg : (s.ctl p).got = []) (hl : s'.lock = none) : transit s' = transit s := by
  rw [transit_free hl, transit_holder ((hs p).mp hp), hg]

/-- `pipewrite` stores one byte. -/
theorem books_push {lost : Nat} {s : Sys} (hb : Books lost s) {p : Pid} {n : Int} {i i0 : Nat}
    (hp : s.ctl p = .writeLoop n i i0) (hf : s.pi.full = false) (ch : UInt8)
    (hl : Locked ((s.goto p (.writeLoop n (i + 1) i0)).push ch)) :
    Books lost ((s.goto p (.writeLoop n (i + 1) i0)).push ch) := by
  have hroom : s.pi.size < PIPESIZE := by
    refine lt_of_le_of_ne hb.fits fun he => ?_
    rw [Pipe.full_of_size he] at hf
    cases hf
  have ht : transit ((s.goto p (.writeLoop n (i + 1) i0)).push ch) = transit s :=
    transit_update rfl rfl (by rw [hp]; rfl)
  have hnil : transit s = [] := by
    rw [transit_holder ((hb.locked p).mp (by rw [hp]; rfl)), hp]; rfl
  refine ⟨hl, ?_, ?_, ?_⟩
  · exact (Pipe.size_push ch hroom).trans_le hroom
  · have h := hb.length_eq
    rw [ht]
    change (s.written ++ [ch]).length = s.reported.length + _ + lost + (s.pi.push ch).size
    rw [List.length_append, h, Pipe.size_push ch hroom]
    rfl
  · intro h0
    have h := hb.exact_of h0
    rw [hnil, List.append_nil] at h
    rw [ht, hnil, List.append_nil]
    change s.written ++ [ch] = s.reported ++ (s.pi.push ch).held
    rw [Pipe.held_push ch hroom, h, List.append_assoc]

/-- `piperead` takes one byte and copies it out. -/
theorem books_pop {lost : Nat} {s : Sys} (hb : Books lost s) {p : Pid} {n : Int}
    {got : List UInt8} (hp : s.ctl p = .readCopy n got) (hne : s.pi.size ≠ 0)
    (hl : Locked (s.goto p (.readCopy n (got ++ [s.pi.front]))).pop) :
    Books lost (s.goto p (.readCopy n (got ++ [s.pi.front]))).pop := by
  have hlk := (hb.locked p).mp (by rw [hp]; rfl)
  have ht : transit s = got := by rw [transit_holder hlk, hp]; rfl
  have ht' : transit (s.goto p (.readCopy n (got ++ [s.pi.front]))).pop = got ++ [s.pi.front] := by
    rw [transit_holder (s := (s.goto p _).pop) hlk]
    change (update s.ctl p _ p).got = _
    rw [update_self]
    rfl
  have hsz := Pipe.size_pop hne
  refine ⟨hl, ?_, ?_, ?_⟩
  · have h := hb.fits
    change s.pi.pop.size ≤ _
    omega
  · have h := hb.length_eq
    rw [ht] at h
    rw [ht']
    change s.written.length = s.reported.length + (got ++ [s.pi.front]).length + lost + s.pi.pop.size
    rw [List.length_append, List.length_singleton]
    omega
  · intro h0
    have h := hb.exact_of h0
    rw [ht, Pipe.held_pop hne] at h
    rw [ht']
    change s.written = s.reported ++ (got ++ [s.pi.front]) ++ s.pi.pop.held
    rw [h]
    simp only [List.append_assoc, List.singleton_append]

/-- Returning from `piperead` reports the bytes in transit. -/
theorem books_readDone {lost : Nat} {s : Sys} (hb : Books lost s) {p : Pid} {n : Int}
    {got : List UInt8} (hp : s.ctl p = .readCopy n got) (hl : Locked (readDone s p got)) :
    Books lost (readDone s p got) := by
  have ht : transit s = got := by
    rw [transit_holder ((hb.locked p).mp (by rw [hp]; rfl)), hp]; rfl
  have ht' : transit (readDone s p got) = [] := transit_free rfl
  refine ⟨hl, hb.fits, ?_, ?_⟩
  · have h := hb.length_eq
    rw [ht] at h
    rw [ht']
    change s.written.length = (s.reported ++ got).length + 0 + lost + s.pi.size
    rw [List.length_append, h]
    omega
  · intro h0
    have h := hb.exact_of h0
    rw [ht] at h
    rw [ht', List.append_nil]
    exact h

/-- A byte taken from the ring that reaches nobody. -/
theorem books_drop {lost : Nat} {s : Sys} (hb : Books lost s) (hne : s.pi.size ≠ 0) :
    Books (lost + 1) s.pop := by
  have hsz := Pipe.size_pop hne
  have hfit := hb.fits
  have hlen := hb.length_eq
  refine ⟨hb.locked, ?_, ?_, fun h => absurd h (Nat.succ_ne_zero _)⟩
  · change s.pi.pop.size ≤ _
    omega
  · change s.written.length = s.reported.length + (transit s).length + (lost + 1) + s.pi.pop.size
    omega

/-- The number of bytes a step takes from the ring and loses. -/
def faults : Act → Nat
  | .read _ false => 1
  | _ => 0

theorem books_moves {lost : Nat} {s s' : Sys} {a : Act} (hb : Books lost s)
    (h : Moves s a s') : Books (lost + faults a) s' := by
  have hl := locked_moves hb.locked h
  have hleave : ∀ {p : Pid} {c : Ctl} {t : Sys}, s.ctl p = c → c.holds = true → c.got = [] →
      t.lock = none → transit t = transit s := by
    intro p c t hc hh hg ht
    exact transit_leave hb.locked (by rw [hc, hh]) (by rw [hc, hg]) ht
  cases h with
  | call p c h =>
    refine books_quiet hb hl rfl rfl rfl rfl (transit_update rfl rfl ?_)
    rcases h with h | ⟨r, h⟩ <;> rw [h] <;> cases c <;> rfl
  | acquire p c hlk hf h =>
    have hg : c.got = [] := by
      cases he : s.ctl p <;> simp only [he, Ctl.locked, reduceCtorEq, Option.some.injEq] at h <;>
        subst h <;> rfl
    refine books_quiet hb hl rfl rfl rfl rfl ?_
    rw [transit_free hlk, transit_holder (hold_lock _ p), hold_ctl, goto_ctl, update_self, hg]
  | writeFault p n i i0 h => exact books_quiet hb hl rfl rfl rfl rfl (hleave h rfl rfl rfl)
  | writeByte p n i i0 c h hr hk hf => exact books_push hb h hf c hl
  | writeAbort p n i i0 h => exact books_quiet hb hl rfl rfl rfl rfl (hleave h rfl rfl rfl)
  | writeSleep p n i i0 h => exact books_quiet hb hl rfl rfl rfl rfl (hleave h rfl rfl rfl)
  | writeDone p n i i0 h => exact books_quiet hb hl rfl rfl rfl rfl (hleave h rfl rfl rfl)
  | waitAbort p n h => exact books_quiet hb hl rfl rfl rfl rfl (hleave h rfl rfl rfl)
  | waitSleep p n h => exact books_quiet hb hl rfl rfl rfl rfl (hleave h rfl rfl rfl)
  | waitDone p n h =>
    exact books_quiet hb hl rfl rfl rfl rfl (transit_update rfl rfl (by rw [h]; rfl))
  | readByte p n got h he => exact books_pop hb h (Pipe.size_ne_zero he) hl
  | readFault p n got h he =>
    have hd : Locked (readDone s p got) :=
      locked_leave hb.locked (by simp [h, Ctl.holds]) rfl (holds_wakeup .nwrite s.ctl)
    exact books_drop (books_readDone hb h hd) (Pipe.size_ne_zero he)
  | readEnd p n got h => exact books_readDone hb h hl
  | close p w h => cases w <;> exact books_quiet hb hl rfl rfl rfl rfl (hleave h rfl rfl rfl)
  | kill p => exact books_quiet hb hl rfl rfl rfl rfl (transit_update rfl rfl (got_wake _))

/-- The books after a whole run, with as many drops as there were failing copies. -/
theorem books_run {lost : Nat} {s t : Sys} {acts : List Act} (hb : Books lost s)
    (h : Lib.run step s acts = some t) : Books (lost + (acts.map faults).sum) t := by
  induction acts generalizing lost s with
  | nil => cases h; exact hb
  | cons a acts ih =>
    obtain ⟨s', ha, hr⟩ := Lib.run_cons_some.mp h
    have hb' := ih (books_moves hb (moves_of_step ha)) hr
    rw [List.map_cons, List.sum_cons, ← Nat.add_assoc]
    exact hb'

/-- No `copyout` of a `piperead` fails in the run. -/
def NoFault (acts : List Act) : Prop := ∀ p, Act.read p false ∉ acts

theorem noFault_iff (acts : List Act) : NoFault acts ↔ (acts.map faults).sum = 0 := by
  rw [List.sum_eq_zero_iff_forall_eq_nat]
  constructor
  · intro h x hx
    obtain ⟨a, ha, rfl⟩ := List.mem_map.mp hx
    cases a with
    | read p copied =>
      cases copied with
      | false => exact absurd ha (h p)
      | true => rfl
    | _ => rfl
  · intro h p hp
    exact absurd (h _ (List.mem_map_of_mem hp)) Nat.one_ne_zero

/-- The delivery property at one moment: what was reported is a prefix of what
was written, and the rest is what the ring holds. -/
def Delivered (s : Sys) : Prop :=
  s.reported <+: s.written ∧ (s.lock = none → s.written = s.reported ++ s.pi.held)

/-- As long as no `copyout` fails the reported bytes are a prefix of the written
ones, and whenever `pi->lock` is free the remainder is exactly what the ring
holds if and only if none has failed. -/
theorem delivered_iff_noFault (data : Fin PIPESIZE → UInt8) (acts : List Act) (s : Sys)
    (hrun : Lib.run step (init data) acts = some s) :
    (NoFault acts → Delivered s) ∧ (s.lock = none → (Delivered s ↔ NoFault acts)) := by
  have hb := books_run (books_init data) hrun
  rw [Nat.zero_add] at hb
  have hto : NoFault acts → Delivered s := by
    intro hn
    have he := hb.exact_of ((noFault_iff acts).mp hn)
    refine ⟨⟨transit s ++ s.pi.held, ?_⟩, fun hl => ?_⟩
    · rw [he, List.append_assoc]
    · rw [he, transit_free hl, List.append_nil]
  refine ⟨hto, fun hl => ⟨fun hd => ?_, hto⟩⟩
  have hlen := hb.length_eq
  rw [hd.2 hl, List.length_append, Pipe.length_held, transit_free hl, List.length_nil] at hlen
  exact (noFault_iff acts).mpr (by omega)

/-- A writer puts the bytes 7 and 8 into the pipe and a reader takes one byte. -/
def oneEach (copied : Bool) : List Act :=
  [.call 0 (.pipewrite 2), .acquire 0, .write 0 (some 7), .write 0 (some 8), .writeTest 0,
    .call 1 (.piperead 1), .acquire 1, .waitTest 1, .read 1 copied]

/-- The property is not vacuous: a run in which a byte is written and delivered. -/
theorem delivered_iff_noFault_run :
    ∃ s, Lib.run step (init fun _ => 0) (oneEach true ++ [.readEnd 1]) = some s ∧
      s.lock = none ∧ Delivered s := by
  refine ⟨_, rfl, rfl, ?_⟩
  refine (delivered_iff_noFault (fun _ => 0) (oneEach true ++ [.readEnd 1]) _ rfl).1 ?_
  intro p hp
  simp [oneEach] at hp

/-- The first read fails in `copyout`, the second one succeeds: byte 7 is gone
and byte 8 is reported as if it were the first. -/
def faultedRead : List Act :=
  oneEach false ++ [.call 1 (.piperead 1), .acquire 1, .waitTest 1, .read 1 true, .readEnd 1]

theorem delivery_fails_on_faultedRead :
    ∃ s, Lib.run step (init fun _ => 0) faultedRead = some s ∧ s.lock = none ∧
      s.written = [7, 8] ∧ s.reported = [8] ∧ ¬ Delivered s := by
  refine ⟨_, rfl, rfl, rfl, rfl, ?_⟩
  intro h
  exact absurd h.1 (by decide)

end Xv6.Pipes
