import Xv6.Virtio.Chains
import Mathlib.Data.List.Perm.Subperm

/-!
# Requests of the disk driver

The invariant names the requests by what their callers are doing. Each caller owns three
descriptors from their allocation to `free_chain`; a request that has been published and not
completed is in exactly one of the avail ring, the device's hands and the used ring, so that
the entries of the three together are a list without repetition.
-/
namespace Xv6.Virtio

open Function

set_option autoImplicit false

open Lib (run run_invariant)
open Lib.Ring (contents count)

/-! ### Stages of a call -/

/-- How far a call of `virtio_disk_rw` has come. -/
inductive Stage where
  | out
  | wants (b : Buf)
  | owns (b : Buf) (c : Chain)
  | ready (b : Buf) (c : Chain)
  | sent (b : Buf) (c : Chain)
  deriving DecidableEq

namespace Stage

def buf? : Stage → Option Buf
  | out => none
  | wants b | owns b _ | ready b _ | sent b _ => some b

def chain? : Stage → Option Chain
  | out | wants _ => none
  | owns _ c | ready _ c | sent _ c => some c

def formed? : Stage → Option (Buf × Chain)
  | out | wants _ | owns _ _ => none
  | ready b c | sent b c => some (b, c)

theorem chain?_of_formed? {st : Stage} {b : Buf} {c : Chain} (h : st.formed? = some (b, c)) :
    st.chain? = some c := by
  cases st <;> simp_all [formed?, chain?]

end Stage

namespace Ctl

def stage : Ctl → Stage
  | idle | intrEnter | intrLoop => .out
  | enter b | alloc b | asleepFree b | wokenFree b => .wants b
  | format b c => .owns b c
  | offer b c | publish b c => .ready b c
  | wait b c | asleepBuf b c | wokenBuf b c => .sent b c

/-- Whether the process is between `acquire` and `release` of `vdisk_lock`. -/
def holds : Ctl → Bool
  | alloc _ | format _ _ | offer _ _ | publish _ _ | wait _ _ | intrLoop => true
  | _ => false

@[simp] theorem stage_wakeFree (c : Ctl) : c.wakeFree.stage = c.stage := by cases c <;> rfl

@[simp] theorem stage_wakeBuf (b : Buf) (c : Ctl) : (c.wakeBuf b).stage = c.stage := by
  cases c with
  | asleepBuf b' c => simp only [wakeBuf]; split <;> rfl
  | _ => rfl

@[simp] theorem holds_wakeFree (c : Ctl) : c.wakeFree.holds = c.holds := by cases c <;> rfl

@[simp] theorem holds_wakeBuf (b : Buf) (c : Ctl) : (c.wakeBuf b).holds = c.holds := by
  cases c with
  | asleepBuf b' c => simp only [wakeBuf]; split <;> rfl
  | _ => rfl

theorem locked_some {c c' : Ctl} (h : c.locked = some c') :
    c'.stage = c.stage ∧ c.holds = false ∧ c'.holds = true ∧ ∀ b ch, c' ≠ .publish b ch := by
  cases c <;> simp only [locked, Option.some.injEq, reduceCtorEq] at h <;> subst h <;>
    exact ⟨rfl, rfl, rfl, nofun⟩

end Ctl

namespace Sys

def stages (s : Sys) : Pid → Stage := fun p => (s.ctl p).stage

@[simp] theorem stages_goto (s : Sys) (p : Pid) (c : Ctl) :
    (s.goto p c).stages = update s.stages p c.stage := by
  funext q
  simp only [stages, goto, update_apply]
  split <;> rfl

end Sys

namespace Io

/-- The avail ring's entries that the device has not taken. -/
def waiting (s : Io) : List Nat :=
  contents (2 ^ 16) s.disk.availRing s.taken.toNat s.disk.availIdx.toNat

/-- The used ring's entries that `virtio_disk_intr` has not handled. -/
def completions (s : Io) : List Nat :=
  contents (2 ^ 16) s.disk.usedRing s.disk.seen.toNat s.disk.usedIdx.toNat

/-- The heads of the requests under way. -/
def heads (s : Io) : List Nat := s.waiting ++ s.working ++ s.completions

end Io

/-! ### The lock -/

/-- The holder of the lock is the process inside of a critical section. -/
def Locks (ctl : Pid → Ctl) (lock : Option Pid) : Prop :=
  ∀ p, (ctl p).holds = true ↔ lock = some p

namespace Locks

variable {ctl : Pid → Ctl} {lock : Option Pid} {p : Pid} {c : Ctl}

theorem goto (h : Locks ctl lock) (hc : c.holds = (ctl p).holds) :
    Locks (update ctl p c) lock := by
  intro q
  rcases eq_or_ne q p with rfl | hq
  · rw [update_self, hc]
    exact h q
  · rw [update_of_ne hq]
    exact h q

theorem enter (h : Locks ctl none) (hc : c.holds = true) :
    Locks (update ctl p c) (some p) := by
  intro q
  rcases eq_or_ne q p with rfl | hq
  · simp [hc]
  · rw [update_of_ne hq, h q]
    simp [Ne.symm hq]

theorem leave (h : Locks ctl lock) (hp : (ctl p).holds = true) (hc : c.holds = false) :
    Locks (update ctl p c) none := by
  intro q
  rcases eq_or_ne q p with rfl | hq
  · simp [hc]
  · rw [update_of_ne hq, h q, (h p).mp hp]
    simp [Ne.symm hq]

theorem unique (h : Locks ctl lock) {q : Pid} (hp : (ctl p).holds = true)
    (hq : (ctl q).holds = true) : p = q :=
  Option.some.inj (((h p).mp hp).symm.trans ((h q).mp hq))

theorem wake (h : Locks ctl lock) {f : Ctl → Ctl} (hf : ∀ c, (f c).holds = c.holds) :
    Locks (fun q => f (ctl q)) lock := fun q => by rw [hf]; exact h q

end Locks

/-! ### Buffers and descriptors -/

/-- Each buffer is locked by the one call that works on it. -/
structure Buffers (st : Pid → Stage) (held : Buf → Bool) : Prop where
  held {p b} : (st p).buf? = some b → held b = true
  unique {p q b} : (st p).buf? = some b → (st q).buf? = some b → p = q

namespace Buffers

variable {st : Pid → Stage} {held : Buf → Bool} {p : Pid}

theorem move (h : Buffers st held) {x : Stage} (hx : x.buf? = (st p).buf?) :
    Buffers (update st p x) held := by
  have hst : ∀ q, (update st p x q).buf? = (st q).buf? := by
    intro q
    rcases eq_or_ne q p with rfl | hq
    · rw [update_self, hx]
    · rw [update_of_ne hq]
  constructor
  · intro q b hq
    exact h.held (hst q ▸ hq)
  · intro q r b hq hr
    exact h.unique (hst q ▸ hq) (hst r ▸ hr)

theorem call (h : Buffers st held) {b : Buf} (hb : held b = false) :
    Buffers (update st p (.wants b)) (update held b true) := by
  have hother : ∀ {q b'}, q ≠ p → (update st p (.wants b) q).buf? = some b' →
      (st q).buf? = some b' ∧ b' ≠ b := by
    intro q b' hq hb'
    rw [update_of_ne hq] at hb'
    refine ⟨hb', ?_⟩
    rintro rfl
    exact absurd (h.held hb') (by simp [hb])
  constructor
  · intro q b' hq
    rcases eq_or_ne q p with rfl | hne
    · simp only [update_self, Stage.buf?, Option.some.injEq] at hq
      simp [hq]
    · obtain ⟨h', hne'⟩ := hother hne hq
      simp [hne', h.held h']
  · intro q r b' hq hr
    rcases eq_or_ne q p with rfl | hqp <;> rcases eq_or_ne r q with rfl | hrq
    · rfl
    · simp only [update_self, Stage.buf?, Option.some.injEq] at hq
      exact absurd hq.symm (hother hrq hr).2
    · rfl
    · rcases eq_or_ne r p with rfl | hrp
      · simp only [update_self, Stage.buf?, Option.some.injEq] at hr
        exact absurd hr.symm (hother hqp hq).2
      · exact h.unique (hother hqp hq).1 (hother hrp hr).1

theorem done (h : Buffers st held) {b : Buf} (hp : (st p).buf? = some b) :
    Buffers (update st p .out) (update held b false) := by
  have hother : ∀ {q b'}, (update st p .out q).buf? = some b' →
      q ≠ p ∧ (st q).buf? = some b' := by
    intro q b' hq
    rcases eq_or_ne q p with rfl | hne
    · simp [Stage.buf?] at hq
    · rw [update_of_ne hne] at hq
      exact ⟨hne, hq⟩
  constructor
  · intro q b' hq
    obtain ⟨hne, hq⟩ := hother hq
    have hb : b' ≠ b := by
      rintro rfl
      exact hne (h.unique hq hp)
    rw [update_of_ne hb]
    exact h.held hq
  · intro q r b' hq hr
    exact h.unique (hother hq).2 (hother hr).2

end Buffers

/-- The descriptors in use are those of the calls' chains, which do not overlap. -/
structure Chains (st : Pid → Stage) (free : Idx → Bool) : Prop where
  distinct {p c} : (st p).chain? = some c → c.Distinct
  busy {i} : free i = false ↔ ∃ p c, (st p).chain? = some c ∧ c.Has i
  unique {p q c c' i} : (st p).chain? = some c → (st q).chain? = some c' → c.Has i → c'.Has i → p = q

namespace Chains

variable {st : Pid → Stage} {free : Idx → Bool} {p : Pid}

theorem move (h : Chains st free) {x : Stage} (hx : x.chain? = (st p).chain?) :
    Chains (update st p x) free := by
  have hst : ∀ q, (update st p x q).chain? = (st q).chain? := by
    intro q
    rcases eq_or_ne q p with rfl | hq
    · rw [update_self, hx]
    · rw [update_of_ne hq]
  constructor
  · intro q c hq
    exact h.distinct (hst q ▸ hq)
  · intro i
    simp only [hst]
    exact h.busy
  · intro q r c c' i hq hr
    exact h.unique (hst q ▸ hq) (hst r ▸ hr)

theorem alloc (h : Chains st free) (hp : (st p).chain? = none) {b : Buf} {c : Chain}
    (hc : c.Distinct) (hfree : ∀ i, c.Has i → free i = true) :
    Chains (update st p (.owns b c)) (c.mark false free) := by
  have hself : (update st p (.owns b c) p).chain? = some c := by simp [Stage.chain?]
  have hother : ∀ {q c'}, q ≠ p → (update st p (.owns b c) q).chain? = some c' →
      (st q).chain? = some c' := by
    intro q c' hq h'
    rwa [update_of_ne hq] at h'
  -- another call's descriptors are busy, those of the new chain were free
  have hapart : ∀ {q c' i}, (st q).chain? = some c' → c'.Has i → ¬ c.Has i := by
    intro q c' i hq hi hci
    have := h.busy.mpr ⟨q, c', hq, hi⟩
    rw [hfree i hci] at this
    contradiction
  constructor
  · intro q c' hq
    rcases eq_or_ne q p with rfl | hne
    · rw [hself] at hq
      cases hq
      exact hc
    · exact h.distinct (hother hne hq)
  · intro i
    rw [Chain.mark]
    by_cases hi : c.Has i
    · simp only [hi, if_true, true_iff]
      exact ⟨p, c, hself, hi⟩
    · simp only [hi, if_false]
      rw [h.busy]
      constructor
      · rintro ⟨q, c', hq, hi'⟩
        refine ⟨q, c', ?_, hi'⟩
        rw [update_of_ne (by rintro rfl; simp [hp] at hq)]
        exact hq
      · rintro ⟨q, c', hq, hi'⟩
        rcases eq_or_ne q p with rfl | hne
        · rw [hself] at hq
          cases hq
          exact absurd hi' hi
        · exact ⟨q, c', hother hne hq, hi'⟩
  · intro q r c' c'' i hq hr hi hi'
    rcases eq_or_ne q p with rfl | hqp <;> rcases eq_or_ne r q with rfl | hrq
    · rfl
    · rw [hself] at hq
      cases hq
      exact absurd hi (hapart (hother hrq hr) hi')
    · rfl
    · rcases eq_or_ne r p with rfl | hrp
      · rw [hself] at hr
        cases hr
        exact absurd hi' (hapart (hother hqp hq) hi)
      · exact h.unique (hother hqp hq) (hother hrp hr) hi hi'

theorem release (h : Chains st free) {c : Chain} (hp : (st p).chain? = some c) :
    Chains (update st p .out) (c.mark true free) := by
  have hother : ∀ {q c'}, (update st p .out q).chain? = some c' →
      q ≠ p ∧ (st q).chain? = some c' := by
    intro q c' hq
    rcases eq_or_ne q p with rfl | hne
    · simp [Stage.chain?] at hq
    · rw [update_of_ne hne] at hq
      exact ⟨hne, hq⟩
  constructor
  · intro q c' hq
    exact h.distinct (hother hq).2
  · intro i
    rw [Chain.mark]
    by_cases hi : c.Has i
    · simp only [hi, if_true, Bool.true_eq_false, false_iff]
      rintro ⟨q, c', hq, hi'⟩
      obtain ⟨hne, hq⟩ := hother hq
      exact hne (h.unique hq hp hi' hi)
    · simp only [hi, if_false]
      rw [h.busy]
      constructor
      · rintro ⟨q, c', hq, hi'⟩
        refine ⟨q, c', ?_, hi'⟩
        rw [update_of_ne]
        · exact hq
        · rintro rfl
          rw [hp] at hq
          cases hq
          exact hi hi'
      · rintro ⟨q, c', hq, hi'⟩
        exact ⟨q, c', (hother hq).2, hi'⟩
  · intro q r c' c'' i hq hr
    exact h.unique (hother hq).2 (hother hr).2

/-- Calls with the same head are the same. -/
theorem head_unique (h : Chains st free) {q : Pid} {c c' : Chain} (hp : (st p).chain? = some c)
    (hq : (st q).chain? = some c') (hc : (c.head : Nat) = c'.head) : p = q := by
  refine h.unique hp hq c.has_head ?_
  rw [Fin.ext hc]
  exact c'.has_head

end Chains

/-- The chains are linked and known to `info` once they are filled in. -/
def Formed (st : Pid → Stage) (desc : Idx → Desc) (info : Idx → Info) : Prop :=
  ∀ ⦃p b c⦄, (st p).formed? = some (b, c) → Linked desc b c ∧ (info c.head).b = some b

namespace Formed

variable {st : Pid → Stage} {desc desc' : Idx → Desc} {info info' : Idx → Info}

/-- Descriptors and `info` may change outside of the chains that are filled in. -/
theorem congr (h : Formed st desc info)
    (hd : ∀ ⦃p b c i⦄, (st p).formed? = some (b, c) → c.Has i → desc' i = desc i)
    (hi : ∀ ⦃p b c⦄, (st p).formed? = some (b, c) → (info' c.head).b = (info c.head).b) :
    Formed st desc' info' := by
  intro p b c hp
  obtain ⟨hl, hb⟩ := h hp
  exact ⟨hl.congr fun i hc => hd hp hc, (hi hp).trans hb⟩

/-- A call moves on; if it has a chain filled in then, that is as it should be. -/
theorem move (h : Formed st desc info) {p : Pid} {x : Stage}
    (hx : ∀ b c, x.formed? = some (b, c) → Linked desc b c ∧ (info c.head).b = some b) :
    Formed (update st p x) desc info := by
  intro q b c hq
  rcases eq_or_ne q p with rfl | hne
  · rw [update_self] at hq
    exact hx b c hq
  · rw [update_of_ne hne] at hq
    exact h hq

end Formed

/-! ### Requests under way -/

/-- The list holds, once each, the heads of the requests that have been sent and not
completed. -/
structure Posted (st : Pid → Stage) (onDisk : Buf → Bool) (l : List Nat) : Prop where
  nodup : l.Nodup
  mem {h} : h ∈ l ↔ ∃ p b c, st p = .sent b c ∧ onDisk b = true ∧ (c.head : Nat) = h

namespace Posted

variable {st : Pid → Stage} {onDisk : Buf → Bool} {l l' : List Nat} {p : Pid}

theorem perm (h : Posted st onDisk l) (hl : l.Perm l') : Posted st onDisk l' where
  nodup := hl.nodup_iff.mp h.nodup
  mem := by
    intro x
    rw [← hl.mem_iff]
    exact h.mem

theorem lt_NUM (h : Posted st onDisk l) {x : Nat} (hx : x ∈ l) : x < NUM := by
  obtain ⟨p, b, c, -, -, rfl⟩ := h.mem.mp hx
  exact c.head.isLt

theorem length_le (h : Posted st onDisk l) : l.length ≤ NUM := by
  have hsub : l ⊆ List.range NUM := fun x hx => List.mem_range.mpr (h.lt_NUM hx)
  simpa using (List.subperm_of_subset h.nodup hsub).length_le

/-- Only a request that has been sent or is sent matters. -/
theorem move (h : Posted st onDisk l) {x : Stage} (hx : ∀ b c, x = .sent b c ↔ st p = .sent b c) :
    Posted (update st p x) onDisk l := by
  have hst : ∀ q b c, update st p x q = .sent b c ↔ st q = .sent b c := by
    intro q b c
    rcases eq_or_ne q p with rfl | hq
    · rw [update_self]
      exact hx b c
    · rw [update_of_ne hq]
  refine ⟨h.nodup, ?_⟩
  intro y
  simp only [hst]
  exact h.mem

/-- A buffer that no sent request is for may be marked. -/
theorem mark (h : Posted st onDisk l) {b : Buf} (hb : ∀ q c, st q ≠ .sent b c) (v : Bool) :
    Posted st (update onDisk b v) l := by
  refine ⟨h.nodup, ?_⟩
  intro y
  rw [h.mem]
  refine exists_congr fun q => exists_congr fun b' => exists_congr fun c => and_congr_right fun hq => ?_
  have hne : b' ≠ b := by
    rintro rfl
    exact hb q c hq
  rw [update_of_ne hne]

theorem head_notMem {free : Idx → Bool} (h : Posted st onDisk l) (hc : Chains st free) {c : Chain}
    (hp : (st p).chain? = some c) (hns : ∀ b, st p = .sent b c → onDisk b = false) :
    (c.head : Nat) ∉ l := by
  intro hmem
  obtain ⟨q, b, c', hq, hb, hh⟩ := h.mem.mp hmem
  have hpq : q = p := hc.head_unique (by rw [hq]; rfl) hp hh
  subst hpq
  rw [hq] at hp
  cases hp
  rw [hns b hq] at hb
  contradiction

theorem send {free : Idx → Bool} (h : Posted st onDisk l) (hc : Chains st free) {b : Buf}
    {c : Chain} (hp : st p = .ready b c) (hb : onDisk b = true) :
    Posted (update st p (.sent b c)) onDisk (c.head :: l) := by
  have hnew : (c.head : Nat) ∉ l :=
    h.head_notMem hc (by rw [hp]; rfl) (by intro b' hb'; rw [hp] at hb'; contradiction)
  refine ⟨List.nodup_cons.mpr ⟨hnew, h.nodup⟩, ?_⟩
  intro y
  rw [List.mem_cons, h.mem]
  constructor
  · rintro (rfl | ⟨q, b', c', hq, hb', hy⟩)
    · exact ⟨p, b, c, update_self .., hb, rfl⟩
    · have hne : q ≠ p := by
        rintro rfl
        rw [hp] at hq
        contradiction
      exact ⟨q, b', c', by rw [update_of_ne hne, hq], hb', hy⟩
  · rintro ⟨q, b', c', hq, hb', hy⟩
    rcases eq_or_ne q p with rfl | hne
    · rw [update_self] at hq
      cases hq
      exact .inl hy.symm
    · rw [update_of_ne hne] at hq
      exact .inr ⟨q, b', c', hq, hb', hy⟩

/-- The first request of the list is completed. -/
theorem complete {free : Idx → Bool} {held : Buf → Bool} {x : Nat} {b : Buf} {c : Chain}
    (h : Posted st onDisk (x :: l)) (hc : Chains st free) (hb : Buffers st held)
    (hp : st p = .sent b c) (hx : (c.head : Nat) = x) :
    Posted st (update onDisk b false) l := by
  have hbuf : (st p).buf? = some b := by rw [hp]; rfl
  have hchain : (st p).chain? = some c := by rw [hp]; rfl
  obtain ⟨hxl, hnd⟩ := List.nodup_cons.mp h.nodup
  refine ⟨hnd, ?_⟩
  intro y
  constructor
  · intro hy
    obtain ⟨q, b', c', hq, hb', hh⟩ := h.mem.mp (List.mem_cons_of_mem _ hy)
    refine ⟨q, b', c', hq, ?_, hh⟩
    have hne : b' ≠ b := by
      rintro rfl
      have hqp : q = p := hb.unique (by rw [hq]; rfl) hbuf
      subst hqp
      rw [hq] at hp
      cases hp
      exact hxl (by rw [← hx, hh]; exact hy)
    rw [update_of_ne hne, hb']
  · rintro ⟨q, b', c', hq, hb', hh⟩
    have hne : b' ≠ b := by
      rintro rfl
      simp at hb'
    rw [update_of_ne hne] at hb'
    rcases List.mem_cons.mp (h.mem.mpr ⟨q, b', c', hq, hb', hh⟩) with heq | hy
    · have hqp : q = p := hc.head_unique (by rw [hq]; rfl) hchain (by rw [hh, heq, hx])
      subst hqp
      rw [hq] at hp
      cases hp
      exact absurd rfl hne
    · exact hy

end Posted

/-- How often the requests under way have been completed. -/
structure Marks (st : Pid → Stage) (onDisk : Buf → Bool) (served : Buf → Nat) : Prop where
  ready {p b c} : st p = .ready b c → onDisk b = true ∧ served b = 0
  sent {p b c} : st p = .sent b c → served b = if onDisk b then 0 else 1

namespace Marks

variable {st : Pid → Stage} {onDisk : Buf → Bool} {served : Buf → Nat} {p : Pid}

theorem move (h : Marks st onDisk served) {x : Stage}
    (hr : ∀ b c, x = .ready b c → onDisk b = true ∧ served b = 0)
    (hs : ∀ b c, x = .sent b c → served b = if onDisk b then 0 else 1) :
    Marks (update st p x) onDisk served := by
  constructor
  · intro q b c hq
    rcases eq_or_ne q p with rfl | hne
    · exact hr b c (by rwa [update_self] at hq)
    · exact h.ready (by rwa [update_of_ne hne] at hq)
  · intro q b c hq
    rcases eq_or_ne q p with rfl | hne
    · exact hs b c (by rwa [update_self] at hq)
    · exact h.sent (by rwa [update_of_ne hne] at hq)

/-- The marks of the buffer of one call change. -/
theorem mark {held : Buf → Bool} (h : Marks st onDisk served) (hb : Buffers st held) {b : Buf}
    (hp : (st p).buf? = some b) {v : Bool} {n : Nat}
    (hr : ∀ c, st p = .ready b c → v = true ∧ n = 0)
    (hs : ∀ c, st p = .sent b c → n = if v then 0 else 1) :
    Marks st (update onDisk b v) (update served b n) := by
  have hself : ∀ {q x}, st q = x → x.buf? = some b → q = p := by
    intro q x hq hx
    exact hb.unique (by rw [hq]; exact hx) hp
  constructor
  · intro q b' c hq
    rcases eq_or_ne b' b with rfl | hne
    · rw [hself hq rfl] at hq
      simpa using hr c hq
    · simpa [hne] using h.ready hq
  · intro q b' c hq
    rcases eq_or_ne b' b with rfl | hne
    · rw [hself hq rfl] at hq
      simpa using hs c hq
    · simpa [hne] using h.sent hq

end Marks

/-! ### The invariant -/

/-- The entry that is about to be published is in its place. -/
def Offered (ctl : Pid → Ctl) (d : Disk) : Prop :=
  ∀ ⦃p b c⦄, ctl p = .publish b c → d.availRing (Fin.ofNat NUM d.availIdx.toNat) = c.head

/-- What holds of the driver when its callers are at the given stages. -/
structure Core (st : Pid → Stage) (s : Io) : Prop where
  buffers : Buffers st s.held
  chains : Chains st s.disk.free
  formed : Formed st s.disk.desc s.disk.info
  posted : Posted st s.onDisk s.heads
  cleared : ∀ i : Idx, (i : Nat) ∈ s.completions → (s.disk.info i).status = 0
  marks : Marks st s.onDisk s.served
  returns : ∀ n ∈ s.returns, n = 1
  calm : s.panicked = none

structure Inv (s : Sys) : Prop where
  locks : Locks s.ctl s.lock
  offered : Offered s.ctl s.disk
  core : Core s.stages s.toIo

/-! ### What the steps do to the requests -/

namespace Core

variable {st : Pid → Stage} {s : Io} {p : Pid} {b : Buf} {c : Chain}

/-- There is room in the avail ring for a request that has not been sent. -/
theorem waiting_lt (h : Core st s) (hp : st p = .ready b c) :
    count (2 ^ 16) s.taken.toNat s.disk.availIdx.toNat < NUM := by
  have hlen := (h.posted.send h.chains hp (h.marks.ready hp).1).length_le
  have hw : s.waiting.length = count (2 ^ 16) s.taken.toNat s.disk.availIdx.toNat := by
    simp [Io.waiting]
  simp only [Io.heads, List.length_cons, List.length_append] at hlen
  omega

/-- There is room in the used ring for what the device has taken. -/
theorem completions_lt (h : Core st s) {x : Nat} (hx : x ∈ s.working) :
    count (2 ^ 16) s.disk.seen.toNat s.disk.usedIdx.toNat < NUM := by
  have hlen := h.posted.length_le
  have hc : s.completions.length = count (2 ^ 16) s.disk.seen.toNat s.disk.usedIdx.toNat := by
    simp [Io.completions]
  have hpos := List.length_pos_of_mem hx
  simp only [Io.heads, List.length_append] at hlen
  omega

/-- A buffer is locked and a call begins. -/
theorem call (h : Core st s) (hp : st p = .out) (hb : s.held b = false) :
    Core (update st p (.wants b)) { s with held := update s.held b true } where
  buffers := h.buffers.call hb
  chains := h.chains.move (by rw [hp]; rfl)
  formed := h.formed.move nofun
  posted := h.posted.move (by simp [hp])
  cleared := h.cleared
  marks := h.marks.move nofun nofun
  returns := h.returns
  calm := h.calm

/-- Three descriptors are allocated. -/
theorem alloc (h : Core st s) (hp : st p = .wants b) (hc : c.Distinct)
    (hfree : ∀ i, c.Has i → s.disk.free i = true) :
    Core (update st p (.owns b c))
      { s with disk := { s.disk with free := c.mark false s.disk.free } } where
  buffers := h.buffers.move (by rw [hp]; rfl)
  chains := h.chains.alloc (by rw [hp]; rfl) hc hfree
  formed := h.formed.move nofun
  posted := h.posted.move (by simp [hp])
  cleared := h.cleared
  marks := h.marks.move nofun nofun
  returns := h.returns
  calm := h.calm

/-- The allocation fails, and free descriptors have been cleared. -/
theorem backOut (h : Core st s) {d : Disk} (hd : Disk.Same s.disk d) :
    Core st { s with disk := d } where
  buffers := h.buffers
  chains := by
    simp only [hd.free]
    exact h.chains
  formed := by
    refine h.formed.congr (fun q b c i hq hi => hd.desc i ?_) (fun q b c _ => ?_)
    · exact h.chains.busy.mpr ⟨q, c, Stage.chain?_of_formed? hq, hi⟩
    · rw [hd.info]
  posted := by
    simp only [Io.heads, Io.waiting, Io.completions, hd.availRing, hd.availIdx, hd.usedRing,
      hd.usedIdx, hd.seen]
    exact h.posted
  cleared := by
    simp only [Io.completions, hd.usedRing, hd.usedIdx, hd.seen, hd.info]
    exact h.cleared
  marks := h.marks
  returns := h.returns
  calm := h.calm

/-- The head of a chain that has not been sent is not under way. -/
theorem head_notMem (h : Core st s) (hp : (st p).chain? = some c)
    (hns : ∀ b, st p = .sent b c → s.onDisk b = false) : (c.head : Nat) ∉ s.heads :=
  h.posted.head_notMem h.chains hp hns

theorem mem_heads_of_completions {i : Nat} (hi : i ∈ s.completions) : i ∈ s.heads :=
  List.mem_append_right _ hi

/-- The descriptors are filled in and the buffer belongs to the disk. -/
theorem format (h : Core st s) (hp : st p = .owns b c) :
    Core (update st p (.ready b c))
      { s with
        disk := s.disk.format b c
        onDisk := update s.onDisk b true
        served := update s.served b 0 } where
  buffers := h.buffers.move (by rw [hp]; rfl)
  chains := h.chains.move (by rw [hp]; rfl)
  formed := by
    have hchain : (st p).chain? = some c := by rw [hp]; rfl
    -- the chains of the other calls are left alone
    have hother : Formed st (s.disk.format b c).desc (s.disk.format b c).info := by
      have happart : ∀ {q b' c' i}, (st q).formed? = some (b', c') → c'.Has i → ¬ c.Has i := by
        intro q b' c' i hq hi hci
        have := h.chains.unique (Stage.chain?_of_formed? hq) hchain hi hci
        rw [this, hp] at hq
        contradiction
      refine h.formed.congr (fun q b' c' i hq hi => ?_) (fun q b' c' hq => ?_)
      · exact Disk.desc_format_of_not_has (happart hq hi) s.disk b
      · have hne : c'.head ≠ c.head := fun heq => happart hq c'.has_head (heq ▸ c.has_head)
        simp [Disk.format, hne]
    refine hother.move ?_
    intro b' c' hx
    cases hx
    exact ⟨Disk.linked_format (h.chains.distinct hchain) s.disk b, by simp [Disk.format]⟩
  posted := by
    have hns : ∀ q c', st q ≠ .sent b c' := by
      intro q c' hq
      have := h.buffers.unique (p := q) (q := p) (b := b) (by rw [hq]; rfl) (by rw [hp]; rfl)
      rw [this, hp] at hq
      contradiction
    exact (h.posted.mark hns true).move (by simp [hp])
  cleared := by
    intro i hi
    have hne : i ≠ c.head := by
      rintro rfl
      exact h.head_notMem (p := p) (by rw [hp]; rfl) (by simp [hp]) (mem_heads_of_completions hi)
    simp only [Disk.format, update_of_ne hne]
    exact h.cleared i hi
  marks := by
    have hm : Marks st (update s.onDisk b true) (update s.served b 0) :=
      h.marks.mark h.buffers (p := p) (by rw [hp]; rfl) (by simp [hp]) (by simp [hp])
    refine hm.move ?_ (by simp)
    intro b' c' hx
    cases hx
    simp
  returns := h.returns
  calm := h.calm

/-- The entry is written where the device does not look. -/
theorem offer (h : Core st s) (hp : st p = .ready b c) :
    Core st { s with disk := s.disk.offer c.head } := by
  have hwait : Io.waiting { s with disk := s.disk.offer c.head } = s.waiting :=
    Lib.Ring.contents_update (by decide) _ _ s.taken.toNat_lt s.disk.availIdx.toNat_lt
      (h.waiting_lt hp)
  refine { h with posted := ?_ }
  rw [Io.heads, hwait]
  exact h.posted

theorem publish (h : Core st s) (hp : st p = .ready b c)
    (hc : s.disk.availRing (Fin.ofNat NUM s.disk.availIdx.toNat) = c.head) :
    Core (update st p (.sent b c)) { s with disk := s.disk.publish } where
  buffers := h.buffers.move (by rw [hp]; rfl)
  chains := h.chains.move (by rw [hp]; rfl)
  formed := by
    refine h.formed.move ?_
    intro b' c' hx
    exact h.formed (p := p) (by rw [hp]; exact hx)
  posted := by
    have hwait : Io.waiting { s with disk := s.disk.publish } = s.waiting ++ [(c.head : Nat)] := by
      simp only [Io.waiting, Disk.publish, UInt16.toNat_add, UInt16.toNat_one]
      rw [Lib.Ring.contents_advance (by decide) (by decide) _ s.taken.toNat_lt
        s.disk.availIdx.toNat_lt (h.waiting_lt hp), hc]
    refine (h.posted.send h.chains hp (h.marks.ready hp).1).perm ?_
    rw [Io.heads, Io.heads, hwait, List.append_assoc, List.append_assoc, List.append_assoc]
    exact List.perm_middle.symm
  cleared := h.cleared
  marks := by
    obtain ⟨hb, hn⟩ := h.marks.ready hp
    refine h.marks.move nofun ?_
    intro b' c' hx
    cases hx
    simp [hb, hn]
  returns := h.returns
  calm := h.calm

/-- The disk once a completed request is forgotten and its chain is free again. -/
def finished (d : Disk) (c : Chain) : Disk := (d.forget c.head).freedChain c

theorem free_chain_forget (h : Core st s) (hp : st p = .sent b c) :
    (s.disk.forget c.head).free_chain NUM c.head = .ok (finished s.disk c) := by
  have hchain : (st p).chain? = some c := by rw [hp]; rfl
  refine Disk.free_chain_eq (b := b) (h.chains.distinct hchain) ?_ ?_
  · exact (h.formed (p := p) (by rw [hp]; rfl)).1
  · intro i hi
    exact h.chains.busy.mpr ⟨p, c, hchain, hi⟩

/-- A call returns once its request has been completed. -/
theorem finish (h : Core st s) (hp : st p = .sent b c) (hb : s.onDisk b = false) :
    Core (update st p .out)
      { s with
        disk := finished s.disk c
        held := update s.held b false
        returns := s.returns ++ [s.served b] } where
  buffers := h.buffers.done (by rw [hp]; rfl)
  chains := by
    have hfree : (finished s.disk c).free = c.mark true s.disk.free := Disk.freedChain_free _ c
    simp only [hfree]
    exact h.chains.release (by rw [hp]; rfl)
  formed := by
    intro q b' c' hq
    have hqp : q ≠ p := by
      rintro rfl
      simp [Stage.formed?] at hq
    rw [update_of_ne hqp] at hq
    have happart : ∀ i, c'.Has i → ¬ c.Has i := fun i hi hci =>
      hqp (h.chains.unique (Stage.chain?_of_formed? hq) (by rw [hp]; rfl) hi hci)
    obtain ⟨hl, hi⟩ := h.formed hq
    refine ⟨hl.congr fun i hi => Disk.freedChain_desc (happart i hi) _, ?_⟩
    have hne : c'.head ≠ c.head := fun heq => happart _ c'.has_head (heq ▸ c.has_head)
    simpa [finished, Disk.freedChain, Disk.freed, Disk.forget, hne] using hi
  posted := by
    refine ⟨h.posted.nodup, ?_⟩
    intro x
    refine (h.posted.mem (h := x)).trans (exists_congr fun q => ?_)
    rcases eq_or_ne q p with rfl | hne
    · rw [update_self, hp]
      simp [hb]
    · rw [update_of_ne hne]
  cleared := by
    intro i hi
    have := h.cleared i hi
    simp only [finished, Disk.freedChain, Disk.freed, Disk.forget, update_apply]
    split
    · next heq => exact heq ▸ this
    · exact this
  marks := h.marks.move nofun nofun
  returns := by
    intro n hn
    rcases List.mem_append.mp hn with hn | hn
    · exact h.returns n hn
    · rw [List.mem_singleton.mp hn, h.marks.sent hp, hb]
      rfl
  calm := h.calm

/-- What `virtio_disk_intr` finds in the used ring: a request under way, its buffer in `info`
and its status cleared. -/
theorem found (h : Core st s) {i : Nat} (hi : i ∈ s.completions) :
    ∃ p b c, st p = .sent b c ∧ s.onDisk b = true ∧ (c.head : Nat) = i ∧
      s.disk.info c.head = ⟨some b, 0⟩ := by
  obtain ⟨p, b, c, hp, hb, rfl⟩ := h.posted.mem.mp (mem_heads_of_completions hi)
  have hinfo := (h.formed (p := p) (by rw [hp]; rfl)).2
  have hstatus := h.cleared c.head hi
  refine ⟨p, b, c, hp, hb, rfl, ?_⟩
  cases hx : s.disk.info c.head with
  | mk b' st' => simp_all

/-- The entry `virtio_disk_intr` looks at is the oldest one. -/
theorem completions_cons (hne : s.disk.seen ≠ s.disk.usedIdx) :
    s.completions = s.disk.completed ::
      contents (2 ^ 16) s.disk.usedRing (s.disk.seen + 1).toNat s.disk.usedIdx.toNat := by
  rw [UInt16.toNat_add]
  refine Lib.Ring.contents_pop (by decide) _ s.disk.seen.toNat_lt ?_
  rw [Ne, Lib.Ring.count_eq_zero s.disk.seen.toNat_lt s.disk.usedIdx.toNat_lt]
  exact fun heq => hne (UInt16.toNat_inj.mp heq)

/-- One completion is handled. -/
theorem handle (h : Core st s) (hne : s.disk.seen ≠ s.disk.usedIdx) (hp : st p = .sent b c)
    (hc : (c.head : Nat) = s.disk.completed) (hb : s.onDisk b = true) :
    Core st { s with
      disk := { s.disk with seen := s.disk.seen + 1 }
      onDisk := update s.onDisk b false
      served := update s.served b (s.served b + 1) } where
  buffers := h.buffers
  chains := h.chains
  formed := h.formed
  posted := by
    have hperm : s.heads.Perm (s.disk.completed :: (s.waiting ++ s.working ++
        contents (2 ^ 16) s.disk.usedRing (s.disk.seen + 1).toNat s.disk.usedIdx.toNat)) := by
      rw [Io.heads, completions_cons hne]
      exact List.perm_middle
    exact (h.posted.perm hperm).complete h.chains h.buffers hp hc
  cleared := by
    intro i hi
    refine h.cleared i ?_
    rw [completions_cons hne]
    exact List.mem_cons_of_mem _ hi
  marks := by
    refine h.marks.mark h.buffers (p := p) (by rw [hp]; rfl) (by simp [hp]) ?_
    intro c' _
    rw [h.marks.sent hp, hb]
    rfl
  returns := h.returns
  calm := h.calm

/-! ### The device -/

/-- An entry goes from the avail ring to the device. -/
theorem take (h : Core st s) (hne : s.taken ≠ s.disk.availIdx) :
    Core st { s with
      taken := s.taken + 1
      working := s.working ++ [s.disk.availRing (Fin.ofNat NUM s.taken.toNat)] } := by
  have hcons : s.waiting = s.disk.availRing (Fin.ofNat NUM s.taken.toNat) ::
      contents (2 ^ 16) s.disk.availRing (s.taken + 1).toNat s.disk.availIdx.toNat := by
    rw [UInt16.toNat_add]
    refine Lib.Ring.contents_pop (by decide) _ s.taken.toNat_lt ?_
    rw [Ne, Lib.Ring.count_eq_zero s.taken.toNat_lt s.disk.availIdx.toNat_lt]
    exact fun heq => hne (UInt16.toNat_inj.mp heq)
  refine { h with posted := h.posted.perm ?_ }
  rw [Io.heads, hcons, Io.heads, Io.waiting, Io.completions, Io.completions]
  refine List.Perm.append_right _ ?_
  rw [List.cons_append, ← List.append_assoc]
  exact (List.perm_append_singleton _ _).symm

/-- An entry goes from the device to the used ring, and its status byte has been cleared. -/
theorem complete (h : Core st s) {x : Nat} (hx : x ∈ s.working) (hc : (c.head : Nat) = x) :
    Core st { s with disk := s.disk.answer c.head x, working := s.working.erase x } := by
  have hpush : Io.completions
      { s with disk := s.disk.answer c.head x, working := s.working.erase x } =
      s.completions ++ [x] := by
    simp only [Io.completions, Disk.answer, UInt16.toNat_add, UInt16.toNat_one]
    exact Lib.Ring.contents_push (by decide) (by decide) _ _ s.disk.seen.toNat_lt
      s.disk.usedIdx.toNat_lt (h.completions_lt hx)
  refine { h with formed := ?_, posted := ?_, cleared := ?_ }
  · refine h.formed.congr (fun _ _ _ _ _ _ => rfl) (fun q b' c' _ => ?_)
    simp only [Disk.answer, update_apply]
    split
    · next heq => rw [heq]
    · rfl
  · refine h.posted.perm ?_
    rw [Io.heads, Io.heads, hpush, List.append_assoc, List.append_assoc]
    refine List.Perm.append_left s.waiting ?_
    calc (s.working ++ s.completions).Perm ((x :: s.working.erase x) ++ s.completions) :=
          (List.perm_cons_erase hx).append_right _
      List.Perm _ (s.working.erase x ++ (s.completions ++ [x])) := by
          rw [← List.append_assoc]
          exact (List.perm_append_singleton _ _).symm
  · intro i hi
    rw [hpush, List.mem_append, List.mem_singleton, ← hc] at hi
    simp only [Disk.answer, update_apply]
    split
    · rfl
    · next hne => exact h.cleared i (hi.resolve_right fun heq => hne (Fin.ext heq))

end Core

/-! ### Steps of the whole system -/

namespace Offered

variable {ctl : Pid → Ctl} {d : Disk} {p : Pid} {x : Ctl}

theorem goto (h : Offered ctl d) (hx : ∀ b c, x ≠ .publish b c) :
    Offered (update ctl p x) d := by
  intro q b c hq
  rcases eq_or_ne q p with rfl | hne
  · rw [update_self] at hq
    exact absurd hq (hx b c)
  · rw [update_of_ne hne] at hq
    exact h hq

/-- While another process is in a critical section nothing is about to be published. -/
theorem of_holder {lock : Option Pid} (h : Locks ctl lock) (hp : (ctl p).holds = true)
    (hx : ∀ b c, x ≠ .publish b c) : Offered (update ctl p x) d := by
  intro q b c hq
  rcases eq_or_ne q p with rfl | hne
  · rw [update_self] at hq
    exact absurd hq (hx b c)
  · rw [update_of_ne hne] at hq
    exact absurd (h.unique (by rw [hq]; rfl) hp) hne

theorem wake (h : Offered ctl d) {f : Ctl → Ctl}
    (hf : ∀ c b ch, f c = .publish b ch → c = .publish b ch) :
    Offered (fun q => f (ctl q)) d := fun _ _ _ hq => h (hf _ _ _ hq)

end Offered

theorem Ctl.wakeFree_eq_publish (c : Ctl) (b : Buf) (ch : Chain) (h : c.wakeFree = .publish b ch) :
    c = .publish b ch := by
  cases c <;> simp_all [Ctl.wakeFree]

theorem Ctl.wakeBuf_eq_publish (b' : Buf) (c : Ctl) (b : Buf) (ch : Chain)
    (h : c.wakeBuf b' = .publish b ch) : c = .publish b ch := by
  cases c <;> simp_all [Ctl.wakeBuf]
  split at h <;> contradiction

namespace Inv

variable {s s' : Sys} {p : Pid} {b : Buf} {c : Chain}

@[simp] theorem stages_wakeFree (s : Sys) : s.wakeFree.stages = s.stages := by
  funext q
  simp [Sys.stages, Sys.wakeFree]

@[simp] theorem stages_wakeBuf (s : Sys) (b : Buf) : (s.wakeBuf b).stages = s.stages := by
  funext q
  simp [Sys.stages, Sys.wakeBuf]

theorem stages_eq {x : Ctl} (hp : s.ctl p = x) : s.stages p = x.stage := by
  rw [Sys.stages, hp]

theorem core_goto {x : Ctl} {io : Io} (h : Core (update s.stages p x.stage) io) :
    Core (s.goto p x).stages io := by
  rwa [Sys.stages_goto]

/-- Within a stage nothing changes for the requests. -/
theorem core_stay {x : Ctl} {io : Io} (hst : x.stage = s.stages p) (h : Core s.stages io) :
    Core (s.goto p x).stages io := by
  rwa [Sys.stages_goto, hst, update_eq_self]

theorem holds_of_eq {x : Ctl} (hp : s.ctl p = x) (hx : x.holds = true) :
    (s.ctl p).holds = true := by
  rw [hp, hx]

theorem wakeFree (h : Inv s) : Inv s.wakeFree where
  locks := h.locks.wake Ctl.holds_wakeFree
  offered := h.offered.wake Ctl.wakeFree_eq_publish
  core := by
    rw [stages_wakeFree]
    exact h.core

/-- A process goes to sleep, or the handler ends, and the lock is free. -/
theorem leave (h : Inv s) {x : Ctl} (hp : (s.ctl p).holds = true) (hx : x.holds = false)
    (hst : x.stage = (s.ctl p).stage) : Inv (s.goto p x).release where
  locks := h.locks.leave hp hx
  offered := h.offered.goto (by rintro b c rfl; contradiction)
  core := core_stay hst h.core

theorem goAlloc (h : Inv s) (hp : s.ctl p = .alloc b) : Inv (s.goAlloc p b) := by
  have hhold := holds_of_eq hp rfl
  unfold Sys.goAlloc
  rcases s.disk.alloc3_desc_spec with ⟨c, hc, hfree, heq⟩ | ⟨d, freed, hd, heq⟩
  · rw [heq]
    refine ⟨h.locks.goto (by rw [hp]; rfl), h.offered.goto nofun, ?_⟩
    rw [Sys.stages_goto]
    exact h.core.alloc (stages_eq hp) hc hfree
  · rw [heq]
    have hs : Inv { s with disk := d } := by
      refine ⟨h.locks, ?_, h.core.backOut hd⟩
      intro q b' c' hq
      exact absurd (h.locks.unique (by rw [hq]; rfl) hhold) (by rintro rfl; rw [hp] at hq; cases hq)
    cases freed with
    | false => exact hs.leave hhold rfl (by rw [hp]; rfl)
    | true =>
      have hw : s.wakeFree.ctl p = .alloc b := by simp [Sys.wakeFree, hp, Ctl.wakeFree]
      exact hs.wakeFree.leave (x := .asleepFree b) (holds_of_eq hw rfl) rfl
        (congrArg Ctl.stage hw).symm

theorem goWait (h : Inv s) (hp : s.ctl p = .wait b c) : Inv (s.goWait p b c) := by
  have hhold := holds_of_eq hp rfl
  unfold Sys.goWait
  cases hb : s.onDisk b with
  | true => exact h.leave hhold rfl (by rw [hp]; rfl)
  | false =>
    have hw : s.wakeFree.ctl p = .wait b c := by simp [Sys.wakeFree, hp, Ctl.wakeFree]
    simp only [h.core.free_chain_forget (stages_eq hp), Bool.false_eq_true, if_false]
    refine ⟨?_, ?_, ?_⟩
    · exact h.wakeFree.locks.leave (holds_of_eq hw rfl) rfl
    · exact Offered.of_holder h.wakeFree.locks (holds_of_eq hw rfl) nofun
    · have hcore := h.core.finish (stages_eq hp) hb
      rw [← stages_wakeFree s] at hcore
      exact core_goto (s := s.wakeFree) (x := .idle) hcore

theorem goIntr (h : Inv s) (hp : s.ctl p = .intrLoop) : Inv (s.goIntr p) := by
  have hhold := holds_of_eq hp rfl
  unfold Sys.goIntr
  by_cases hne : s.disk.seen = s.disk.usedIdx
  · simp only [hne, if_true]
    exact h.leave hhold rfl (by rw [hp]; rfl)
  · have hmem : s.disk.completed ∈ s.completions := by
      rw [Core.completions_cons hne]
      exact List.mem_cons_self
    obtain ⟨q, b, c, hq, hb, hc, hinfo⟩ := h.core.found hmem
    have hlt : s.disk.completed < NUM := hc ▸ c.head.isLt
    have hhead : (⟨s.disk.completed, hlt⟩ : Idx) = c.head := Fin.ext hc.symm
    simp only [hne, if_false, hlt, dite_true, hhead, hinfo, ne_eq, not_true_eq_false]
    refine ⟨h.locks.wake (Ctl.holds_wakeBuf b), ?_, ?_⟩
    · exact h.offered.wake (Ctl.wakeBuf_eq_publish b)
    · have := h.core.handle hne hq hc hb
      rwa [← stages_wakeBuf s b] at this

theorem go (h : Inv s) (hs : s.go p = some s') : Inv s' := by
  unfold Sys.go at hs
  cases hp : s.ctl p <;> simp only [hp, Option.some.injEq, reduceCtorEq] at hs <;> subst hs
  case alloc b => exact h.goAlloc hp
  case format b c =>
    refine ⟨h.locks.goto (by rw [hp]; rfl), h.offered.goto nofun, ?_⟩
    exact core_goto (x := .offer b c) (h.core.format (stages_eq hp))
  case offer b c =>
    refine ⟨h.locks.goto (by rw [hp]; rfl), ?_, ?_⟩
    · intro q b' c' hq
      rcases eq_or_ne q p with rfl | hne
      · simp only [Sys.goto, update_self, Ctl.publish.injEq] at hq
        simp [Sys.goto, Disk.offer, hq.2]
      · simp only [Sys.goto, update_of_ne hne] at hq
        exact absurd (h.locks.unique (by rw [hq]; rfl) (holds_of_eq hp rfl)) hne
    · exact core_stay (s := s) (x := .publish b c) (stages_eq hp).symm (h.core.offer (stages_eq hp))
  case publish b c =>
    refine ⟨h.locks.goto (by rw [hp]; rfl), ?_, ?_⟩
    · exact Offered.of_holder h.locks (holds_of_eq hp rfl) nofun
    · exact core_goto (x := .wait b c) (h.core.publish (stages_eq hp) (h.offered hp))
  case wait b c => exact h.goWait hp
  case intrLoop => exact h.goIntr hp

theorem take (h : Inv s) (hs : s.take = some s') : Inv s' := by
  unfold Sys.take at hs
  split at hs
  · contradiction
  · next hne =>
    cases hs
    exact ⟨h.locks, h.offered, h.core.take hne⟩

/-- The status byte the device finds at the end of a chain is the one of its head. -/
theorem status_addr (h : Inv s) {x : Nat} (hx : x ∈ s.working) :
    ∃ c : Chain, (c.head : Nat) = x ∧
      ∀ {desc : Nat → Desc}, (desc = fun i => s.disk.desc (Fin.ofNat NUM i)) →
        (desc (desc (desc x).next).next).addr = .status c.head := by
  have hmem : x ∈ s.heads := List.mem_append_left _ (List.mem_append_right _ hx)
  obtain ⟨p, b, c, hp, -, rfl⟩ := h.core.posted.mem.mp hmem
  obtain ⟨hl, -⟩ := h.core.formed (p := p) (by rw [hp]; rfl)
  refine ⟨c, rfl, ?_⟩
  rintro _ rfl
  simp [hl.head, hl.data, hl.status]

theorem complete (h : Inv s) {x : Nat} (hs : s.complete x = some s') : Inv s' := by
  unfold Sys.complete at hs
  split at hs
  · next hx =>
    obtain ⟨c, hc, haddr⟩ := h.status_addr hx.1
    simp only [haddr rfl, Option.some.injEq] at hs
    subst hs
    exact ⟨h.locks, h.offered, h.core.complete hx.1 hc⟩
  · contradiction

theorem step (h : Inv s) {a : Act} (hs : step s a = some s') : Inv s' := by
  cases a with
  | rw p b =>
    simp only [Virtio.step, Option.ite_none_right_eq_some, Option.some.injEq] at hs
    obtain ⟨⟨hp, hb⟩, rfl⟩ := hs
    refine ⟨h.locks.goto (by rw [hp]; rfl), h.offered.goto nofun, ?_⟩
    exact core_goto (x := .enter b) (h.core.call (stages_eq hp) hb)
  | intr p =>
    simp only [Virtio.step, Option.ite_none_right_eq_some, Option.some.injEq] at hs
    obtain ⟨hp, rfl⟩ := hs
    exact ⟨h.locks.goto (by rw [hp]; rfl), h.offered.goto nofun,
      core_stay (stages_eq hp).symm h.core⟩
  | acquire p =>
    simp only [Virtio.step, Option.ite_none_right_eq_some, Option.map_eq_some_iff] at hs
    obtain ⟨hfree, x, hx, rfl⟩ := hs
    obtain ⟨hst, hout, hin, hpub⟩ := Ctl.locked_some hx
    have hlocks := h.locks
    rw [hfree] at hlocks
    exact ⟨hlocks.enter hin, h.offered.goto hpub, core_stay hst h.core⟩
  | go p => exact h.go hs
  | take => exact h.take hs
  | complete x => exact h.complete hs

theorem init : Inv init where
  locks := by
    intro p
    simp [Virtio.init, Ctl.holds]
  offered := nofun
  core :=
    { buffers := ⟨nofun, nofun⟩
      chains := ⟨nofun, by simp [Virtio.init, Sys.stages, Ctl.stage, Stage.chain?], nofun⟩
      formed := nofun
      posted := by
        constructor
        · decide
        · intro x
          simp [Virtio.init, Sys.stages, Ctl.stage, Io.heads, Io.waiting, Io.completions, contents,
            count]
      cleared := fun i hi => rfl
      marks := ⟨nofun, nofun⟩
      returns := nofun
      calm := rfl }

theorem of_run {as : List Act} (hrun : run Virtio.step Virtio.init as = some s) : Inv s :=
  run_invariant (fun _ _ _ h hs => h.step hs) Inv.init hrun

end Inv

/-! ### The driver's bookkeeping -/

/-- A call sleeps, or is about to take the lock again, with its request submitted. -/
def Request (s : Sys) (p : Pid) (b : Buf) (c : Chain) : Prop :=
  s.ctl p = .asleepBuf b c ∨ s.ctl p = .wokenBuf b c

/-- Each descriptor is free or belongs to exactly one request, and each request has three. -/
structure Partitioned (s : Sys) : Prop where
  three {p b c} : Request s p b c → c.Distinct
  free {i} : s.disk.free i = true ↔ ¬ ∃ p b c, Request s p b c ∧ c.Has i
  apart {p q b b' c c' i} : Request s p b c → Request s q b' c' → c.Has i → c'.Has i → p = q

/-- While the lock is free, the calls that own a chain have submitted it. -/
theorem request_iff {s : Sys} (h : Inv s) (hlock : s.lock = none) {p : Pid} {c : Chain} :
    (s.stages p).chain? = some c ↔ ∃ b, Request s p b c := by
  have hout : (s.ctl p).holds = false := by
    have := h.locks p
    rw [hlock] at this
    simpa using this
  unfold Request Sys.stages
  cases hp : s.ctl p <;> simp_all [Ctl.holds, Ctl.stage, Stage.chain?]

theorem partitioned {s : Sys} (h : Inv s) (hlock : s.lock = none) : Partitioned s where
  three hp := h.core.chains.distinct ((request_iff h hlock).mpr ⟨_, hp⟩)
  free := by
    intro i
    rw [← Bool.not_eq_false, not_iff_not, h.core.chains.busy]
    simp only [request_iff h hlock]
    constructor
    · rintro ⟨p, c, ⟨b, hp⟩, hi⟩
      exact ⟨p, b, c, hp, hi⟩
    · rintro ⟨p, b, c, hp, hi⟩
      exact ⟨p, c, ⟨b, hp⟩, hi⟩
  apart hp hq :=
    h.core.chains.unique ((request_iff h hlock).mpr ⟨_, hp⟩) ((request_iff h hlock).mpr ⟨_, hq⟩)

/-- `virtio_disk_intr` handles the completion of a request that has been submitted: `info` has
its buffer, the status is 0, and `b->disk` of that buffer is cleared and of no other. -/
def Completes (s s' : Sys) : Prop :=
  ∃ p b c, s.stages p = .sent b c ∧ s.disk.completed = c.head ∧
    s.disk.info c.head = ⟨some b, 0⟩ ∧ s.onDisk b = true ∧
    s'.onDisk = update s.onDisk b false

theorem completes {s s' : Sys} {p : Pid} (h : Inv s) (hp : s.ctl p = .intrLoop)
    (hne : s.disk.seen ≠ s.disk.usedIdx) (hs : step s (.go p) = some s') : Completes s s' := by
  have hmem : s.disk.completed ∈ s.completions := by
    rw [Core.completions_cons hne]
    exact List.mem_cons_self
  obtain ⟨q, b, c, hq, hb, hc, hinfo⟩ := h.core.found hmem
  refine ⟨q, b, c, hq, hc.symm, hinfo, hb, ?_⟩
  have hlt : s.disk.completed < NUM := hc ▸ c.head.isLt
  have hhead : (⟨s.disk.completed, hlt⟩ : Idx) = c.head := Fin.ext hc.symm
  simp only [step, Sys.go, hp, Sys.goIntr, hne, if_false, hlt, dite_true, hhead, hinfo, ne_eq,
    not_true_eq_false, Option.some.injEq] at hs
  rw [← hs]

/-- In every run no panic is reached, the descriptors are partitioned whenever `vdisk_lock` is
free, every completion is that of the request submitted with its head, and every call that has
returned saw its request completed exactly once. -/
theorem disk_bookkeeping {as : List Act} {s : Sys} (hrun : run step init as = some s) :
    s.panicked = none ∧
    (s.lock = none → Partitioned s) ∧
    (∀ p s', s.ctl p = .intrLoop → s.disk.seen ≠ s.disk.usedIdx → step s (.go p) = some s' →
      Completes s s') ∧
    ∀ n ∈ s.returns, n = 1 := by
  have h := Inv.of_run hrun
  refine ⟨h.core.calm, partitioned h, ?_, h.core.returns⟩
  intro p s' hp hne hs
  exact completes h hp hne hs

/-- A request that has been submitted and not completed is in one place: the avail ring, the device or
the used ring. So neither ring ever holds more than `NUM` entries, although its indices wrap. -/
theorem requests_in_one_place {as : List Act} {s : Sys} (hrun : run step init as = some s) :
    s.heads.Nodup ∧
    (∀ x, x ∈ s.heads ↔ ∃ p b c, s.stages p = .sent b c ∧ s.onDisk b = true ∧ c.head = x) ∧
    s.waiting.length + s.working.length + s.completions.length ≤ NUM := by
  have h := (Inv.of_run hrun).core.posted
  refine ⟨h.nodup, fun x => h.mem, ?_⟩
  have hlen := h.length_le
  rw [Io.heads, List.length_append, List.length_append] at hlen
  exact hlen

/-- Two requests complete in the other order, while a third call has to wait for descriptors. -/
def outOfOrder : List Act :=
  [.rw 0 7, .acquire 0, .go 0, .go 0, .go 0, .go 0, .go 0,
   .rw 1 8, .acquire 1, .go 1, .go 1, .go 1, .go 1, .go 1,
   .rw 2 9, .acquire 2, .go 2,
   .take, .take, .complete 3, .intr 3, .acquire 3, .go 3, .complete 0, .go 3, .go 3,
   .acquire 1, .go 1, .acquire 0, .go 0]

theorem disk_bookkeeping_outOfOrder :
    ∃ s, run step init outOfOrder = some s ∧ s.returns = [1, 1] ∧ s.ctl 2 = .wokenFree 9 ∧
      s.panicked = none := by
  have hrun : run step init outOfOrder = some _ := rfl
  exact ⟨_, hrun, by decide, by decide, (disk_bookkeeping hrun).1⟩

theorem requests_in_one_place_taken : ∃ s, run step init (outOfOrder.take 19) = some s ∧
    s.working = [0, 3] ∧ s.heads.Nodup := by
  have hrun : run step init (outOfOrder.take 19) = some _ := rfl
  exact ⟨_, hrun, by decide, (requests_in_one_place hrun).1⟩

end Xv6.Virtio
