import Xv6.Pipes.Model

/-!
# No lost wakeup on a pipe, and the one way to lose it

A process asleep on `&pi->nread` has found the ring empty and the write side
open; one asleep on `&pi->nwrite` has found it full and the read side open. Every
way out of a critical section that changes one of these wakes the sleepers, with
one exception: `pipewrite` returns -1 without waking anybody when it finds its
process killed, also when it has stored bytes since it took the lock. `KillSafe`
says that no `kill` falls into that window.
-/
namespace Xv6.Pipes

open Function

set_option autoImplicit false

/-- No sleeper that has something to wake up for, with `pi->lock` free. -/
def NoLostWakeup (s : Sys) : Prop :=
  s.lock = none → ∀ p,
    ((s.ctl p).chan = some .nread → s.pi.empty = true ∧ s.pi.writeopen = true) ∧
    ((s.ctl p).chan = some .nwrite → s.pi.full = true ∧ s.pi.readopen = true)

/-- A `kill` does not hit a writer that has stored bytes since it took the lock
and is going to test `killed` again, while a reader is asleep. -/
def KillSafe (s : Sys) : Act → Prop
  | .kill p => ∀ n i i0, s.ctl p = .writeLoop n i i0 → i0 < i → i < n →
      ∀ q, (s.ctl q).chan ≠ some .nread
  | _ => True

/-- What justifies a process being asleep on `&pi->nread`: nothing to read, or
a writer that has stored bytes and will wake the readers before it unlocks. -/
def ReadersMaySleep (s : Sys) : Prop :=
  (s.pi.empty = true ∧ s.pi.writeopen = true) ∨
    ∃ p n i i0, s.ctl p = .writeLoop n i i0 ∧ i0 < i ∧ s.pi.readopen = true ∧
      (i < n → s.killed p = false)

/-- What justifies a process being asleep on `&pi->nwrite`: no room, or a reader
that has made some and will wake the writers before it unlocks. -/
def WritersMaySleep (s : Sys) : Prop :=
  (s.pi.full = true ∧ s.pi.readopen = true) ∨
    ∃ p n got, s.ctl p = .readCopy n got ∧ got ≠ []

structure Awake (s : Sys) : Prop where
  locked : Locked s
  forward : ∀ p n i i0, s.ctl p = .writeLoop n i i0 → i0 ≤ i
  readers : ∀ q, (s.ctl q).chan = some .nread → ReadersMaySleep s
  writers : ∀ q, (s.ctl q).chan = some .nwrite → WritersMaySleep s

theorem noLostWakeup_of_awake {s : Sys} (hs : Awake s) : NoLostWakeup s := by
  intro hl p
  have hfree : ∀ q, (s.ctl q).holds ≠ true := by
    intro q hq
    rw [(hs.locked q).mp hq] at hl
    cases hl
  constructor
  · intro hp
    rcases hs.readers p hp with h | ⟨q, n, i, i0, hq, _⟩
    · exact h
    · exact absurd (by rw [hq]; rfl) (hfree q)
  · intro hp
    rcases hs.writers p hp with h | ⟨q, n, got, hq, _⟩
    · exact h
    · exact absurd (by rw [hq]; rfl) (hfree q)

/-- At most one process is inside its critical section. -/
theorem holder_unique {s : Sys} (hs : Locked s) {p q : Pid} (hp : (s.ctl p).holds = true)
    (hq : (s.ctl q).holds = true) : p = q :=
  Option.some.inj (((hs p).mp hp).symm.trans ((hs q).mp hq))

theorem chan_wakeup (ch : Chan) (ctl : Pid → Ctl) (q : Pid) :
    (wakeup ch ctl q).chan = if (ctl q).chan = some ch then none else (ctl q).chan := by
  unfold wakeup
  split
  · rename_i h
    cases hc : ctl q <;> rfl
  · rfl

theorem chan_wake (c : Ctl) : c.wake.chan = none := by cases c <;> rfl

/-- Who sleeps after one process has moved to a place where it does not. -/
theorem chan_update {ctl : Pid → Ctl} {p q : Pid} {c : Ctl} {ch : Chan} (hc : c.chan ≠ some ch)
    (h : (update ctl p c q).chan = some ch) : (ctl q).chan = some ch := by
  by_cases hq : q = p
  · subst hq; rw [update_self] at h; exact absurd h hc
  · rwa [update_of_ne hq] at h

section Step

variable {s : Sys} (hs : Awake s)
include hs

/-- Seen from the process in its critical section, readers sleep because there is
nothing to read or because this process is a writer that will wake them. -/
theorem readers_holder {p q : Pid} (hp : (s.ctl p).holds = true)
    (hq : (s.ctl q).chan = some .nread) :
    (s.pi.empty = true ∧ s.pi.writeopen = true) ∨
      ∃ n i i0, s.ctl p = .writeLoop n i i0 ∧ i0 < i ∧ s.pi.readopen = true ∧
        (i < n → s.killed p = false) := by
  rcases hs.readers q hq with h | ⟨r, n, i, i0, hr, h⟩
  · exact .inl h
  · obtain rfl := holder_unique hs.locked hp (by rw [hr]; rfl)
    exact .inr ⟨n, i, i0, hr, h⟩

theorem writers_holder {p q : Pid} (hp : (s.ctl p).holds = true)
    (hq : (s.ctl q).chan = some .nwrite) :
    (s.pi.full = true ∧ s.pi.readopen = true) ∨ ∃ n got, s.ctl p = .readCopy n got ∧ got ≠ [] := by
  rcases hs.writers q hq with h | ⟨r, n, got, hr, h⟩
  · exact .inl h
  · obtain rfl := holder_unique hs.locked hp (by rw [hr]; rfl)
    exact .inr ⟨n, got, hr, h⟩

/-- A holder that is not a writer sees the readers asleep on an empty ring. -/
theorem readers_empty {p q : Pid} {c : Ctl} (hp : s.ctl p = c) (hh : c.holds = true)
    (hc : ∀ n i i0, c ≠ .writeLoop n i i0) (hq : (s.ctl q).chan = some .nread) :
    s.pi.empty = true ∧ s.pi.writeopen = true := by
  rcases readers_holder hs (by rw [hp, hh]) hq with h | ⟨n, i, i0, h, _⟩
  · exact h
  · exact absurd (hp.symm.trans h) (hc n i i0)

theorem writers_full {p q : Pid} {c : Ctl} (hp : s.ctl p = c) (hh : c.holds = true)
    (hc : ∀ n got, c = .readCopy n got → got = []) (hq : (s.ctl q).chan = some .nwrite) :
    s.pi.full = true ∧ s.pi.readopen = true := by
  rcases writers_holder hs (by rw [hp, hh]) hq with h | ⟨n, got, h, hne⟩
  · exact h
  · exact absurd (hc n got (hp.symm.trans h)) hne

/-- Both justifications outlive a step that leaves the pipe as it is. -/
theorem readers_stay {s' : Sys} {p q : Pid} {c : Ctl} (hp : s.ctl p = c) (hh : c.holds = true)
    (hc : ∀ n i i0, c ≠ .writeLoop n i i0) (hq : (s.ctl q).chan = some .nread)
    (he : s'.pi.empty = s.pi.empty) (hw : s'.pi.writeopen = s.pi.writeopen) :
    ReadersMaySleep s' := by
  obtain ⟨h1, h2⟩ := readers_empty hs hp hh hc hq
  exact .inl ⟨he.trans h1, hw.trans h2⟩

theorem writers_stay {s' : Sys} {p q : Pid} {c : Ctl} (hp : s.ctl p = c) (hh : c.holds = true)
    (hc : ∀ n got, c = .readCopy n got → got = []) (hq : (s.ctl q).chan = some .nwrite)
    (hf : s'.pi.full = s.pi.full) (hr : s'.pi.readopen = s.pi.readopen) :
    WritersMaySleep s' := by
  obtain ⟨h1, h2⟩ := writers_full hs hp hh hc hq
  exact .inl ⟨hf.trans h1, hr.trans h2⟩

theorem forward_update {p : Pid} {c : Ctl} (hc : ∀ n i i0, c = .writeLoop n i i0 → i0 ≤ i)
    {ctl : Pid → Ctl} (hctl : ∀ q n i i0, ctl q = .writeLoop n i i0 → s.ctl q = .writeLoop n i i0)
    (q : Pid) (n : Int) (i i0 : Nat) (h : update ctl p c q = .writeLoop n i i0) :
    i0 ≤ i := by
  by_cases hq : q = p
  · subst hq; rw [update_self] at h; exact hc n i i0 h
  · rw [update_of_ne hq] at h; exact hs.forward q n i i0 (hctl q n i i0 h)

end Step

theorem writeLoop_of_wakeup {ch : Chan} {ctl : Pid → Ctl} {q : Pid} {n : Int} {i i0 : Nat}
    (h : wakeup ch ctl q = .writeLoop n i i0) : ctl q = .writeLoop n i i0 := by
  unfold wakeup at h
  split at h
  · cases hc : ctl q <;> rw [hc] at h <;> cases h
    rfl
  · exact h

/-- Nobody sleeps on a channel right after it has been woken. -/
theorem woken {ch : Chan} {ctl : Pid → Ctl} {p q : Pid} {c : Ctl} (hc : c.chan ≠ some ch) :
    (update (wakeup ch ctl) p c q).chan ≠ some ch := by
  intro h
  have h' := chan_update hc h
  rw [chan_wakeup] at h'
  split at h'
  · cases h'
  · exact absurd h' ‹_›

/-- Waking one channel leaves the sleepers of the other where they are. -/
theorem asleep_before {ch ch' : Chan} {ctl : Pid → Ctl} {p q : Pid} {c : Ctl}
    (hc : c.chan ≠ some ch') (h : (update (wakeup ch ctl) p c q).chan = some ch') :
    (ctl q).chan = some ch' := by
  have h' := chan_update hc h
  rw [chan_wakeup] at h'
  split at h'
  · cases h'
  · exact h'

theorem awake_moves {s s' : Sys} {a : Act} (hs : Awake s) (hk : KillSafe s a)
    (h : Moves s a s') : Awake s' := by
  have hl := locked_moves hs.locked h
  cases h with
  | call p c h =>
    have hidle : (s.ctl p).holds = false := by rcases h with h | ⟨r, h⟩ <;> rw [h] <;> rfl
    have hne : ∀ r, (s.ctl r).holds = true → r ≠ p := by
      rintro r hr rfl
      rw [hidle] at hr
      cases hr
    have hch : (enter c).chan = none := by cases c <;> rfl
    refine ⟨hl, ?_, ?_, ?_⟩
    · exact forward_update hs (by cases c <;> intro n i i0 he <;> cases he) (fun _ _ _ _ h => h)
    · intro q hq
      rcases hs.readers q (chan_update (by rw [hch]; simp) hq) with h | ⟨r, n, i, i0, hr, h⟩
      · exact .inl h
      · refine .inr ⟨r, n, i, i0, ?_, h⟩
        rw [goto_ctl, update_of_ne (hne r (by rw [hr]; rfl)), hr]
    · intro q hq
      rcases hs.writers q (chan_update (by rw [hch]; simp) hq) with h | ⟨r, n, got, hr, h⟩
      · exact .inl h
      · refine .inr ⟨r, n, got, ?_, h⟩
        rw [goto_ctl, update_of_ne (hne r (by rw [hr]; rfl)), hr]
  | acquire p c hlk hf h =>
    have hno := noLostWakeup_of_awake hs hlk
    have hc : c.chan = none ∧ ∀ n i i0, c = .writeLoop n i i0 → i0 ≤ i := by
      cases he : s.ctl p <;> simp only [he, Ctl.locked, reduceCtorEq, Option.some.injEq] at h <;>
        subst h <;> refine ⟨rfl, ?_⟩ <;> intro n i i0 hw <;> cases hw <;> exact le_rfl
    refine ⟨hl, forward_update hs hc.2 (fun _ _ _ _ h => h), ?_, ?_⟩
    · intro q hq
      exact .inl ((hno q).1 (chan_update (by rw [hc.1]; simp) hq))
    · intro q hq
      exact .inl ((hno q).2 (chan_update (by rw [hc.1]; simp) hq))
  | writeFault p n i i0 h =>
    refine ⟨hl, forward_update hs (by rintro _ _ _ ⟨⟩) (fun _ _ _ _ => writeLoop_of_wakeup), ?_, ?_⟩
    · intro q hq; exact absurd hq (woken (by simp [Ctl.chan]))
    · intro q hq
      exact writers_stay hs h rfl (by rintro _ _ ⟨⟩) (asleep_before (by simp [Ctl.chan]) hq) rfl rfl
  | writeByte p n i i0 c h hr hkill hf =>
    refine ⟨hl, ?_, ?_, ?_⟩
    · refine forward_update hs ?_ (fun _ _ _ _ h => h)
      intro n' i' i0' he
      cases he
      exact (hs.forward p n i i0 h).trans (Nat.le_succ i)
    · intro q _
      refine .inr ⟨p, n, i + 1, i0, update_self .., ?_, hr, fun _ => hkill⟩
      exact Nat.lt_succ_of_le (hs.forward p n i i0 h)
    · intro q hq
      have hw := writers_full hs h rfl (by rintro _ _ ⟨⟩) (chan_update (by simp [Ctl.chan]) hq)
      rw [hf] at hw
      cases hw.1
  | writeAbort p n i i0 h hi ha =>
    refine ⟨hl, forward_update hs (by rintro _ _ _ ⟨⟩) (fun _ _ _ _ h => h), ?_, ?_⟩
    · intro q hq
      rcases readers_holder hs (p := p) (by rw [h]; rfl) (chan_update (by simp [Ctl.chan]) hq)
        with hr | ⟨n', i', i0', he, _, hr, hk'⟩
      · exact .inl hr
      · -- a writer that has stored bytes cannot get here: its test of `killed` came out false
        rw [h] at he
        cases he
        rcases ha with ha | ha
        · rw [ha] at hr; cases hr
        · rw [hk' hi] at ha; cases ha
    · intro q hq
      exact writers_stay hs h rfl (by rintro _ _ ⟨⟩) (chan_update (by simp [Ctl.chan]) hq) rfl rfl
  | writeSleep p n i i0 h hr hf =>
    refine ⟨hl, forward_update hs (by rintro _ _ _ ⟨⟩) (fun _ _ _ _ => writeLoop_of_wakeup), ?_, ?_⟩
    · intro q hq; exact absurd hq (woken (by simp [Ctl.chan]))
    · intro q _; exact .inl ⟨hf, hr⟩
  | writeDone p n i i0 h =>
    refine ⟨hl, forward_update hs (by rintro _ _ _ ⟨⟩) (fun _ _ _ _ => writeLoop_of_wakeup), ?_, ?_⟩
    · intro q hq; exact absurd hq (woken (by simp [Ctl.chan]))
    · intro q hq
      exact writers_stay hs h rfl (by rintro _ _ ⟨⟩) (asleep_before (by simp [Ctl.chan]) hq) rfl rfl
  | waitAbort p n h =>
    refine ⟨hl, forward_update hs (by rintro _ _ _ ⟨⟩) (fun _ _ _ _ h => h), ?_, ?_⟩
    · intro q hq
      exact readers_stay hs h rfl (by rintro _ _ _ ⟨⟩) (chan_update (by simp [Ctl.chan]) hq) rfl rfl
    · intro q hq
      exact writers_stay hs h rfl (by rintro _ _ ⟨⟩) (chan_update (by simp [Ctl.chan]) hq) rfl rfl
  | waitSleep p n h he hw =>
    refine ⟨hl, forward_update hs (by rintro _ _ _ ⟨⟩) (fun _ _ _ _ h => h), ?_, ?_⟩
    · intro q _; exact .inl ⟨he, hw⟩
    · intro q hq
      exact writers_stay hs h rfl (by rintro _ _ ⟨⟩) (chan_update (by simp [Ctl.chan]) hq) rfl rfl
  | waitDone p n h =>
    refine ⟨hl, forward_update hs (by rintro _ _ _ ⟨⟩) (fun _ _ _ _ h => h), ?_, ?_⟩
    · intro q hq
      exact readers_stay hs h rfl (by rintro _ _ _ ⟨⟩) (chan_update (by simp [Ctl.chan]) hq) rfl rfl
    · intro q hq
      exact writers_stay hs h rfl (by rintro _ _ ⟨⟩) (chan_update (by simp [Ctl.chan]) hq) rfl rfl
  | readByte p n got h he =>
    refine ⟨hl, forward_update hs (by rintro _ _ _ ⟨⟩) (fun _ _ _ _ h => h), ?_, ?_⟩
    · intro q hq
      have hr := readers_empty hs h rfl (by rintro _ _ _ ⟨⟩) (chan_update (by simp [Ctl.chan]) hq)
      rw [he] at hr
      cases hr.1
    · intro q _
      exact .inr ⟨p, n, got ++ [s.pi.front], update_self .., by simp⟩
  | readFault p n got h he =>
    refine ⟨hl, forward_update hs (by rintro _ _ _ ⟨⟩) (fun _ _ _ _ => writeLoop_of_wakeup), ?_, ?_⟩
    · intro q hq
      have hr := readers_empty hs h rfl (by rintro _ _ _ ⟨⟩) (asleep_before (by simp [Ctl.chan]) hq)
      rw [he] at hr
      cases hr.1
    · intro q hq; exact absurd hq (woken (by simp [Ctl.chan]))
  | readEnd p n got h =>
    refine ⟨hl, forward_update hs (by rintro _ _ _ ⟨⟩) (fun _ _ _ _ => writeLoop_of_wakeup), ?_, ?_⟩
    · intro q hq
      exact readers_stay hs h rfl (by rintro _ _ _ ⟨⟩) (asleep_before (by simp [Ctl.chan]) hq) rfl rfl
    · intro q hq; exact absurd hq (woken (by simp [Ctl.chan]))
  | close p w h =>
    cases w with
    | true =>
      refine ⟨hl, forward_update hs (by rintro _ _ _ ⟨⟩) (fun _ _ _ _ => writeLoop_of_wakeup), ?_, ?_⟩
      · intro q hq; exact absurd hq (woken (by simp [Ctl.chan]))
      · intro q hq
        exact writers_stay hs h rfl (by rintro _ _ ⟨⟩) (asleep_before (by simp [Ctl.chan]) hq) rfl rfl
    | false =>
      refine ⟨hl, forward_update hs (by rintro _ _ _ ⟨⟩) (fun _ _ _ _ => writeLoop_of_wakeup), ?_, ?_⟩
      · intro q hq
        exact readers_stay hs h rfl (by rintro _ _ _ ⟨⟩) (asleep_before (by simp [Ctl.chan]) hq) rfl rfl
      · intro q hq; exact absurd hq (woken (by simp [Ctl.chan]))
  | kill p =>
    have hwake : ∀ {c : Ctl}, c.holds = true → c.wake = c := by
      intro c hc
      cases c <;> first | rfl | cases hc
    have hself : ∀ r, (s.ctl r).holds = true → update s.ctl p (s.ctl p).wake r = s.ctl r := by
      intro r hr
      by_cases hrp : r = p
      · subst hrp; rw [update_self, hwake hr]
      · exact update_of_ne hrp _ _
    refine ⟨hl, ?_, ?_, ?_⟩
    · refine forward_update hs ?_ (fun _ _ _ _ h => h)
      intro n i i0 he
      refine hs.forward p n i i0 ?_
      cases hc : s.ctl p <;> rw [hc] at he <;> cases he
      rfl
    · intro q hq
      have hq' := chan_update (by rw [chan_wake]; simp) hq
      rcases hs.readers q hq' with h | ⟨r, n, i, i0, hr, hlt, hro, hkr⟩
      · exact .inl h
      · refine .inr ⟨r, n, i, i0, (hself r (by rw [hr]; rfl)).trans hr, hlt, hro, fun hi => ?_⟩
        by_cases hrp : r = p
        · subst hrp
          exact absurd hq' (hk n i i0 hr hlt hi q)
        · exact (update_of_ne hrp _ _).trans (hkr hi)
    · intro q hq
      rcases hs.writers q (chan_update (by rw [chan_wake]; simp) hq) with h | ⟨r, n, got, hr, h⟩
      · exact .inl h
      · exact .inr ⟨r, n, got, (hself r (by rw [hr]; rfl)).trans hr, h⟩

theorem awake_init (data : Fin PIPESIZE → UInt8) : Awake (init data) where
  locked := locked_init data
  forward := by rintro p n i i0 ⟨⟩
  readers := by rintro q ⟨⟩
  writers := by rintro q ⟨⟩

/-- In every run in which no `kill` falls between a byte stored by `pipewrite`
and its next test of `killed` while a reader sleeps, no wakeup is lost. -/
theorem noLostWakeup_of_killSafe (data : Fin PIPESIZE → UInt8) (acts : List Act) (s : Sys)
    (hrun : Lib.run step (init data) acts = some s)
    (hsafe : Lib.Always step KillSafe (init data) acts) : NoLostWakeup s :=
  noLostWakeup_of_awake (Lib.run_invariant_under
    (fun _ _ _ hi hc ht => awake_moves hi hc (moves_of_step ht)) (awake_init data) hsafe hrun)

/-- A reader falls asleep on the empty pipe and a writer stores one of two bytes. -/
def halfWritten : List Act :=
  [.call 1 (.piperead 1), .acquire 1, .waitTest 1,
    .call 0 (.pipewrite 2), .acquire 0, .write 0 (some 7)]

/-- Killed after its last byte, the writer still wakes the reader on its way out. -/
theorem noLostWakeup_of_killSafe_run :
    ∃ s, Lib.run step (init fun _ => 0)
        (halfWritten ++ [.write 0 (some 8), .kill 0, .writeTest 0]) = some s ∧
      s.lock = none ∧ s.pi.empty = false ∧ NoLostWakeup s := by
  refine ⟨_, rfl, rfl, rfl, noLostWakeup_of_killSafe (fun _ => 0)
    (halfWritten ++ [.write 0 (some 8), .kill 0, .writeTest 0]) _ rfl ?_⟩
  iterate 7 refine Lib.always_cons rfl trivial ?_
  refine Lib.always_cons rfl ?_ (Lib.always_cons rfl trivial trivial)
  rintro n i i0 ⟨⟩ _ hi
  exact absurd hi (by decide)

/-- The writer is killed between its two bytes and returns without a wakeup. -/
theorem wakeup_lost_on_kill :
    ∃ s, Lib.run step (init fun _ => 0) (halfWritten ++ [.kill 0, .writeTest 0]) = some s ∧
      s.lock = none ∧ s.ctl 1 = .readAsleep 1 ∧ s.pi.empty = false ∧ ¬ NoLostWakeup s := by
  refine ⟨_, rfl, rfl, rfl, rfl, ?_⟩
  intro h
  exact absurd ((h rfl 1).1 rfl).1 (by decide)

end Xv6.Pipes
