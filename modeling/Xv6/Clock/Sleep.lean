import Mathlib.Algebra.Order.Ring.Nat

/-!
# Waiting for the clock

`sys_sleep` of `kernel/sysproc.c` against `clockintr` of `kernel/trap.c`. The counter `ticks` is a
`uint`, the requested number of ticks an `int`, and C compares their difference with it as a `uint`.
A call is followed through its evaluations of the loop condition; between two of them any number of
clock interrupts can pass.
-/
namespace Xv6.Clock

set_option autoImplicit false

inductive Phase where
  /-- in `sleep(&ticks, &tickslock)` -/
  | asleep
  | returned (r : Int)
  deriving DecidableEq

/-- A call of `sys_sleep` with the argument `n`, which noted `ticks0` when it began. -/
structure State where
  ticks : BitVec 32
  n : BitVec 32
  ticks0 : BitVec 32
  phase : Phase
  deriving DecidableEq

/-- `ticks - ticks0 < n`: the difference is unsigned, so `n` is converted to `uint`. -/
def State.early (s : State) : Bool := (s.ticks - s.ticks0).ult s.n

/-- One evaluation of the loop condition, by a call that has not returned. -/
def State.evaluate (killed : Bool) (s : State) : State :=
  if s.phase = .asleep then
    if s.early then { s with phase := if killed then .returned (-1) else .asleep }
    else { s with phase := .returned 0 }
  else s

/-- `sys_sleep` up to its first evaluation. -/
def sysSleep (killed : Bool) (n ticks : BitVec 32) : State :=
  State.evaluate killed ⟨ticks, n, ticks, .asleep⟩

def clockintr (s : State) : State := { s with ticks := s.ticks + 1 }

inductive Act where
  | clockintr
  | evaluate (killed : Bool)
  deriving DecidableEq

def step (s : State) : Act → State
  | .clockintr => clockintr s
  | .evaluate killed => s.evaluate killed

/-! ## Any order of interrupts and evaluations -/

/-- The clock interrupts among these. -/
def passed (as : List Act) : Nat := as.count .clockintr

/-- `k` interrupts after its start, the call still has its argument and its starting time, the counter
has moved on by `k` modulo `2 ^ 32`, and the call has not returned 0 before its time. -/
structure Since (n t : BitVec 32) (k : Nat) (s : State) : Prop where
  n_eq : s.n = n
  ticks0_eq : s.ticks0 = t
  ticks_eq : s.ticks = t + BitVec.ofNat 32 k
  late : s.phase = .returned 0 → n.toNat ≤ k

variable {n t : BitVec 32} {k : Nat} {s : State}

theorem since_start (n t : BitVec 32) : Since n t 0 ⟨t, n, t, .asleep⟩ :=
  ⟨rfl, rfl, (BitVec.add_zero t).symm, fun h => by cases h⟩

/-- What the unsigned comparison sees of the time that has passed. -/
theorem Since.early_iff (h : Since n t k s) : s.early = true ↔ k % 2 ^ 32 < n.toNat := by
  have hdiff : s.ticks - s.ticks0 = BitVec.ofNat 32 k := by
    rw [h.ticks_eq, h.ticks0_eq, BitVec.add_comm, BitVec.add_sub_cancel]
  rw [State.early, hdiff, h.n_eq, BitVec.ult, decide_eq_true_eq, BitVec.toNat_ofNat]

theorem Since.evaluate (h : Since n t k s) (killed : Bool) : Since n t k (s.evaluate killed) := by
  have hearly := h.early_iff
  obtain ⟨h1, h2, h3, h4⟩ := h
  unfold State.evaluate
  split
  · split
    · refine ⟨h1, h2, h3, fun hr => ?_⟩
      cases killed <;> cases hr
    · rename_i hnot
      have hge := Nat.le_of_not_lt fun hlt => hnot (hearly.mpr hlt)
      exact ⟨h1, h2, h3, fun _ => Nat.le_trans hge (Nat.mod_le k (2 ^ 32))⟩
  · exact ⟨h1, h2, h3, h4⟩

theorem Since.clockintr (h : Since n t k s) : Since n t (k + 1) (clockintr s) where
  n_eq := h.n_eq
  ticks0_eq := h.ticks0_eq
  ticks_eq := by
    change s.ticks + 1 = _
    rw [h.ticks_eq, BitVec.add_assoc, BitVec.ofNat_add]
    rfl
  late hr := Nat.le_succ_of_le (h.late hr)

theorem since_sysSleep (killed : Bool) (n t : BitVec 32) : Since n t 0 (sysSleep killed n t) :=
  (since_start n t).evaluate killed

theorem since_run (as : List Act) (h : Since n t k s) :
    Since n t (k + passed as) (as.foldl step s) := by
  induction as generalizing k s with
  | nil => exact h
  | cons a as ih =>
    cases a with
    | clockintr =>
      have hs := ih h.clockintr
      have hp : passed (.clockintr :: as) = passed as + 1 := by simp [passed]
      rw [hp]
      rwa [Nat.add_right_comm, Nat.add_assoc] at hs
    | evaluate killed =>
      have hp : passed (.evaluate killed :: as) = passed as := by simp [passed]
      rw [hp]
      exact ih (h.evaluate killed)

/-- Whatever the order of interrupts, evaluations and kills, a call does not return 0 before its
argument, read as a `uint`, has been reached. -/
theorem returned_late (killed : Bool) (n t : BitVec 32) (as : List Act)
    (h : (as.foldl step (sysSleep killed n t)).phase = .returned 0) : n.toNat ≤ passed as := by
  have hs := (since_run as (since_sysSleep killed n t)).late h
  omega

theorem returned_late_two : 2 ≤ passed [.clockintr, .evaluate false, .clockintr, .evaluate true] :=
  returned_late false 2 (-1) _ (by decide)

/-! ## An evaluation after every tick -/

/-- A tick, and the evaluation that its wakeup leads to. -/
def turn (s : State) : State := (clockintr s).evaluate false

/-- The call after `k` ticks. -/
def after (n t : BitVec 32) (k : Nat) : State := turn^[k] (sysSleep false n t)

theorem after_succ (n t : BitVec 32) (k : Nat) : after n t (k + 1) = turn (after n t k) :=
  Function.iterate_succ_apply' ..

theorem since_after (n t : BitVec 32) (k : Nat) : Since n t k (after n t k) := by
  induction k with
  | zero => exact since_sysSleep false n t
  | succ k ih =>
    rw [after_succ]
    exact ih.clockintr.evaluate false

theorem evaluate_returned {r : Int} (h : s.phase = .returned r) (killed : Bool) :
    (s.evaluate killed).phase = .returned r := by
  simp [State.evaluate, h]

theorem evaluate_asleep (h : s.phase = .asleep) :
    (s.evaluate false).phase = if s.early then .asleep else .returned 0 := by
  unfold State.evaluate
  rw [if_pos h]
  split <;> simp

/-- The call of a sleeper that looks after every tick returns when the unsigned comparison first
fails, and no later tick changes that. -/
theorem phase_after (n t : BitVec 32) (k : Nat) :
    (after n t k).phase = if k < n.toNat then .asleep else .returned 0 := by
  induction k with
  | zero =>
    have he := (since_start n t).early_iff
    rw [after, Function.iterate_zero, id, sysSleep, evaluate_asleep rfl]
    simp only [he, Nat.zero_mod]
  | succ k ih =>
    have he := (since_after n t k).clockintr.early_iff
    have hn := n.isLt
    rw [after_succ, turn]
    by_cases hk : k < n.toNat
    · have hphase : (clockintr (after n t k)).phase = .asleep := by
        rw [if_pos hk] at ih
        exact ih
      rw [evaluate_asleep hphase]
      simp only [he, Nat.mod_eq_of_lt (show k + 1 < 2 ^ 32 by omega)]
    · have hphase : (clockintr (after n t k)).phase = .returned 0 := by
        rw [if_neg hk] at ih
        exact ih
      rw [evaluate_returned hphase, if_neg (by omega)]

/-- `sys_sleep` returns 0 at the first evaluation at which `n` ticks have passed, for every starting
value of the counter, exactly if `n` is not negative. -/
theorem sleep_waits_iff (n t : BitVec 32) :
    (∀ k : Nat, (after n t k).phase = if n.toInt ≤ k then .returned 0 else .asleep) ↔
      0 ≤ n.toInt := by
  have hint := BitVec.toInt_eq_toNat_cond n
  have hlt := n.isLt
  simp only [phase_after]
  constructor
  · intro h
    -- A negative argument is at most zero, yet the first evaluation goes to sleep.
    by_contra hneg
    have h0 := h 0
    rw [if_pos (by omega), if_pos (by omega)] at h0
    cases h0
  · intro h k
    have hn : n.toInt = n.toNat := by omega
    by_cases hk : k < n.toNat
    · rw [if_pos hk, if_neg (by omega)]
    · rw [if_neg hk, if_pos (by omega)]

/-- `sleep(-1)` is still asleep after the first evaluation, and after three ticks. -/
theorem sleep_negative :
    (BitVec.ofInt 32 (-1)).toInt = -1 ∧ (after (BitVec.ofInt 32 (-1)) 0 0).phase = .asleep ∧
      (after (BitVec.ofInt 32 (-1)) 0 3).phase = .asleep := by
  decide

end Xv6.Clock
