import Xv6.Log.Capacity

/-!
# Admission to the log

`begin_op` puts a process to sleep while a commit runs or while the log might not
have room for one more operation. Whatever makes its test pass again, an `end_op`
or the end of a commit, also wakes every sleeper, so nobody sleeps past it.
-/
namespace Xv6.Log

open Function

set_option autoImplicit false

open Xv6.Lib (run run_invariant)

variable {c : Conf} {d0 : Nat → Block}

/-- The rest of what holds between the critical sections of `log.lock`. -/
structure Queue (s : Sys) : Prop where
  empty : s.mode = .running → s.outstanding = 0 → s.committing = false → s.lh = []
  asleep : ∀ p, s.ctl p = .asleep → ¬ admits s
  commit : s.committing = true → ∃ p ph, s.ctl p = .commit ph
  calm : s.panicked ≠ some .committing ∧ s.panicked ≠ some .outsideTrans

theorem asleep_wakeup (s : Sys) (p : Pid) : s.wakeup.ctl p ≠ .asleep := by
  unfold Sys.wakeup
  dsimp only
  split
  · rintro ⟨⟩
  · assumption

theorem asleep_update {ctl : Pid → Ctl} {p q : Pid} {k : Ctl} (hk : k ≠ .asleep)
    (h : update ctl p k q = .asleep) : ctl q = .asleep := by
  by_cases hq : q = p
  · subst hq
    rw [update_self] at h
    exact absurd h hk
  · rw [update_of_ne hq] at h
    exact h

/-- A test that fails keeps failing while the log only fills up. -/
theorem admits_mono {s s' : Sys} (hc : s'.committing = s.committing)
    (hlh : s.lh.length ≤ s'.lh.length) (ho : s.outstanding ≤ s'.outstanding) (h : admits s') :
    admits s := by
  have hroom := h.2
  have hmul := Nat.mul_le_mul_right MAXOPBLOCKS (Nat.succ_le_succ ho)
  refine ⟨hc ▸ h.1, ?_⟩
  simp only [Nat.succ_eq_add_one] at hmul
  omega

theorem queue_beginOp {s : Sys} (hq : Queue s) {p : Pid} (hp : s.ctl p = .idle ∨ s.ctl p = .woken) :
    Queue (beginOp s p) := by
  -- the caller is not the process that commits
  have hcommit : ∀ k q ph, s.ctl q = .commit ph → update s.ctl p k q = .commit ph := by
    intro k q ph hph
    have hqp : q ≠ p := by
      rintro rfl
      rcases hp with hp | hp <;> rw [hp] at hph <;> cases hph
    rw [update_of_ne hqp]
    exact hph
  by_cases h : admits s
  · rw [beginOp, if_pos h]
    constructor
    · intro _ ho
      exact absurd ho (Nat.succ_ne_zero _)
    · intro q hasleep ha
      have hold : s.ctl q = .asleep := asleep_update (by rintro ⟨⟩) hasleep
      apply hq.asleep q hold
      apply admits_mono _ _ _ ha
      · rfl
      · exact Nat.le_refl _
      · exact Nat.le_succ _
    · intro hc
      obtain ⟨q, ph, hph⟩ := hq.commit hc
      exact ⟨q, ph, hcommit _ q ph hph⟩
    · exact hq.calm
  · rw [beginOp, if_neg h]
    constructor
    · exact hq.empty
    · intro _ _
      exact h
    · intro hc
      obtain ⟨q, ph, hph⟩ := hq.commit hc
      exact ⟨q, ph, hcommit _ q ph hph⟩
    · exact hq.calm

theorem queue_logWrite {s : Sys} (hi : Inv c d0 s) (hq : Queue s) {p : Pid} {i : Nat}
    {bl : List Nat} (hp : s.ctl p = .inOp i bl) (b : Nat) (x : Block) :
    Queue (logWrite c s p i bl b x) := by
  have hm := hi.mode_running (p := p) (by rw [hp]; rintro ⟨⟩)
  obtain ⟨hnc, hpos⟩ := (hi.running hm).not_committing hp
  obtain ⟨-, he⟩ | ⟨-, ⟨hout, he⟩ | h⟩ := logWrite_cases c s p i bl b x
  · rw [he]
    exact ⟨hq.empty, hq.asleep, hq.commit, by constructor <;> rintro ⟨⟩⟩
  · omega
  · obtain ⟨blocks, hctl⟩ := h.ctl
    constructor
    · intro _ ho
      rw [h.outstanding] at ho
      omega
    · intro q hasleep ha
      rw [hctl] at hasleep
      apply hq.asleep q (asleep_update (by rintro ⟨⟩) hasleep)
      apply admits_mono h.committing _ _ ha
      · rw [h.lh]
        split
        · exact Nat.le_refl _
        · rw [List.length_append]
          exact Nat.le_add_right _ _
      · rw [h.outstanding]
    · intro hc
      rw [h.committing, hnc] at hc
      cases hc
    · rw [h.panicked]
      exact hq.calm

theorem queue_endOp {s : Sys} (hi : Inv c d0 s) (hq : Queue s) {p : Pid} {i : Nat}
    {bl : List Nat} (hp : s.ctl p = .inOp i bl) : Queue (endOp s p) := by
  have hm := hi.mode_running (p := p) (by rw [hp]; rintro ⟨⟩)
  obtain ⟨hnc, -⟩ := (hi.running hm).not_committing hp
  unfold endOp
  dsimp only
  rw [if_neg (by rw [hnc]; decide)]
  split
  · -- the last operation starts the commit, which closes the log
    constructor
    · rintro - - ⟨⟩
    · rintro q - ⟨hc, -⟩
      cases hc
    · intro _
      exact ⟨p, _, update_self ..⟩
    · exact hq.calm
  · rename_i hleft
    constructor
    · intro _ ho
      exact absurd ho hleft
    · intro q hasleep
      exact absurd hasleep (asleep_wakeup _ q)
    · intro hc
      have hold : s.committing = true := hc
      rw [hnc] at hold
      cases hold
    · exact hq.calm

theorem queue_commitStep {s : Sys} (hi : Inv c d0 s) (hq : Queue s) {p : Pid} {ph : Phase}
    (hp : s.ctl p = .commit ph) : Queue (commitStep c s p ph) := by
  have hm := hi.mode_running (p := p) (by rw [hp]; rintro ⟨⟩)
  have hr := hi.running hm
  have hc : s.committing = true := hr.flag p ph hp
  -- all phases but the last leave `log.committing` set
  have hclosed : ∀ s' : Sys, s'.committing = true → s'.panicked = s.panicked →
      (∃ q ph', s'.ctl q = .commit ph') → Queue s' := by
    intro s' hc' hpan hcom
    constructor
    · intro _ _ h
      rw [hc'] at h
      cases h
    · rintro q - ⟨h, -⟩
      rw [hc'] at h
      cases h
    · exact fun _ => hcom
    · rw [hpan]
      exact hq.calm
  cases ph with
  | writeLog t =>
    rw [commitStep]
    split
    · exact hclosed _ hc rfl ⟨p, _, update_self ..⟩
    · exact hclosed _ hc rfl ⟨p, _, update_self ..⟩
  | install t =>
    rw [commitStep]
    split
    · exact hclosed _ hc rfl ⟨p, _, update_self ..⟩
    · exact hclosed _ hc rfl ⟨p, _, update_self ..⟩
  | finish =>
    constructor
    · intro _ _ _
      exact (hr.progress p _ hp).2
    · intro q hasleep
      exact absurd hasleep (asleep_wakeup (s.goto p .idle) q)
    · rintro ⟨⟩
    · exact hq.calm

theorem queue_moves {s s' : Sys} {a : Act} (hi : Inv c d0 s) (hq : Queue s)
    (h : Moves c s a s') : Queue s' := by
  cases h with
  | beginOp p _ h => exact queue_beginOp hq h
  | logWrite p b x i bl h _ _ _ => exact queue_logWrite hi hq h b x
  | endOp p i bl h => exact queue_endOp hi hq h
  | commitStep p ph h => exact queue_commitStep hi hq h
  | load b => exact ⟨hq.empty, hq.asleep, hq.commit, hq.calm⟩
  | evict b _ => exact ⟨hq.empty, hq.asleep, hq.commit, hq.calm⟩
  | crash => exact ⟨by rintro ⟨⟩, by rintro p ⟨⟩, by rintro ⟨⟩, by constructor <;> rintro ⟨⟩⟩
  | recoverStep tail hmode =>
    have hb := hi.rebooting tail hmode
    have hasleep : ∀ p, s.ctl p ≠ .asleep := by
      intro p hp
      rw [hb.idle p] at hp
      cases hp
    cases tail with
    | none => exact ⟨by rintro ⟨⟩, fun p hp => absurd hp (hasleep p), hq.commit, hq.calm⟩
    | some t =>
      rw [recoverStep]
      split
      · exact ⟨by rintro ⟨⟩, fun p hp => absurd hp (hasleep p), hq.commit, hq.calm⟩
      · exact ⟨fun _ _ _ => rfl, fun p hp => absurd hp (hasleep p), hq.commit, hq.calm⟩

theorem queue_run (h : Clean c d0) {as : List Act} {s : Sys}
    (hrun : run (step c) (init d0) as = some s) : Inv c d0 s ∧ Queue s := by
  apply run_invariant (I := fun s => Inv c d0 s ∧ Queue s) _ _ hrun
  · rintro s a s' ⟨hi, hq⟩ hs
    have hmoves := moves_of_step hs
    exact ⟨inv_moves hi hmoves, queue_moves hi hq hmoves⟩
  · refine ⟨inv_init h, fun _ _ _ => rfl, ?_, ?_, ?_⟩
    · rintro p ⟨⟩
    · rintro ⟨⟩
    · constructor <;> rintro ⟨⟩

/-- Who will wake a process that is asleep in `begin_op`. -/
theorem sleeper_has_waker {s : Sys} (hi : Inv c d0 s) (hq : Queue s) {p : Pid}
    (hp : s.ctl p = .asleep) :
    ∃ q, (∃ i bl, s.ctl q = .inOp i bl) ∨ ∃ ph, s.ctl q = .commit ph := by
  have hm := hi.mode_running (p := p) (by rw [hp]; rintro ⟨⟩)
  have hr := hi.running hm
  cases hc : s.committing with
  | true =>
    obtain ⟨q, ph, hph⟩ := hq.commit hc
    exact ⟨q, .inr ⟨ph, hph⟩⟩
  | false =>
    -- an empty log with nobody inside would let the sleeper in
    have hpos : s.outstanding ≠ 0 := by
      intro ho
      apply hq.asleep p hp
      refine ⟨hc, ?_⟩
      rw [hq.empty hm ho hc, ho]
      decide
    obtain ⟨S, hS, hcard⟩ := hr.count
    obtain ⟨q, hqS⟩ : S.Nonempty := Finset.card_pos.mp (by omega)
    refine ⟨q, .inl ?_⟩
    have hop := (hS q).mp hqS
    cases hctl : s.ctl q with
    | inOp i bl => exact ⟨i, bl, rfl⟩
    | idle => rw [hctl] at hop; cases hop
    | asleep => rw [hctl] at hop; cases hop
    | woken => rw [hctl] at hop; cases hop
    | commit ph => rw [hctl] at hop; cases hop

/-- Between the critical sections of `log.lock`: a commit has the log to itself, an
idle log is empty, and a process sleeps in `begin_op` only while its test fails and
somebody is there to wake it. -/
theorem admission (c : Conf) (d0 : Nat → Block) (h : Clean c d0) {as : List Act} {s : Sys}
    (hrun : run (step c) (init d0) as = some s) :
    (s.committing = true → s.outstanding = 0) ∧
      (s.mode = .running → s.outstanding = 0 → s.committing = false → s.lh = []) ∧
      (∀ p b x s', step c s (.logWrite p b x) = some s' →
        s.committing = false ∧ ∀ q ph, s.ctl q ≠ .commit ph) ∧
      s.panicked ≠ some .committing ∧
      ∀ p, s.ctl p = .asleep → ¬ admits s ∧
        ∃ q, (∃ i bl, s.ctl q = .inOp i bl) ∨ ∃ ph, s.ctl q = .commit ph := by
  obtain ⟨hi, hq⟩ := queue_run h hrun
  refine ⟨?_, hq.empty, ?_, hq.calm.1, ?_⟩
  · intro hc
    cases hm : s.mode with
    | running => exact (hi.running hm).excl hc
    | recovering tail => exact (hi.rebooting tail hm).quiet.2.1
  · intro p b x s' hs
    cases moves_of_step hs with
    | logWrite _ _ _ i bl hp _ _ _ =>
      have hr := hi.running (hi.mode_running (p := p) (by rw [hp]; rintro ⟨⟩))
      have hnc := (hr.not_committing hp).1
      exact ⟨hnc, hr.no_commit hnc⟩
  · intro p hp
    exact ⟨hq.asleep p hp, sleeper_has_waker hi hq hp⟩

def fourOps : List Act := [.beginOp 0, .beginOp 1, .beginOp 2, .beginOp 3]

/-- Three operations fill the log, and the fourth sleeps. -/
theorem admission_fourth :
    ∃ s, run (step mkfsConf) (init fun _ _ => 0) fourOps = some s ∧ s.ctl 3 = .asleep ∧
      ¬ admits s := by
  have hclean : Clean mkfsConf fun _ _ => 0 := by decide
  refine ⟨_, rfl, rfl, ?_⟩
  have hrun : run (step mkfsConf) (init fun _ _ => 0) fourOps = some _ := rfl
  exact ((admission mkfsConf _ hclean hrun).2.2.2.2 3 rfl).1

end Xv6.Log
