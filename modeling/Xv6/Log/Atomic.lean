import Xv6.Log.Crash
import Mathlib.Data.List.Pairwise

/-!
# Committed groups and operations

The run lemma of the crash invariant, and the bookkeeping of operations: an
operation's writes are never split over two groups, because a group is closed only
while no operation is in progress.
-/
namespace Xv6.Log

open Function

set_option autoImplicit false

open Xv6.Lib (run run_invariant run_snoc_some run_cons_some)

variable {c : Conf} {d0 : Nat → Block}

/-- Only a running system has processes inside the log layer. -/
theorem Inv.mode_running {s : Sys} (hi : Inv c d0 s) {p : Pid} (hp : s.ctl p ≠ .idle) :
    s.mode = .running := by
  cases hm : s.mode with
  | running => rfl
  | recovering tail => exact absurd ((hi.rebooting tail hm).idle p) hp

theorem inv_moves {s s' : Sys} {a : Act} (hi : Inv c d0 s) (h : Moves c s a s') : Inv c d0 s' := by
  cases h with
  | beginOp p hm h => exact inv_beginOp hi hm h
  | logWrite p b x i bl h _ hb hl =>
    exact inv_logWrite hi (hi.mode_running (by rw [h]; rintro ⟨⟩)) h hb hl x
  | endOp p i bl h => exact inv_endOp hi (hi.mode_running (by rw [h]; rintro ⟨⟩)) h
  | commitStep p ph h => exact inv_commitStep hi (hi.mode_running (by rw [h]; rintro ⟨⟩)) h
  | load b => exact inv_load hi b
  | evict b h => exact inv_evict hi h
  | crash => exact inv_crash hi
  | recoverStep tail h => exact inv_recoverStep hi h

/-- The header on disk says that nothing is logged. -/
def Clean (c : Conf) (disk : Nat → Block) : Prop := (disk c.start).get 0 4 = 0

instance (disk : Nat → Block) : Decidable (Clean c disk) := inferInstanceAs (Decidable (_ = _))

theorem getHeader_clean (h : Clean c d0) : getHeader (d0 c.start) = [] := by
  unfold getHeader
  rw [h]
  rfl

theorem inv_init (h : Clean c d0) : Inv c d0 (init d0) := by
  have hn := getHeader_clean h
  refine ⟨⟨?_, ?_, ?_, fun _ _ _ => rfl⟩, fun _ _ => rfl, fun _ => ?_, by rintro tail ⟨⟩⟩
  · change (getHeader (d0 c.start)).length < c.size
    rw [hn]
    exact c.pos
  · change ∀ b ∈ getHeader (d0 c.start), _
    rw [hn]
    intro b hb
    exact absurd hb List.not_mem_nil
  · change ∀ i, i < (getHeader (d0 c.start)).length → _
    rw [hn]
    intro i hi
    exact absurd hi (Nat.not_lt_zero i)
  · have hopen : Open c d0 (init d0) :=
      ⟨hn, fun _ => rfl, fun w hw => absurd hw List.not_mem_nil, fun _ _ => rfl⟩
    refine ⟨List.nodup_nil, ?_, Nat.zero_le _, c.pos, ?_, ?_, ?_, fun _ => hopen, ?_, fun _ => rfl⟩
    · intro b hb; exact absurd hb List.not_mem_nil
    · rintro p ph ⟨⟩
    · rintro p q ph ph' ⟨⟩
    · rintro p ph ⟨⟩
    · exact ⟨∅, fun p => by simp [init, Ctl.isOp], rfl⟩

theorem inv_run (h : Clean c d0) {as : List Act} {s : Sys}
    (hrun : run (step c) (init d0) as = some s) : Inv c d0 s :=
  run_invariant (fun _ _ _ hi hs => inv_moves hi (moves_of_step hs)) (inv_init h) hrun

/-! ## Operations and groups -/

/-- No operation has writes on both sides. -/
def Apart (g h : List Write) : Prop := ∀ w ∈ g, ∀ v ∈ h, w.inst ≠ v.inst

theorem apart_symm : Std.Symm Apart := ⟨fun _ _ h w hw v hv he => h v hv w hw he.symm⟩

/-- Every group of writes there has been: committed, lost in a crash, or still open. -/
def Sys.allGroups (s : Sys) : List (List Write) := s.current :: (s.groups ++ s.dropped)

structure Insts (s : Sys) : Prop where
  active : ∀ p i bl, s.ctl p = .inOp i bl → i < s.inst
  known : ∀ g ∈ s.allGroups, ∀ w ∈ g, w.inst < s.inst
  past : ∀ g ∈ s.groups ++ s.dropped, ∀ w ∈ g, ∀ p bl, s.ctl p ≠ .inOp w.inst bl
  apart : s.allGroups.Pairwise Apart

/-- Steps that start no operation and touch no group. -/
theorem Insts.mono {s s' : Sys} (hi : Insts s) (hinst : s'.inst = s.inst)
    (hcur : s'.current = s.current) (hg : s'.groups = s.groups) (hd : s'.dropped = s.dropped)
    (hctl : ∀ p i bl, s'.ctl p = .inOp i bl → ∃ bl', s.ctl p = .inOp i bl') : Insts s' := by
  have hall : s'.allGroups = s.allGroups := by unfold Sys.allGroups; rw [hcur, hg, hd]
  refine ⟨?_, ?_, ?_, ?_⟩
  · intro p i bl hp
    obtain ⟨bl', hp'⟩ := hctl p i bl hp
    rw [hinst]
    exact hi.active p i bl' hp'
  · rw [hall, hinst]; exact hi.known
  · rw [hg, hd]
    intro g hg' w hw p bl hp
    obtain ⟨bl', hp'⟩ := hctl p _ bl hp
    exact hi.past g hg' w hw p bl' hp'
  · rw [hall]; exact hi.apart

theorem op_update {ctl : Pid → Ctl} {p q : Pid} {k : Ctl} {i : Nat} {bl : List Nat}
    (hk : k.isOp = false) (h : update ctl p k q = .inOp i bl) : ctl q = .inOp i bl := by
  by_cases hq : q = p
  · subst hq; rw [update_self] at h; rw [h] at hk; cases hk
  · rwa [update_of_ne hq] at h

theorem op_wakeup {s : Sys} {p : Pid} {i : Nat} {bl : List Nat} (h : s.wakeup.ctl p = .inOp i bl) :
    s.ctl p = .inOp i bl := by
  unfold Sys.wakeup at h
  dsimp only at h
  split at h
  · cases h
  · exact h

theorem insts_beginOp {s : Sys} (hi : Insts s) (p : Pid) : Insts (beginOp s p) := by
  unfold beginOp
  split
  · have hcases : ∀ q i bl, update s.ctl p (.inOp s.inst []) q = .inOp i bl →
        i = s.inst ∨ s.ctl q = .inOp i bl := by
      intro q i bl h
      by_cases hq : q = p
      · subst hq; rw [update_self] at h; cases h; exact .inl rfl
      · rw [update_of_ne hq] at h; exact .inr h
    refine ⟨?_, ?_, ?_, hi.apart⟩
    · intro q i bl h
      rcases hcases q i bl h with rfl | h'
      · exact Nat.lt_succ_self _
      · exact Nat.lt_succ_of_lt (hi.active q i bl h')
    · intro g hg w hw
      exact Nat.lt_succ_of_lt (hi.known g hg w hw)
    · intro g hg w hw q bl h
      rcases hcases q _ bl h with he | h'
      · exact absurd he (Nat.ne_of_lt (hi.known g (List.mem_cons_of_mem _ hg) w hw))
      · exact hi.past g hg w hw q bl h'
  · exact hi.mono rfl rfl rfl rfl fun q i bl h => ⟨bl, op_update rfl h⟩

theorem insts_logWrite {s : Sys} (hi : Insts s) {p : Pid} {i : Nat} {bl : List Nat}
    (hp : s.ctl p = .inOp i bl) (b : Nat) (x : Block) : Insts (logWrite c s p i bl b x) := by
  obtain ⟨-, he⟩ | ⟨-, ⟨-, he⟩ | h⟩ := logWrite_cases c s p i bl b x
  · rw [he]; exact hi.mono rfl rfl rfl rfl fun q j bl' h => ⟨bl', h⟩
  · rw [he]; exact hi.mono rfl rfl rfl rfl fun q j bl' h => ⟨bl', h⟩
  generalize logWrite c s p i bl b x = t at h
  obtain ⟨bl', hctl⟩ := h.ctl
  have hcases : ∀ q j bl₁, t.ctl q = .inOp j bl₁ → ∃ bl₂, s.ctl q = .inOp j bl₂ := by
    intro q j bl₁ hq
    rw [hctl] at hq
    by_cases hqp : q = p
    · subst hqp; rw [update_self] at hq; cases hq; exact ⟨bl, hp⟩
    · rw [update_of_ne hqp] at hq; exact ⟨bl₁, hq⟩
  have hall : t.allGroups = (s.current ++ [⟨i, b, x⟩]) :: (s.groups ++ s.dropped) := by
    unfold Sys.allGroups; rw [h.current, h.groups, h.dropped]
  refine ⟨?_, ?_, ?_, ?_⟩
  · intro q j bl₁ hq
    obtain ⟨bl₂, hq'⟩ := hcases q j bl₁ hq
    rw [h.inst]
    exact hi.active q j bl₂ hq'
  · rw [hall, h.inst]
    intro g hg w hw
    rcases List.mem_cons.mp hg with rfl | hold
    · rcases List.mem_append.mp hw with hw | hw
      · exact hi.known _ List.mem_cons_self w hw
      · rw [List.mem_singleton.mp hw]; exact hi.active p i bl hp
    · exact hi.known g (List.mem_cons_of_mem _ hold) w hw
  · rw [h.groups, h.dropped]
    intro g hg w hw q bl₁ hq
    obtain ⟨bl₂, hq'⟩ := hcases q _ bl₁ hq
    exact hi.past g hg w hw q bl₂ hq'
  · rw [hall]
    obtain ⟨hhead, htail⟩ := List.pairwise_cons.mp hi.apart
    refine List.pairwise_cons.mpr ⟨?_, htail⟩
    intro g hg w hw v hv
    rcases List.mem_append.mp hw with hw | hw
    · exact hhead g hg w hw v hv
    · -- the writer is still inside its operation, so no closed group has its writes
      rw [List.mem_singleton.mp hw]
      rintro rfl
      exact hi.past g hg v hv p bl hp

theorem insts_endOp {s : Sys} (hi : Insts s) (p : Pid) : Insts (endOp s p) := by
  unfold endOp
  dsimp only
  split
  · exact hi.mono rfl rfl rfl rfl fun q i bl h => ⟨bl, h⟩
  · split
    · exact hi.mono rfl rfl rfl rfl fun q i bl h => ⟨bl, op_update rfl h⟩
    · exact hi.mono rfl rfl rfl rfl fun q i bl h => ⟨bl, op_update rfl (op_wakeup h)⟩

/-- Close the current group, with nobody inside an operation. -/
theorem Insts.close {s s' : Sys} (hi : Insts s) (hinst : s'.inst = s.inst) (hcur : s'.current = [])
    (hperm : (s'.groups ++ s'.dropped).Perm s.allGroups)
    (hctl : ∀ p i bl, s'.ctl p ≠ .inOp i bl) : Insts s' := by
  refine ⟨?_, ?_, ?_, ?_⟩
  · intro p i bl h; exact absurd h (hctl p i bl)
  · intro g hg w hw
    rw [hinst]
    rcases List.mem_cons.mp hg with rfl | hold
    · rw [hcur] at hw; exact absurd hw List.not_mem_nil
    · exact hi.known g (hperm.mem_iff.mp hold) w hw
  · intro g _ w _ p bl; exact hctl p _ bl
  · refine List.pairwise_cons.mpr ⟨?_, (hperm.pairwise_iff fun h => apart_symm.symm _ _ h).mpr hi.apart⟩
    rw [hcur]
    intro g _ w hw
    exact absurd hw List.not_mem_nil

theorem insts_commitStep {s : Sys} (hv : Inv c d0 s) (hi : Insts s) {p : Pid} {ph : Phase}
    (hp : s.ctl p = .commit ph) : Insts (commitStep c s p ph) := by
  have hr := hv.running (hv.mode_running (by rw [hp]; rintro ⟨⟩))
  cases ph with
  | writeLog t =>
    rw [commitStep]
    split
    · exact hi.mono rfl rfl rfl rfl fun q i bl h => ⟨bl, op_update rfl h⟩
    · refine hi.close rfl rfl ?_ fun q i bl h => ?_
      · change ((s.groups ++ [s.current]) ++ s.dropped).Perm (s.current :: (s.groups ++ s.dropped))
        rw [List.append_assoc]
        exact List.perm_middle
      · exact hr.no_op (hr.excl (hr.flag p _ hp)) q i bl (op_update rfl h)
  | install t =>
    rw [commitStep]
    split
    · exact hi.mono rfl rfl rfl rfl fun q i bl h => ⟨bl, op_update rfl h⟩
    · exact hi.mono rfl rfl rfl rfl fun q i bl h => ⟨bl, op_update rfl h⟩
  | finish => exact hi.mono rfl rfl rfl rfl fun q i bl h => ⟨bl, op_update rfl (op_wakeup h)⟩

theorem insts_crash {s : Sys} (hi : Insts s) : Insts (crash s) := by
  refine hi.close rfl rfl ?_ (by rintro p i bl ⟨⟩)
  change (s.groups ++ (s.dropped ++ [s.current])).Perm (s.current :: (s.groups ++ s.dropped))
  rw [← List.append_assoc]
  exact List.perm_append_singleton _ _

theorem insts_recoverStep {s : Sys} (hi : Insts s) (tail : Option Nat) :
    Insts (recoverStep c s tail) := by
  cases tail with
  | none => exact hi.mono rfl rfl rfl rfl fun q i bl h => ⟨bl, h⟩
  | some t =>
    rw [recoverStep]
    split <;> exact hi.mono rfl rfl rfl rfl fun q i bl h => ⟨bl, h⟩

theorem insts_moves {s s' : Sys} {a : Act} (hv : Inv c d0 s) (hi : Insts s) (h : Moves c s a s') :
    Insts s' := by
  cases h with
  | beginOp p _ _ => exact insts_beginOp hi p
  | logWrite p b x i bl h _ _ _ => exact insts_logWrite hi h b x
  | endOp p i bl h => exact insts_endOp hi p
  | commitStep p ph h => exact insts_commitStep hv hi h
  | load b => exact hi.mono rfl rfl rfl rfl fun q i bl h => ⟨bl, h⟩
  | evict b h => exact hi.mono rfl rfl rfl rfl fun q i bl h => ⟨bl, h⟩
  | crash => exact insts_crash hi
  | recoverStep tail h => exact insts_recoverStep hi tail

theorem insts_init : Insts (init d0) := by
  refine ⟨by rintro p i bl ⟨⟩, ?_, ?_, List.pairwise_singleton _ _⟩
  · intro g hg w hw
    rw [List.mem_singleton.mp hg] at hw
    exact absurd hw List.not_mem_nil
  · intro g hg
    exact absurd hg List.not_mem_nil

theorem insts_run (h : Clean c d0) {as : List Act} {s : Sys}
    (hrun : run (step c) (init d0) as = some s) : Insts s :=
  (run_invariant (I := fun s => Inv c d0 s ∧ Insts s)
    (fun _ _ _ hi hs => ⟨inv_moves hi.1 (moves_of_step hs), insts_moves hi.1 hi.2 (moves_of_step hs)⟩)
    ⟨inv_init h, insts_init⟩ hrun).2

/-! ## Recovery -/

/-- The step that ends a recovery leaves an empty header. -/
theorem header_recovered {s s' : Sys} {tail : Option Nat} (h : s' = recoverStep c s tail)
    (hm : s'.mode = .running) : getHeader (s'.disk c.start) = [] := by
  subst h
  cases tail with
  | none => cases hm
  | some t =>
    rw [recoverStep] at hm ⊢
    split at hm
    · cases hm
    · rw [if_neg ‹_›]
      change getHeader (update s.disk c.start (putHeader (s.view c.start) []) c.start) = []
      rw [update_self]
      exact getHeader_erase _

/-- Left alone, a recovery ends. -/
theorem recovery_ends (s : Sys) (tail : Option Nat) (hm : s.mode = .recovering tail) :
    ∃ n s', run (step c) s (List.replicate n .recoverStep) = some s' ∧ s'.mode = .running := by
  -- from `tail` copied blocks, by induction on the blocks that remain
  have copy : ∀ k (s : Sys) t, s.mode = .recovering (some t) → s.lh.length - t = k →
      ∃ n s', run (step c) s (List.replicate n .recoverStep) = some s' ∧ s'.mode = .running := by
    intro k
    induction k with
    | zero =>
      intro s t hm hk
      refine ⟨1, { eraseHead c s with mode := .running }, ?_, rfl⟩
      refine run_cons_some.mpr ⟨_, ?_, rfl⟩
      rw [step, hm]
      dsimp only
      rw [recoverStep, if_neg (by omega)]
    | succ k ih =>
      intro s t hm hk
      obtain ⟨n, s', hrun, hm'⟩ :=
        ih { installBlock c s true t with mode := .recovering (some (t + 1)) } (t + 1) rfl
          (by change s.lh.length - (t + 1) = k; omega)
      refine ⟨n + 1, s', run_cons_some.mpr ⟨_, ?_, hrun⟩, hm'⟩
      rw [step, hm]
      dsimp only
      rw [recoverStep, if_pos (by omega)]
  cases tail with
  | some t => exact copy _ s t hm rfl
  | none =>
    obtain ⟨n, s', hrun, hm'⟩ := copy _ { readHead c s with mode := .recovering (some 0) } 0 rfl rfl
    refine ⟨n + 1, s', run_cons_some.mpr ⟨_, ?_, hrun⟩, hm'⟩
    rw [step, hm]
    rfl

/-- Whenever `recover_from_log` completes, the home blocks hold exactly the groups
whose header was written, in order; and the writes of an operation are all in one
group. -/
theorem recovered_eq_committed (c : Conf) (d0 : Nat → Block) (h : Clean c d0) {as : List Act}
    {s : Sys} (hrun : run (step c) (init d0) (as ++ [.recoverStep]) = some s)
    (hm : s.mode = .running) :
    (∀ b, ¬ c.inLog b → s.disk b = applyWrites s.groups.flatten d0 b) ∧
      s.allGroups.Pairwise Apart := by
  obtain ⟨t, -, hstep⟩ := run_snoc_some.mp hrun
  have hi := inv_run h hrun
  refine ⟨fun b hb => ?_, (insts_run h hrun).apart⟩
  have hempty : getHeader (s.disk c.start) = [] := by
    cases moves_of_step hstep with
    | recoverStep tail _ => exact header_recovered rfl hm
  exact hi.consistent.rest b hb (by rw [hempty]; exact List.not_mem_nil)

/-- One operation; the machine stops right after its commit point and once more
while the block is copied home. -/
def crashTwice : List Act :=
  [.beginOp 0, .logWrite 0 50 (fun _ => 7), .endOp 0, .commitStep 0, .commitStep 0, .crash,
    .recoverStep, .recoverStep, .crash, .recoverStep, .recoverStep]

theorem recovered_eq_committed_crashTwice : ∃ s,
    run (step mkfsConf) (init fun _ _ => 0) (crashTwice ++ [.recoverStep]) = some s ∧
      s.mode = .running ∧ s.disk 50 = fun _ => 7 := by
  obtain ⟨s, hrun, hm, hg⟩ : ∃ s,
      run (step mkfsConf) (init fun _ _ => 0) (crashTwice ++ [.recoverStep]) = some s ∧
      s.mode = .running ∧ s.groups = [[⟨0, 50, fun _ => 7⟩]] := ⟨_, rfl, rfl, rfl⟩
  refine ⟨s, hrun, hm, ?_⟩
  have hclean : Clean mkfsConf fun _ _ => 0 := by decide
  rw [(recovered_eq_committed mkfsConf _ hclean hrun hm).1 50 (by decide), hg]
  rfl

/-- What the callers of the log read: up to the commit point the buffers show the writes of the
current group over the committed ones, and each block written is listed once and pinned. -/
theorem buffers_show_writes (h : Clean c d0) {as : List Act} {s : Sys}
    (hrun : run (step c) (init d0) as = some s) (hm : s.mode = .running)
    (hno : ∀ p t, s.ctl p ≠ .commit (.install t)) :
    (∀ b, ¬c.inLog b → s.view b = applyWrites (s.groups.flatten ++ s.current) d0 b) ∧
      s.lh.Nodup ∧ (∀ w ∈ s.current, w.block ∈ s.lh) ∧ ∀ b, s.pin b = if b ∈ s.lh then 1 else 0 := by
  have hr := (inv_run h hrun).running hm
  have ho : Open c d0 s := by
    by_contra hne
    refine hne (hr.calm fun p ph hp => ?_)
    cases ph with
    | install t => exact hno p t hp
    | _ => exact hne (hr.progress p _ hp).1
  refine ⟨fun b hb => ?_, hr.nodup, ho.blocks, ho.pins⟩
  rw [applyWrites_append]
  exact ho.view b hb

theorem buffers_show_writes_first : ∃ s,
    run (step mkfsConf) (init fun _ _ => 0) (crashTwice.take 2) = some s ∧
      s.view 50 = applyWrites (s.groups.flatten ++ s.current) (fun _ _ => 0) 50 := by
  have hclean : Clean mkfsConf fun _ _ => 0 := by decide
  have hrun : run (step mkfsConf) (init fun _ _ => 0) (crashTwice.take 2) = some _ := rfl
  refine ⟨_, hrun, (buffers_show_writes hclean hrun rfl fun p t h => ?_).1 50 (by decide)⟩
  cases p <;> cases h

end Xv6.Log
