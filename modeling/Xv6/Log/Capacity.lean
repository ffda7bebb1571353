import Xv6.Log.Atomic

/-!
# Capacity of the log

`begin_op` reserves `MAXOPBLOCKS` of `LOGSIZE` blocks for each operation, but a log
of `LOGSIZE` blocks has one block less to log into, and `log_write` tests for room
before it looks for the block in the header. The in-memory header lists exactly
the blocks logged since the last commit, so the panic is a matter of how many
those are.
-/
namespace Xv6.Log

open Function

set_option autoImplicit false

open Xv6.Lib (run run_snoc_some run_invariant run_take_succ Always always_iff_take)

variable {c : Conf} {d0 : Nat → Block}

/-- The blocks that the current group writes. -/
def Sys.groupBlocks (s : Sys) : Finset Nat := (s.current.map Write.block).toFinset

/-- Until the home blocks are being written, the header lists nothing else. -/
def Covered (s : Sys) : Prop :=
  s.mode = .running → (∀ p t, s.ctl p ≠ .commit (.install t)) → ∀ b ∈ s.lh, b ∈ s.groupBlocks

theorem Covered.mono {s s' : Sys} (hv : Covered s) (hm : s'.mode = .running → s.mode = .running)
    (hlh : s'.lh = s.lh) (hcur : s'.current = s.current)
    (hctl : ∀ p t, s.ctl p = .commit (.install t) → s'.ctl p = .commit (.install t)) :
    Covered s' := by
  intro hmode hno
  unfold Sys.groupBlocks
  rw [hlh, hcur]
  exact hv (hm hmode) fun p t hp => hno p t (hctl p t hp)

theorem covered_nil {s : Sys} (h : s.lh = []) : Covered s := by
  intro _ _ b hb
  rw [h] at hb
  exact absurd hb List.not_mem_nil

/-- A process that moves on was not installing. -/
theorem install_update {ctl : Pid → Ctl} {p q : Pid} {k : Ctl} {t : Nat}
    (hp : ∀ t, ctl p ≠ .commit (.install t)) (h : ctl q = .commit (.install t)) :
    update ctl p k q = .commit (.install t) := by
  have hq : q ≠ p := by rintro rfl; exact hp t h
  rw [update_of_ne hq]
  exact h

theorem install_wakeup {s : Sys} {p : Pid} {t : Nat} (h : s.ctl p = .commit (.install t)) :
    s.wakeup.ctl p = .commit (.install t) := by
  unfold Sys.wakeup
  dsimp only
  rw [if_neg (by rw [h]; rintro ⟨⟩), h]

theorem covered_logWrite {s : Sys} (hi : Inv c d0 s) (hv : Covered s) {p : Pid} {i : Nat}
    {bl : List Nat} (hp : s.ctl p = .inOp i bl) (b : Nat) (x : Block) :
    Covered (logWrite c s p i bl b x) := by
  have hm := hi.mode_running (p := p) (by rw [hp]; rintro ⟨⟩)
  have hno := (hi.running hm).no_commit ((hi.running hm).not_committing hp).1
  obtain ⟨-, he⟩ | ⟨-, ⟨-, he⟩ | h⟩ := logWrite_cases c s p i bl b x
  · rw [he]; exact hv.mono (fun h => h) rfl rfl fun _ _ h => h
  · rw [he]; exact hv.mono (fun h => h) rfl rfl fun _ _ h => h
  intro _ _ a ha
  have hold : a ∈ s.lh → a ∈ s.groupBlocks := hv hm (fun q t => hno q _) a
  rw [h.lh] at ha
  simp only [Sys.groupBlocks, h.current, List.map_append, List.toFinset_append,
    Finset.mem_union] at hold ⊢
  split at ha
  · exact .inl (hold ha)
  · rcases List.mem_append.mp ha with hmem | hmem
    · exact .inl (hold hmem)
    · right; rw [List.mem_singleton.mp hmem]; simp

theorem covered_moves {s s' : Sys} {a : Act} (hi : Inv c d0 s) (hv : Covered s)
    (h : Moves c s a s') : Covered s' := by
  cases h with
  | beginOp p hm h =>
    have hp : ∀ t, s.ctl p ≠ .commit (.install t) := by
      intro t hc; rcases h with h | h <;> rw [h] at hc <;> cases hc
    unfold beginOp
    split <;> exact hv.mono (fun h => h) rfl rfl fun _ _ h => install_update hp h
  | logWrite p b x i bl h _ _ _ => exact covered_logWrite hi hv h b x
  | endOp p i bl h =>
    have hp : ∀ t, s.ctl p ≠ .commit (.install t) := by
      intro t hc; rw [h] at hc; cases hc
    unfold endOp
    dsimp only
    split
    · exact hv.mono (fun h => h) rfl rfl fun _ _ h => h
    split
    · exact hv.mono (fun h => h) rfl rfl fun _ _ h => install_update hp h
    · exact hv.mono (fun h => h) rfl rfl fun _ _ h => install_wakeup (install_update hp h)
  | commitStep p ph h =>
    cases ph with
    | writeLog t =>
      have hp : ∀ t, s.ctl p ≠ .commit (.install t) := by
        intro t hc; rw [h] at hc; cases hc
      rw [commitStep]
      split
      · exact hv.mono (fun h => h) rfl rfl fun _ _ h => install_update hp h
      · intro _ hno; exact absurd (update_self ..) (hno p 0)
    | install t =>
      rw [commitStep]
      split
      · intro _ hno; exact absurd (update_self ..) (hno p (t + 1))
      · exact covered_nil rfl
    | finish =>
      have hm := hi.mode_running (p := p) (by rw [h]; rintro ⟨⟩)
      exact covered_nil ((hi.running hm).progress p _ h).2
  | load b => exact hv.mono (fun h => h) rfl rfl fun _ _ h => h
  | evict b h => exact hv.mono (fun h => h) rfl rfl fun _ _ h => h
  | crash => exact covered_nil rfl
  | recoverStep tail h =>
    cases tail with
    | none => rintro ⟨⟩
    | some t =>
      rw [recoverStep]
      split
      · rintro ⟨⟩
      · exact covered_nil rfl

/-- While a process is inside an operation, the header has one entry for each block
of the current group. -/
theorem length_lh {s : Sys} (hi : Inv c d0 s) (hv : Covered s) {p : Pid} {i : Nat} {bl : List Nat}
    (hp : s.ctl p = .inOp i bl) : s.lh.length = s.groupBlocks.card := by
  have hm := hi.mode_running (p := p) (by rw [hp]; rintro ⟨⟩)
  have hr := hi.running hm
  have hno := hr.no_commit (hr.not_committing hp).1
  have ho := hr.calm hno
  rw [← List.toFinset_card_of_nodup hr.nodup]
  congr 1
  ext b
  rw [List.mem_toFinset]
  constructor
  · exact hv hm (fun q t => hno q _) b
  · intro hb
    obtain ⟨w, hw, rfl⟩ := List.mem_map.mp (List.mem_toFinset.mp hb)
    exact ho.blocks w hw

/-- The group has fewer blocks than fit behind the header whenever `log_write` is
called, also for a block that is logged already. -/
def Room (s : Sys) : Act → Prop
  | .logWrite _ _ _ => s.groupBlocks.card < LOGSIZE - 1
  | _ => True

instance (s : Sys) (a : Act) : Decidable (Room s a) := by cases a <;> unfold Room <;> infer_instance

/-- An operation logs no more than `MAXOPBLOCKS` distinct blocks. -/
def Budget (s : Sys) : Act → Prop
  | .logWrite p b _ =>
    match s.ctl p with
    | .inOp _ blocks => b ∈ blocks ∨ blocks.length < MAXOPBLOCKS
    | _ => True
  | _ => True

instance (s : Sys) (a : Act) : Decidable (Budget s a) := by
  cases a with
  | logWrite p b x => unfold Budget; dsimp only; split <;> infer_instance
  | _ => exact .isTrue trivial

/-- Only a `log_write` into a full group reaches the panic. -/
theorem tooBig_iff {s s' : Sys} {a : Act} (hsize : c.size = LOGSIZE) (hi : Inv c d0 s)
    (hv : Covered s) (hs : s.panicked ≠ some .tooBig) (h : Moves c s a s') :
    s'.panicked = some .tooBig ↔ ¬ Room s a := by
  cases h with
  | beginOp p _ _ =>
    simp only [Room, not_true_eq_false, iff_false]
    unfold beginOp
    split <;> exact hs
  | logWrite p b x i bl h hp _ _ =>
    have hlen := length_lh hi hv h
    simp only [Room, Nat.not_lt]
    obtain ⟨hfull, he⟩ | ⟨hroom, ⟨-, he⟩ | hl⟩ := logWrite_cases c s p i bl b x
    · rw [he]
      refine iff_of_true rfl ?_
      omega
    · rw [he]
      exact iff_of_false (by rintro ⟨⟩) (by omega)
    · rw [hl.panicked]
      exact iff_of_false hs (by omega)
  | endOp p i bl h =>
    simp only [Room, not_true_eq_false, iff_false]
    unfold endOp
    dsimp only
    split
    · rintro ⟨⟩
    split <;> exact hs
  | commitStep p ph h =>
    simp only [Room, not_true_eq_false, iff_false]
    unfold commitStep
    cases ph with
    | writeLog t => dsimp only; split <;> exact hs
    | install t => dsimp only; split <;> exact hs
    | finish => exact hs
  | load b => exact iff_of_false hs (not_not_intro trivial)
  | evict b h => exact iff_of_false hs (not_not_intro trivial)
  | crash => exact iff_of_false (by rintro ⟨⟩) (not_not_intro trivial)
  | recoverStep tail h =>
    simp only [Room, not_true_eq_false, iff_false]
    cases tail with
    | none => exact hs
    | some t => rw [recoverStep]; split <;> exact hs

theorem covered_run (h : Clean c d0) {as : List Act} {s : Sys}
    (hrun : run (step c) (init d0) as = some s) : Inv c d0 s ∧ Covered s :=
  run_invariant (I := fun s => Inv c d0 s ∧ Covered s)
    (fun _ _ _ hi hs => ⟨inv_moves hi.1 (moves_of_step hs), covered_moves hi.1 hi.2 (moves_of_step hs)⟩)
    ⟨inv_init h, covered_nil rfl⟩ hrun

/-- No state of the run has reached the panic. -/
def NeverTooBig (c : Conf) (d0 : Nat → Block) (as : List Act) : Prop :=
  ∀ n s, run (step c) (init d0) (as.take n) = some s → s.panicked ≠ some .tooBig

/-- On a log of `LOGSIZE` blocks `log_write` stays clear of its panic in exactly the
runs in which it is never called with `LOGSIZE - 1` blocks in the current group. -/
theorem neverTooBig_iff_room (c : Conf) (hsize : c.size = LOGSIZE) (d0 : Nat → Block)
    (h : Clean c d0) {as : List Act} {t : Sys} (hrun : run (step c) (init d0) as = some t) :
    NeverTooBig c d0 as ↔ Always (step c) Room (init d0) as := by
  rw [always_iff_take]
  constructor
  · intro hnever n s a hs ha
    obtain ⟨hi, hv⟩ := covered_run h hs
    obtain ⟨s', hstep, hs'⟩ := run_take_succ hrun hs ha
    by_contra hroom
    exact hnever (n + 1) s' hs' ((tooBig_iff hsize hi hv (hnever n s hs) (moves_of_step hstep)).mpr hroom)
  · intro hroom n
    -- by induction on the length of the run so far
    induction n with
    | zero => intro s hs; cases hs; rintro ⟨⟩
    | succ n ih =>
      intro s' hs'
      cases ha : as[n]? with
      | none =>
        have hlen : as.length ≤ n := List.getElem?_eq_none_iff.mp ha
        rw [List.take_of_length_le (by omega)] at hs'
        exact ih s' (by rw [List.take_of_length_le hlen]; exact hs')
      | some a =>
        rw [List.take_add_one, ha] at hs'
        obtain ⟨s, hs, hstep⟩ := run_snoc_some.mp hs'
        obtain ⟨hi, hv⟩ := covered_run h hs
        intro hbad
        exact (tooBig_iff hsize hi hv (ih s hs) (moves_of_step hstep)).mp hbad (hroom n s a hs ha)

/-- The `i`-th block that process `p` logs in `fullGroup`. -/
def blockOf (p i : Nat) : Nat := 100 + p * MAXOPBLOCKS + i

/-- Three operations are let in together and log `MAXOPBLOCKS` blocks each. -/
def fullGroup : List Act :=
  [.beginOp 0, .beginOp 1, .beginOp 2] ++
    (List.range 3).flatMap fun p =>
      (List.range MAXOPBLOCKS).map fun i => .logWrite p (blockOf p i) fun _ => 1

theorem tooBig_on_fullGroup :
    mkfsConf.size = LOGSIZE ∧ Always (step mkfsConf) Budget (init fun _ _ => 0) fullGroup ∧
      ∃ s, run (step mkfsConf) (init fun _ _ => 0) fullGroup = some s ∧
        s.panicked = some .tooBig := by
  refine ⟨rfl, by decide, ?_⟩
  exact ⟨_, rfl, rfl⟩

/-- The same run without its last `log_write` stays clear of the panic. -/
theorem neverTooBig_iff_room_run :
    NeverTooBig mkfsConf (fun _ _ => 0) (fullGroup.take 32) := by
  have hclean : Clean mkfsConf fun _ _ => 0 := by decide
  obtain ⟨s, hrun⟩ : ∃ s, run (step mkfsConf) (init fun _ _ => 0) (fullGroup.take 32) = some s :=
    ⟨_, rfl⟩
  exact (neverTooBig_iff_room mkfsConf rfl _ hclean hrun).mpr (by decide)

end Xv6.Log
