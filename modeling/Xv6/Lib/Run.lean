import Mathlib.Data.List.Basic

/-!
# Runs of a labelled partial step function

A system is a function `step : σ → α → Option σ`: the label says which party
moves and resolves every choice the environment makes, and `none` says that the
label is not enabled. A run is a list of labels. The rules below turn a fact
about one step into a fact about every run; nothing here is about a particular
system.
-/
namespace Xv6.Lib

set_option autoImplicit false

variable {σ α : Type*} (step : σ → α → Option σ)

/-- Execute the labels in order; `none` as soon as one is not enabled. -/
def run : σ → List α → Option σ
  | s, [] => some s
  | s, a :: as => (step s a).bind fun s' => run s' as

/-- The condition `C` holds of the state before each label of the run. -/
def Always (C : σ → α → Prop) : σ → List α → Prop
  | _, [] => True
  | s, a :: as => C s a ∧ ∀ s', step s a = some s' → Always C s' as

variable {step}

theorem always_cons {C : σ → α → Prop} {s s' : σ} {a : α} {as : List α}
    (ha : step s a = some s') (hC : C s a) (has : Always step C s' as) :
    Always step C s (a :: as) := by
  refine ⟨hC, fun t ht => ?_⟩
  rw [ha] at ht
  cases ht
  exact has

theorem always_of_forall {C : α → Prop} {as : List α} (h : ∀ a ∈ as, C a) (s : σ) :
    Always step (fun _ => C) s as := by
  induction as generalizing s with
  | nil => trivial
  | cons a as ih =>
    exact ⟨h a List.mem_cons_self, fun s' _ => ih (fun b hb => h b (List.mem_cons_of_mem _ hb)) s'⟩

@[simp] theorem run_nil (s : σ) : run step s [] = some s := rfl

theorem run_cons (s : σ) (a : α) (as : List α) :
    run step s (a :: as) = (step s a).bind fun s' => run step s' as := rfl

theorem run_cons_some {s t : σ} {a : α} {as : List α} :
    run step s (a :: as) = some t ↔ ∃ s', step s a = some s' ∧ run step s' as = some t := by
  rw [run_cons, Option.bind_eq_some_iff]

theorem run_append (s : σ) (as bs : List α) :
    run step s (as ++ bs) = (run step s as).bind fun s' => run step s' bs := by
  induction as generalizing s with
  | nil => rfl
  | cons a as ih =>
    rw [List.cons_append, run_cons, run_cons]
    cases step s a with
    | none => rfl
    | some s' => exact ih s'

theorem run_snoc_some {s t : σ} {a : α} {as : List α} :
    run step s (as ++ [a]) = some t ↔ ∃ s', run step s as = some s' ∧ step s' a = some t := by
  rw [run_append, Option.bind_eq_some_iff]
  simp only [run_cons, run_nil, Option.bind_fun_some]

/-- A run goes on from each of its states. -/
theorem run_take_succ {s t u : σ} {as : List α} {n : Nat} {a : α} (hrun : run step s as = some u)
    (ht : run step s (as.take n) = some t) (ha : as[n]? = some a) :
    ∃ t', step t a = some t' ∧ run step s (as.take (n + 1)) = some t' := by
  have hsplit : as = as.take (n + 1) ++ as.drop (n + 1) := (List.take_append_drop _ _).symm
  rw [hsplit, run_append] at hrun
  obtain ⟨t', ht', -⟩ := Option.bind_eq_some_iff.mp hrun
  rw [List.take_add_one, ha] at ht' ⊢
  obtain ⟨t₀, ht₀, hstep⟩ := run_snoc_some.mp ht'
  rw [ht] at ht₀
  cases ht₀
  exact ⟨t', hstep, ht'⟩

/-- What holds at the start and is kept by every step holds after every run. -/
theorem run_invariant {I : σ → Prop} (hstep : ∀ s a s', I s → step s a = some s' → I s')
    {s t : σ} {as : List α} (hs : I s) (hrun : run step s as = some t) : I t := by
  induction as generalizing s with
  | nil => cases hrun; exact hs
  | cons a as ih =>
    obtain ⟨s', ha, hr⟩ := run_cons_some.mp hrun
    exact ih (hstep s a s' hs ha) hr

/-- The invariant rule for runs whose every step meets a condition. -/
theorem run_invariant_under {I : σ → Prop} {C : σ → α → Prop}
    (hstep : ∀ s a s', I s → C s a → step s a = some s' → I s')
    {s t : σ} {as : List α} (hs : I s) (hC : Always step C s as)
    (hrun : run step s as = some t) : I t := by
  induction as generalizing s with
  | nil => cases hrun; exact hs
  | cons a as ih =>
    obtain ⟨s', ha, hr⟩ := run_cons_some.mp hrun
    exact ih (hstep s a s' hs hC.1 ha) (hC.2 s' ha) hr

/-- `Always` by the position of the label in the run. -/
theorem always_iff_take {C : σ → α → Prop} {s : σ} {as : List α} :
    Always step C s as ↔
      ∀ n t a, run step s (as.take n) = some t → as[n]? = some a → C t a := by
  induction as generalizing s with
  | nil => simp [Always]
  | cons a as ih =>
    constructor
    · rintro ⟨ha, has⟩ n t b hrun hb
      cases n with
      | zero => cases hrun; cases hb; exact ha
      | succ n =>
        obtain ⟨s', hs, hr⟩ := run_cons_some.mp hrun
        exact ih.mp (has s' hs) n t b hr hb
    · intro h
      refine ⟨h 0 s a rfl rfl, fun s' hs => ih.mpr fun n t b hrun hb => ?_⟩
      exact h (n + 1) t b (run_cons_some.mpr ⟨s', hs, hrun⟩) hb

instance Always.decidable {C : σ → α → Prop} [∀ s a, Decidable (C s a)] :
    ∀ (s : σ) (as : List α), Decidable (Always step C s as)
  | _, [] => .isTrue trivial
  | s, a :: as =>
    match h : step s a with
    | none => decidable_of_iff (C s a) (by simp [Always, h])
    | some s' =>
      have := Always.decidable (C := C) s' as
      decidable_of_iff (C s a ∧ Always step C s' as) (by simp [Always, h])

end Xv6.Lib
