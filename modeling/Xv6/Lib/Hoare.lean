import Mathlib.Logic.Basic

/-!
# Programs with a state that may fail

`wp c Q E s` says that the program `c`, started in state `s`, ends with a result and a state that
meet `Q`, or stops with an error that meets `E`. The rules below take a program apart; a routine is
verified once, and its callers use that fact with `wp_call`.
-/
namespace Xv6.Lib.Hoare

set_option autoImplicit false

variable {σ ε α β : Type}

/-- The weakest precondition. -/
def wp (c : StateT σ (Except ε) α) (Q : α → σ → Prop) (E : ε → Prop) (s : σ) : Prop :=
  match c s with
  | .ok r => Q r.1 r.2
  | .error e => E e

variable {Q Q' : α → σ → Prop} {E E' : ε → Prop} {s : σ}

theorem wp_pure (a : α) : wp (pure a : StateT σ (Except ε) α) Q E s ↔ Q a s := Iff.rfl

theorem wp_throw (e : ε) : wp (throw e : StateT σ (Except ε) α) Q E s ↔ E e := Iff.rfl

theorem wp_get {Q : σ → σ → Prop} : wp (get : StateT σ (Except ε) σ) Q E s ↔ Q s s := Iff.rfl

theorem wp_modify (f : σ → σ) {Q : PUnit → σ → Prop} :
    wp (modify f : StateT σ (Except ε) PUnit) Q E s ↔ Q () (f s) := Iff.rfl

theorem wp_bind (c : StateT σ (Except ε) α) (f : α → StateT σ (Except ε) β) {Q : β → σ → Prop} :
    wp (c >>= f) Q E s ↔ wp c (fun a t => wp (f a) Q E t) E s := by
  unfold wp
  change (match (c s >>= fun r => f r.1 r.2) with
    | .ok r => Q r.1 r.2
    | .error e => E e) ↔ _
  cases c s with
  | error e => exact Iff.rfl
  | ok r => exact Iff.rfl

theorem wp_mono {c : StateT σ (Except ε) α} (hQ : ∀ a t, Q a t → Q' a t) (hE : ∀ e, E e → E' e)
    (h : wp c Q E s) : wp c Q' E' s := by
  unfold wp at h ⊢
  cases hc : c s with
  | error e =>
    rw [hc] at h
    exact hE e h
  | ok r =>
    rw [hc] at h
    exact hQ r.1 r.2 h

/-- A program that has no error to stop with ends. -/
theorem wp_total {c : StateT σ (Except ε) α} (h : wp c Q (fun _ => False) s) :
    ∃ a t, c s = .ok (a, t) ∧ Q a t := by
  unfold wp at h
  cases hc : c s with
  | error e =>
    rw [hc] at h
    exact h.elim
  | ok r =>
    rw [hc] at h
    exact ⟨r.1, r.2, rfl, h⟩

/-- The rule for a call: what `c` guarantees is what the rest needs. -/
theorem wp_call {c : StateT σ (Except ε) α} {f : α → StateT σ (Except ε) β} {P : β → σ → Prop}
    (h : wp c Q E s) (hf : ∀ a t, Q a t → wp (f a) P E t) : wp (c >>= f) P E s :=
  (wp_bind c f).mpr (wp_mono hf (fun _ he => he) h)

theorem wp_ite {b : Prop} [Decidable b] {c d : StateT σ (Except ε) α} (hc : b → wp c Q E s)
    (hd : ¬b → wp d Q E s) : wp (if b then c else d) Q E s := by
  by_cases h : b
  · rw [if_pos h]
    exact hc h
  · rw [if_neg h]
    exact hd h

/-- A loop over a list keeps what each of its turns keeps. -/
theorem wp_forM {γ : Type} {I : List γ → σ → Prop} {body : γ → StateT σ (Except ε) PUnit}
    (hbody : ∀ x xs s, I (x :: xs) s → wp (body x) (fun _ t => I xs t) E s) (xs : List γ) {s : σ}
    (h : I xs s) : wp (xs.forM body) (fun _ t => I [] t) E s := by
  induction xs generalizing s with
  | nil => exact h
  | cons x xs ih =>
    change wp (body x >>= fun _ => xs.forM body) _ E s
    exact wp_call (hbody x xs s h) fun _ t ht => ih ht

end Xv6.Lib.Hoare
