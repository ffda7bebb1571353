import Mathlib.Data.Set.Basic

/-!
# Programs over a signature of operations

A program is a tree: it returns a value, or performs an operation and goes on
with the answer. What the operations do is left open, so that one text of a
program can be run by an interleaving machine, executed alone on a state, or
checked against a specification of the operations. `wp` is the weakest
precondition with respect to such a specification.
-/
namespace Xv6.Lib

set_option autoImplicit false

/-- Programs with operations `E`; an operation `e` is answered by a value of `R e`. -/
inductive Prog (E : Type) (R : E → Type) (α : Type) where
  | ret (a : α)
  | op (e : E) (k : R e → Prog E R α)

namespace Prog

variable {E : Type} {R : E → Type} {α β : Type}

def bind : Prog E R α → (α → Prog E R β) → Prog E R β
  | .ret a, f => f a
  | .op e k, f => .op e fun r => (k r).bind f

instance : Monad (Prog E R) where
  pure := .ret
  bind := bind

/-- Perform one operation and return its answer. -/
def perform (e : E) : Prog E R (R e) := .op e .ret

@[simp] theorem ret_bind (a : α) (f : α → Prog E R β) : (.ret a : Prog E R α) >>= f = f a := rfl

@[simp] theorem pure_bind (a : α) (f : α → Prog E R β) :
    ((pure a : Prog E R α) >>= f) = f a := rfl

@[simp] theorem op_bind (e : E) (k : R e → Prog E R α) (f : α → Prog E R β) :
    (.op e k >>= f) = .op e fun r => k r >>= f := rfl

@[simp] theorem perform_bind (e : E) (f : R e → Prog E R β) : (perform e >>= f) = .op e f := rfl

/-! ## Weakest preconditions -/

variable {σ : Type}

/-- What an operation needs before it so that `Q` holds of its answer and the state
after it. -/
abbrev Spec (E : Type) (R : E → Type) (σ : Type) := (e : E) → (R e → σ → Prop) → σ → Prop

def wp (spec : Spec E R σ) : Prog E R α → (α → σ → Prop) → σ → Prop
  | .ret a, Q => Q a
  | .op e k, Q => spec e fun r => (k r).wp spec Q

/-- A specification that can only gain from a weaker postcondition. -/
def Spec.Monotone (spec : Spec E R σ) : Prop :=
  ∀ e (Q Q' : R e → σ → Prop) s, (∀ r t, Q r t → Q' r t) → spec e Q s → spec e Q' s

variable {spec : Spec E R σ} {Q Q' : α → σ → Prop} {s : σ}

@[simp] theorem wp_ret (a : α) : wp spec (.ret a) Q s ↔ Q a s := Iff.rfl

@[simp] theorem wp_pure (a : α) : wp spec (pure a) Q s ↔ Q a s := Iff.rfl

@[simp] theorem wp_perform (e : E) (Q : R e → σ → Prop) :
    wp spec (perform e) Q s ↔ spec e Q s := Iff.rfl

theorem wp_bind (p : Prog E R α) (f : α → Prog E R β) (Q : β → σ → Prop) :
    wp spec (p >>= f) Q = wp spec p fun a => wp spec (f a) Q := by
  induction p with
  | ret a => rfl
  | op e k ih =>
    change spec e (fun r => wp spec (k r >>= f) Q) = spec e fun r => wp spec (k r) _
    simp only [ih]

theorem wp_mono (hm : spec.Monotone) {p : Prog E R α} (hQ : ∀ a t, Q a t → Q' a t)
    (h : wp spec p Q s) : wp spec p Q' s := by
  induction p generalizing s with
  | ret a => exact hQ a s h
  | op e k ih => exact hm e _ _ s (fun r t ht => ih r ht) h

theorem wp_ite {c : Prop} [Decidable c] {p q : Prog E R α} (hp : c → wp spec p Q s)
    (hq : ¬c → wp spec q Q s) : wp spec (if c then p else q) Q s := by
  by_cases h : c
  · rw [if_pos h]
    exact hp h
  · rw [if_neg h]
    exact hq h

/-- The rule for a call of `p`: what `p` guarantees is what the rest needs. -/
theorem wp_call (hm : spec.Monotone) {p : Prog E R α} {f : α → Prog E R β} {P : β → σ → Prop}
    (h : wp spec p Q s) (hf : ∀ a t, Q a t → wp spec (f a) P t) : wp spec (p >>= f) P s := by
  rw [wp_bind]
  exact wp_mono hm hf h

end Prog

end Xv6.Lib
