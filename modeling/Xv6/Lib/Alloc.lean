import Mathlib.Data.Set.Basic

/-!
# Allocation maps

Cells below `n` are handed out one by one; those below `m` are reserved. A reference
function `ρ` says which cell each key refers to, with 0 for none. The map of used cells is
exact if it has the reserved cells and those referred to, and no cell has two references.
-/
namespace Xv6.Lib

open Function

set_option autoImplicit false

variable {K : Type*}

structure Exact (m n : Nat) (ρ : K → Nat) (used : Nat → Bool) : Prop where
  pos : 0 < m
  range : ∀ k, ρ k ≠ 0 → m ≤ ρ k ∧ ρ k < n
  inj : ∀ k l, ρ k ≠ 0 → ρ k = ρ l → k = l
  reserved : ∀ b < m, b < n → used b = true
  used_iff : ∀ b, m ≤ b → b < n → (used b = true ↔ ∃ k, ρ k = b)

namespace Exact

variable {m n b : Nat} {ρ : K → Nat} {used : Nat → Bool} {k l : K}

theorem used_ref (h : Exact m n ρ used) (hk : ρ k ≠ 0) : used (ρ k) = true :=
  (h.used_iff _ (h.range k hk).1 (h.range k hk).2).mpr ⟨k, rfl⟩

theorem ne_of_free (h : Exact m n ρ used) (hb : used b = false) (hk : ρ k ≠ 0) : ρ k ≠ b := by
  rintro rfl
  simp [h.used_ref hk] at hb

theorem le_of_free (h : Exact m n ρ used) (hn : b < n) (hb : used b = false) : m ≤ b := by
  by_contra hlt
  simp [h.reserved b (Nat.lt_of_not_le hlt) hn] at hb

theorem ne_zero (h : Exact m n ρ used) (hm : m ≤ b) : b ≠ 0 := by
  have := h.pos
  omega

variable [DecidableEq K]

/-- A free cell is given to a key that has none. -/
theorem alloc (h : Exact m n ρ used) (hn : b < n) (hb : used b = false) (hk : ρ k = 0) :
    Exact m n (update ρ k b) (update used b true) where
  pos := h.pos
  range l hl := by
    by_cases hlk : l = k
    · subst hlk
      rw [update_self]
      exact ⟨h.le_of_free hn hb, hn⟩
    · rw [update_of_ne hlk] at hl ⊢
      exact h.range l hl
  inj l l' hl he := by
    by_cases hlk : l = k <;> by_cases hlk' : l' = k
    · rw [hlk, hlk']
    · subst hlk
      rw [update_self] at hl he
      rw [update_of_ne hlk'] at he
      exact absurd he.symm (h.ne_of_free hb (he ▸ hl))
    · subst hlk'
      rw [update_self, update_of_ne hlk] at he
      rw [update_of_ne hlk] at hl
      exact absurd he (h.ne_of_free hb hl)
    · rw [update_of_ne hlk] at hl he
      rw [update_of_ne hlk'] at he
      exact h.inj l l' hl he
  reserved c hc hcn := by
    by_cases hcb : c = b
    · rw [hcb, update_self]
    · rw [update_of_ne hcb]
      exact h.reserved c hc hcn
  used_iff c hc hcn := by
    by_cases hcb : c = b
    · subst hcb
      rw [update_self]
      exact iff_of_true rfl ⟨k, update_self ..⟩
    · rw [update_of_ne hcb, h.used_iff c hc hcn]
      constructor
      · rintro ⟨l, rfl⟩
        have hlk : l ≠ k := by
          rintro rfl
          exact h.ne_zero hc hk
        exact ⟨l, update_of_ne hlk ..⟩
      · rintro ⟨l, hl⟩
        have hlk : l ≠ k := by
          rintro rfl
          rw [update_self] at hl
          exact hcb hl.symm
        rw [update_of_ne hlk] at hl
        exact ⟨l, hl⟩

end Exact

end Xv6.Lib
