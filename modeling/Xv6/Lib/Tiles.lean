import Mathlib.Order.Interval.Set.Basic
import Mathlib.Data.List.Perm.Basic
import Mathlib.Data.List.Pairwise

/-!
# Tilings of memory by blocks

A block is a start and a positive size. A list of blocks tiles a set of addresses if the blocks
do not overlap and together are the set. Neighbouring blocks can be joined, a block can be
cut, and a block can be added above everything.
-/
namespace Xv6.Lib

set_option autoImplicit false

/-- Start and size. -/
abbrev Extent := Nat × Nat

def Extent.Apart (b c : Extent) : Prop := b.1 + b.2 ≤ c.1 ∨ c.1 + c.2 ≤ b.1

theorem Extent.Apart.symm {b c : Extent} (h : b.Apart c) : c.Apart b := Or.symm h

instance : Std.Symm Extent.Apart := ⟨fun _ _ => Extent.Apart.symm⟩

structure Tiles (bs : List Extent) (M : Set Nat) : Prop where
  pos : ∀ b ∈ bs, 0 < b.2
  apart : bs.Pairwise Extent.Apart
  cover : ∀ x, x ∈ M ↔ ∃ b ∈ bs, b.1 ≤ x ∧ x < b.1 + b.2

namespace Tiles

variable {bs bs' : List Extent} {M : Set Nat} {a m n : Nat}

theorem nil : Tiles [] ∅ := ⟨by simp, .nil, by simp⟩

theorem perm (h : Tiles bs M) (hp : bs.Perm bs') : Tiles bs' M where
  pos b hb := h.pos b (hp.mem_iff.mpr hb)
  apart := h.apart.perm hp Extent.Apart.symm
  cover x := by simp only [h.cover x, hp.mem_iff]

theorem mem_start (h : Tiles bs M) {b : Extent} (hb : b ∈ bs) : b.1 ∈ M := by
  have := h.pos b hb
  exact (h.cover _).mpr ⟨b, hb, le_refl _, by omega⟩

/-- A block lies below every bound of the set. -/
theorem end_le (h : Tiles bs M) {b : Extent} (hb : b ∈ bs) {k : Nat} (hk : ∀ x ∈ M, x < k) :
    b.1 + b.2 ≤ k := by
  have hpos := h.pos b hb
  have := hk (b.1 + b.2 - 1) ((h.cover _).mpr ⟨b, hb, by omega, by omega⟩)
  omega

/-- A block ends before the next one starts. -/
theorem end_le_start (h : Tiles bs M) {b c : Extent} (hb : b ∈ bs) (hc : c ∈ bs)
    (hbc : b.1 < c.1) : b.1 + b.2 ≤ c.1 := by
  have hne : b ≠ c := by
    rintro rfl
    exact lt_irrefl _ hbc
  have hapart := h.apart.forall hb hc hne
  have := h.pos c hc
  unfold Extent.Apart at hapart
  omega

theorem nodup_starts (h : Tiles bs M) : (bs.map Prod.fst).Nodup := by
  rw [List.Nodup, List.pairwise_map]
  refine h.apart.imp_of_mem ?_
  intro b c hb hc hbc
  have := h.pos b hb
  have := h.pos c hc
  rcases hbc with h | h <;> omega

theorem join (h : Tiles ((a, m) :: (a + m, n) :: bs) M) : Tiles ((a, m + n) :: bs) M := by
  obtain ⟨h₁, h₂⟩ := List.pairwise_cons.mp h.apart
  obtain ⟨h₂, h₃⟩ := List.pairwise_cons.mp h₂
  refine ⟨?_, List.pairwise_cons.mpr ⟨?_, h₃⟩, ?_⟩
  · intro b hb
    rcases List.mem_cons.mp hb with rfl | hb
    · have := h.pos (a, m) (by simp)
      dsimp only at this ⊢
      omega
    · exact h.pos b (by simp [hb])
  · intro b hb
    have hpos := h.pos b (by simp [hb])
    have hl := h₁ b (by simp [hb])
    have hr := h₂ b hb
    unfold Extent.Apart at hl hr ⊢
    dsimp only at hl hr ⊢
    omega
  · intro x
    rw [h.cover]
    simp only [List.exists_mem_cons_iff, ← or_assoc]
    exact or_congr_left (by omega)

theorem cut (hm : 0 < m) (hn : 0 < n) (h : Tiles ((a, m + n) :: bs) M) :
    Tiles ((a, m) :: (a + m, n) :: bs) M := by
  obtain ⟨h₁, h₂⟩ := List.pairwise_cons.mp h.apart
  refine ⟨?_, List.pairwise_cons.mpr ⟨?_, List.pairwise_cons.mpr ⟨?_, h₂⟩⟩, ?_⟩
  · intro b hb
    simp only [List.mem_cons] at hb
    rcases hb with rfl | rfl | hb
    · exact hm
    · exact hn
    · exact h.pos b (by simp [hb])
  · intro b hb
    rcases List.mem_cons.mp hb with rfl | hb
    · exact .inl (le_refl _)
    · have hl := h₁ b hb
      unfold Extent.Apart at hl ⊢
      dsimp only at hl ⊢
      omega
  · intro b hb
    have hl := h₁ b hb
    unfold Extent.Apart at hl ⊢
    dsimp only at hl ⊢
    omega
  · intro x
    rw [h.cover]
    simp only [List.exists_mem_cons_iff, ← or_assoc]
    exact or_congr_left (by omega)

/-- A block is added above the set. -/
theorem add (h : Tiles bs M) (hn : 0 < n) (ha : ∀ x ∈ M, x < a) :
    Tiles ((a, n) :: bs) (M ∪ Set.Ico a (a + n)) := by
  refine ⟨?_, List.pairwise_cons.mpr ⟨?_, h.apart⟩, ?_⟩
  · intro b hb
    rcases List.mem_cons.mp hb with rfl | hb
    · exact hn
    · exact h.pos b hb
  · intro b hb
    exact .inr (h.end_le hb ha)
  · intro x
    rw [Set.mem_union, h.cover, List.exists_mem_cons_iff, Set.mem_Ico]
    exact or_comm

end Tiles

end Xv6.Lib
