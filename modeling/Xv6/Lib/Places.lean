import Xv6.Lib.Sep

/-!
# Where the cells of a heap are

A system has places that hold a cell or none, given by `loc`. `Names P S` says that
whatever `P` owns is in the places of `S`, each cell in exactly one, and that these
places hold nothing else. Separate owners have their cells in separate places, so that
the places of a separating conjunction are the union.
-/
namespace Xv6.Lib.Sep

open Assn

set_option autoImplicit false

variable {α β ι κ : Type}

/-- `g` is a part of the heap `h`. -/
def Heap.Part (g h : Heap α β) : Prop := ∀ a b, g a = some b → h a = some b

theorem Heap.Part.left {g k h : Heap α β} (hp : Part (g ∪ k) h) : Part g h := by
  intro a b hg
  exact hp a b (union_of_some_left hg)

theorem Heap.Part.right {g k h : Heap α β} (hd : Apart g k) (hp : Part (g ∪ k) h) : Part k h := by
  intro a b hk
  exact hp a b (hd.union_of_some_right hk)

/-- In the heap `h`, what `P` owns is exactly what the places in `S` hold, with each cell
in one of them. -/
def Names (h : Heap α β) (loc : ι → Option α) (P : Assn α β) (S : Set ι) : Prop :=
  ∀ g, g.Part h → P g → (∀ i ∈ S, ∀ a, loc i = some a → g a ≠ none) ∧
    ∀ a, g a ≠ none → ∃! i, i ∈ S ∧ loc i = some a

namespace Names

variable {h : Heap α β} {loc : ι → Option α} {P Q : Assn α β} {S T : Set ι}

/-- Empty places. -/
theorem one (hS : ∀ i ∈ S, loc i = none) : Names h loc (1 : Assn α β) S := by
  rintro g - rfl
  refine ⟨fun i hi a ha => ?_, fun a ha => absurd rfl ha⟩
  rw [hS i hi] at ha
  exact nomatch ha

theorem cell [DecidableEq α] {i : ι} {a : α} {b : β} (hi : loc i = some a) :
    Names h loc (Assn.cell a b) {i} := by
  rintro g - rfl
  constructor
  · rintro j rfl x hx
    rw [hi] at hx
    rw [← Option.some.inj hx, Heap.single_self]
    exact Option.some_ne_none b
  · intro x hx
    have hxa : x = a := by
      by_contra hne
      exact hx (Heap.single_ne b hne)
    exact ⟨i, ⟨rfl, hxa ▸ hi⟩, fun j hj => hj.1⟩

theorem mono (hP : Names h loc P S) (hQ : Q ≤ P) : Names h loc Q S :=
  fun g hg hq => hP g hg (hQ g hq)

theorem of_fact {φ : Prop} (hP : φ → Names h loc P S) : Names h loc (fact φ * P) S :=
  fun g hg hp => hP (fact_mul.mp hp).1 g hg (fact_mul.mp hp).2

theorem of_any {τ : Type} {P : τ → Assn α β} (hP : ∀ i, Names h loc (P i) S) :
    Names h loc (any P) S := by
  rintro g hg ⟨i, hi⟩
  exact hP i g hg hi

theorem of_either (hP : Names h loc P S) (hQ : Names h loc Q S) : Names h loc (either P Q) S :=
  fun g hg hp => hp.elim (hP g hg) (hQ g hg)

/-- Use a fact `φ` that whoever owns `P` may rely on. -/
theorem of_part {φ : Prop} (hφ : ∀ g, Heap.Part g h → P g → φ) (hP : φ → Names h loc P S) :
    Names h loc P S := fun g hg hp => hP (hφ g hg hp) g hg hp

theorem mul (hP : Names h loc P S) (hQ : Names h loc Q T) : Names h loc (P * Q) (S ∪ T) := by
  rintro g hg ⟨p, q, hd, rfl, hp, hq⟩
  obtain ⟨hp1, hp2⟩ := hP p hg.left hp
  obtain ⟨hq1, hq2⟩ := hQ q (hg.right hd) hq
  constructor
  · rintro i (hi | hi) a ha hn
    · exact hp1 i hi a ha (Heap.union_eq_none.mp hn).1
    · exact hq1 i hi a ha (Heap.union_eq_none.mp hn).2
  · intro a ha
    by_cases hpa : p a = none
    · have hqa : q a ≠ none := fun hn => ha (Heap.union_eq_none.mpr ⟨hpa, hn⟩)
      obtain ⟨i, hi, huniq⟩ := hq2 a hqa
      refine ⟨i, ⟨Or.inr hi.1, hi.2⟩, ?_⟩
      rintro j ⟨hj | hj, hja⟩
      · exact absurd hpa (hp1 j hj a hja)
      · exact huniq j ⟨hj, hja⟩
    · obtain ⟨i, hi, huniq⟩ := hp2 a hpa
      refine ⟨i, ⟨Or.inl hi.1, hi.2⟩, ?_⟩
      rintro j ⟨hj | hj, hja⟩
      · exact huniq j ⟨hj, hja⟩
      · exact absurd ((hd a).resolve_left hpa) (hq1 j hj a hja)

theorem prod {τ : Type} [DecidableEq τ] {P : τ → Assn α β} {S : τ → Set ι} (s : Finset τ)
    (hP : ∀ i ∈ s, Names h loc (P i) (S i)) : Names h loc (∏ i ∈ s, P i) (⋃ i ∈ s, S i) := by
  induction s using Finset.induction_on with
  | empty =>
    rw [Finset.prod_empty]
    apply one
    intro i hi
    simp at hi
  | insert j s hj ih =>
    rw [Finset.prod_insert hj, Finset.set_biUnion_insert]
    exact (hP j (Finset.mem_insert_self j s)).mul
      (ih fun i hi => hP i (Finset.mem_insert_of_mem hi))

/-- Further places that are empty. -/
theorem extend (hP : Names h loc P S) (hST : S ⊆ T) (hT : ∀ i ∈ T, i ∉ S → loc i = none) :
    Names h loc P T := by
  intro g hg hp
  obtain ⟨h1, h2⟩ := hP g hg hp
  have hin : ∀ i ∈ T, ∀ a, loc i = some a → i ∈ S := by
    intro i hi a ha
    by_contra hn
    rw [hT i hi hn] at ha
    exact nomatch ha
  refine ⟨fun i hi a ha => h1 i (hin i hi a ha) a ha, fun a ha => ?_⟩
  obtain ⟨i, hi, huniq⟩ := h2 a ha
  exact ⟨i, ⟨hST hi.1, hi.2⟩, fun j hj => huniq j ⟨hin j hj.1 a hj.2, hj.2⟩⟩

/-- The same places under other names. -/
theorem image {loc' : κ → Option α} {f : ι → κ}
    (hloc : ∀ i ∈ S, loc' (f i) = loc i) (hP : Names h loc P S) : Names h loc' P (f '' S) := by
  intro g hg hp
  obtain ⟨h1, h2⟩ := hP g hg hp
  constructor
  · rintro _ ⟨i, hi, rfl⟩ a ha
    rw [hloc i hi] at ha
    exact h1 i hi a ha
  · intro a ha
    obtain ⟨i, hi, huniq⟩ := h2 a ha
    refine ⟨f i, ⟨⟨i, hi.1, rfl⟩, (hloc i hi.1).trans hi.2⟩, ?_⟩
    rintro _ ⟨⟨j, hj, rfl⟩, hja⟩
    rw [hloc j hj] at hja
    rw [huniq j ⟨hj, hja⟩]

end Names

/-! ## The part of a heap in a set of cells -/

open Classical in
/-- The cells of `h` that are in `S`. -/
noncomputable def Heap.restrict (h : Heap α β) (S : Set α) : Heap α β :=
  fun a => if a ∈ S then h a else none

namespace Heap

variable {h : Heap α β} {S T : Set α}

theorem restrict_of_mem {a : α} (ha : a ∈ S) : h.restrict S a = h a := if_pos ha

theorem restrict_of_notMem {a : α} (ha : a ∉ S) : h.restrict S a = none := if_neg ha

theorem restrict_part (h : Heap α β) (S : Set α) : Part (h.restrict S) h := by
  intro a b hb
  by_cases ha : a ∈ S
  · rw [restrict_of_mem ha] at hb
    exact hb
  · rw [restrict_of_notMem ha] at hb
    exact absurd hb (Option.some_ne_none b).symm

theorem restrict_empty (h : Heap α β) : h.restrict ∅ = ∅ :=
  funext fun a => restrict_of_notMem (Set.notMem_empty a)

theorem restrict_univ (h : Heap α β) : h.restrict Set.univ = h :=
  funext fun _ => restrict_of_mem trivial

theorem restrict_singleton [DecidableEq α] {a : α} {b : β} (ha : h a = some b) :
    h.restrict {a} = single a b := by
  funext x
  by_cases hx : x = a
  · rw [restrict_of_mem (Set.mem_singleton_iff.mpr hx), hx, single_self, ha]
  · rw [restrict_of_notMem (Set.mem_singleton_iff.not.mpr hx), single_ne b hx]

theorem restrict_union : h.restrict (S ∪ T) = h.restrict S ∪ h.restrict T := by
  funext a
  by_cases hS : a ∈ S
  · rw [restrict_of_mem (Set.mem_union_left T hS), union_apply, restrict_of_mem hS]
    by_cases hT : a ∈ T
    · rw [restrict_of_mem hT, Option.or_self]
    · rw [restrict_of_notMem hT, Option.or_none]
  · rw [union_apply, restrict_of_notMem hS, Option.none_or]
    by_cases hT : a ∈ T
    · rw [restrict_of_mem (Set.mem_union_right S hT), restrict_of_mem hT]
    · rw [restrict_of_notMem ((Set.mem_union a S T).not.mpr fun hu => hu.elim hS hT),
        restrict_of_notMem hT]

theorem restrict_apart (hd : ∀ ⦃a⦄, a ∈ S → a ∉ T) : Apart (h.restrict S) (h.restrict T) := by
  intro a
  by_cases hS : a ∈ S
  · exact Or.inr (restrict_of_notMem (hd hS))
  · exact Or.inl (restrict_of_notMem hS)

end Heap

/-- Disjoint sets of cells have separate owners. -/
theorem Assn.mul_restrict {h : Heap α β} {P Q : Assn α β} {S T : Set α} (hd : ∀ ⦃a⦄, a ∈ S → a ∉ T)
    (hP : P (h.restrict S)) (hQ : Q (h.restrict T)) : (P * Q) (h.restrict (S ∪ T)) := by
  rw [Heap.restrict_union]
  exact mul_intro (Heap.restrict_apart hd) hP hQ

theorem Assn.prod_restrict {τ : Type} [DecidableEq τ] {h : Heap α β} {P : τ → Assn α β}
    {S : τ → Set α} (s : Finset τ) (hP : ∀ i ∈ s, P i (h.restrict (S i)))
    (hd : ∀ i ∈ s, ∀ j ∈ s, i ≠ j → ∀ ⦃a⦄, a ∈ S i → a ∉ S j) :
    (∏ i ∈ s, P i) (h.restrict (⋃ i ∈ s, S i)) := by
  induction s using Finset.induction_on with
  | empty =>
    rw [Finset.prod_empty, Assn.one_def, ← Heap.restrict_empty h]
    congr 1
    simp
  | insert j s hj ih =>
    rw [Finset.prod_insert hj, Finset.set_biUnion_insert]
    apply mul_restrict
    · intro a ha hu
      obtain ⟨i, hi, hai⟩ := Set.mem_iUnion₂.mp hu
      exact hd j (Finset.mem_insert_self j s) i (Finset.mem_insert_of_mem hi) (fun h => hj (h ▸ hi))
        ha hai
    · exact hP j (Finset.mem_insert_self j s)
    · exact ih (fun i hi => hP i (Finset.mem_insert_of_mem hi))
        fun i hi k hk => hd i (Finset.mem_insert_of_mem hi) k (Finset.mem_insert_of_mem hk)

end Xv6.Lib.Sep
