import Mathlib.Algebra.Order.BigOperators.Group.Finset

/-!
# Separation logic over a memory of cells

A heap is the part of a memory that somebody owns. Assertions about heaps form a
commutative monoid: the product is the separating conjunction and the unit owns
nothing, so that a family of owners is a `Finset` product and Mathlib's lemmas
about products split, join and reindex it. `Triple` is a Hoare triple for a
program that may fail; it promises that the program does not fail, keeps a given
invariant of the state, and leaves every frame alone.
-/
namespace Xv6.Lib.Sep

set_option autoImplicit false

variable {α β : Type}

/-- The owned cells, with their contents. -/
def Heap (α β : Type) : Type := α → Option β

namespace Heap

instance : EmptyCollection (Heap α β) := ⟨fun _ => none⟩

instance : Union (Heap α β) := ⟨fun g h a => (g a).or (h a)⟩

/-- No cell is in both. -/
def Apart (g h : Heap α β) : Prop := ∀ a, g a = none ∨ h a = none

def single [DecidableEq α] (a : α) (b : β) : Heap α β := fun x => if x = a then some b else none

/-- The heap with the cell `a` overwritten. -/
def set [DecidableEq α] (h : Heap α β) (a : α) (b : β) : Heap α β :=
  fun x => if x = a then some b else h x

theorem set_self [DecidableEq α] (h : Heap α β) (a : α) (b : β) : h.set a b a = some b := if_pos rfl

theorem set_ne [DecidableEq α] (h : Heap α β) {a x : α} (b : β) (hx : x ≠ a) :
    h.set a b x = h x := if_neg hx

theorem empty_apply (a : α) : (∅ : Heap α β) a = none := rfl

theorem union_apply (g h : Heap α β) (a : α) : (g ∪ h) a = (g a).or (h a) := rfl

theorem single_self [DecidableEq α] (a : α) (b : β) : single a b a = some b := if_pos rfl

theorem single_ne [DecidableEq α] {a x : α} (b : β) (h : x ≠ a) : single a b x = none := if_neg h

theorem empty_union (h : Heap α β) : ∅ ∪ h = h := by
  funext a
  rw [union_apply, empty_apply, Option.none_or]

theorem union_assoc (f g h : Heap α β) : f ∪ g ∪ h = f ∪ (g ∪ h) := by
  funext a
  simp only [union_apply, Option.or_assoc]

theorem empty_apart (h : Heap α β) : Apart ∅ h := fun _ => Or.inl rfl

theorem Apart.symm {g h : Heap α β} (hd : Apart g h) : Apart h g := fun a => (hd a).symm

theorem Apart.union_comm {g h : Heap α β} (hd : Apart g h) : g ∪ h = h ∪ g := by
  funext a
  rw [union_apply, union_apply]
  cases hd a with
  | inl hg => rw [hg, Option.none_or, Option.or_none]
  | inr hh => rw [hh, Option.none_or, Option.or_none]

theorem union_eq_none {g h : Heap α β} {a : α} : (g ∪ h) a = none ↔ g a = none ∧ h a = none := by
  rw [union_apply, Option.or_eq_none_iff]

theorem apart_union_left {f g h : Heap α β} : Apart (f ∪ g) h ↔ Apart f h ∧ Apart g h := by
  simp only [Apart, union_eq_none]
  constructor
  · intro hd
    exact ⟨fun a => (hd a).imp_left And.left, fun a => (hd a).imp_left And.right⟩
  · intro hd a
    have h1 := hd.1 a
    have h2 := hd.2 a
    tauto

theorem apart_union_right {f g h : Heap α β} : Apart f (g ∪ h) ↔ Apart f g ∧ Apart f h := by
  constructor
  · intro hd
    have h := apart_union_left.mp hd.symm
    exact ⟨h.1.symm, h.2.symm⟩
  · intro hd
    exact (apart_union_left.mpr ⟨hd.1.symm, hd.2.symm⟩).symm

theorem union_of_some_left {g h : Heap α β} {a : α} {b : β} (hg : g a = some b) :
    (g ∪ h) a = some b := by
  rw [union_apply, hg, Option.some_or]

theorem Apart.union_of_some_right {g h : Heap α β} (hd : Apart g h) {a : α} {b : β}
    (hh : h a = some b) : (g ∪ h) a = some b := by
  rw [hd.union_comm]
  exact union_of_some_left hh

end Heap

/-- What a heap may look like. -/
def Assn (α β : Type) : Type := Heap α β → Prop

namespace Assn

open Heap

instance : PartialOrder (Assn α β) := inferInstanceAs (PartialOrder (Heap α β → Prop))

/-- Nothing is owned. -/
instance : One (Assn α β) := ⟨fun h => h = ∅⟩

/-- The heap falls into two parts, one for each side. -/
instance : Mul (Assn α β) := ⟨fun P Q h => ∃ g k, Apart g k ∧ h = g ∪ k ∧ P g ∧ Q k⟩

theorem le_def {P Q : Assn α β} : P ≤ Q ↔ ∀ h, P h → Q h := Iff.rfl

theorem one_def {h : Heap α β} : (1 : Assn α β) h ↔ h = ∅ := Iff.rfl

theorem mul_def {P Q : Assn α β} {h : Heap α β} :
    (P * Q) h ↔ ∃ g k, Apart g k ∧ h = g ∪ k ∧ P g ∧ Q k := Iff.rfl

theorem mul_intro {P Q : Assn α β} {g k : Heap α β} (hd : Apart g k) (hP : P g) (hQ : Q k) :
    (P * Q) (g ∪ k) := ⟨g, k, hd, rfl, hP, hQ⟩

private theorem mul_comm_le (P Q : Assn α β) : P * Q ≤ Q * P := by
  rintro h ⟨g, k, hd, rfl, hP, hQ⟩
  rw [hd.union_comm]
  exact mul_intro hd.symm hQ hP

private theorem mul_assoc_le (P Q R : Assn α β) : P * Q * R ≤ P * (Q * R) := by
  rintro h ⟨-, r, hd, rfl, ⟨p, q, hpq, rfl, hP, hQ⟩, hR⟩
  have hd := apart_union_left.mp hd
  rw [Heap.union_assoc]
  exact mul_intro (apart_union_right.mpr ⟨hpq, hd.1⟩) hP (mul_intro hd.2 hQ hR)

private theorem one_mul_eq (P : Assn α β) : 1 * P = P := by
  apply le_antisymm
  · rintro h ⟨g, k, -, rfl, rfl, hP⟩
    rw [empty_union]
    exact hP
  · intro h hP
    rw [← empty_union h]
    exact mul_intro (empty_apart h) rfl hP

private theorem mul_comm_eq (P Q : Assn α β) : P * Q = Q * P :=
  le_antisymm (mul_comm_le P Q) (mul_comm_le Q P)

instance : CommMonoid (Assn α β) where
  mul_assoc P Q R := by
    apply le_antisymm (mul_assoc_le P Q R)
    rw [mul_comm_eq P, mul_comm_eq Q, mul_comm_eq _ R, mul_comm_eq P]
    exact mul_assoc_le R Q P
  one_mul := one_mul_eq
  mul_one P := by rw [mul_comm_eq, one_mul_eq]
  mul_comm := mul_comm_eq

instance : IsOrderedMonoid (Assn α β) where
  mul_le_mul_left P Q hPQ R := by
    rintro h ⟨g, k, hd, rfl, hP, hR⟩
    exact mul_intro hd (hPQ g hP) hR

theorem mul_left {P P' Q : Assn α β} {h : Heap α β} (hP : P ≤ P') (hh : (P * Q) h) :
    (P' * Q) h := mul_le_mul' hP le_rfl h hh

theorem mul_right {P Q Q' : Assn α β} {h : Heap α β} (hQ : Q ≤ Q') (hh : (P * Q) h) :
    (P * Q') h := mul_le_mul' le_rfl hQ h hh

/-- A fact that needs no memory. -/
def fact (φ : Prop) : Assn α β := fun h => φ ∧ h = ∅

/-- Some instance of a family holds. -/
def any {ι : Type} (P : ι → Assn α β) : Assn α β := fun h => ∃ i, P i h

def either (P Q : Assn α β) : Assn α β := fun h => P h ∨ Q h

/-- Exactly the cell `a`, with content `b`. -/
def cell [DecidableEq α] (a : α) (b : β) : Assn α β := fun h => h = single a b

theorem fact_mul {φ : Prop} {P : Assn α β} {h : Heap α β} :
    (fact φ * P : Assn α β) h ↔ φ ∧ P h := by
  constructor
  · rintro ⟨g, k, -, rfl, ⟨hφ, rfl⟩, hP⟩
    rw [empty_union]
    exact ⟨hφ, hP⟩
  · intro hP
    rw [← empty_union h]
    exact mul_intro (empty_apart h) ⟨hP.1, rfl⟩ hP.2

theorem fact_true {φ : Prop} (hφ : φ) : (fact φ : Assn α β) = 1 :=
  le_antisymm (fun _ h => h.2) fun _ h => ⟨hφ, h⟩

theorem le_fact_mul {φ : Prop} {P Q : Assn α β} (hφ : φ) (h : P ≤ Q) : P ≤ fact φ * Q := by
  rw [fact_true hφ, one_mul]
  exact h

theorem fact_mul_le {φ : Prop} {P Q : Assn α β} (h : φ → P ≤ Q) : fact φ * P ≤ Q :=
  fun _ hP => h (fact_mul.mp hP).1 _ (fact_mul.mp hP).2

theorem any_mul {ι : Type} (P : ι → Assn α β) (Q : Assn α β) :
    any P * Q = any fun i => P i * Q := by
  apply le_antisymm
  · rintro h ⟨g, k, hd, rfl, ⟨i, hP⟩, hQ⟩
    exact ⟨i, mul_intro hd hP hQ⟩
  · rintro h ⟨i, g, k, hd, rfl, hP, hQ⟩
    exact mul_intro hd ⟨i, hP⟩ hQ

theorem le_any {ι : Type} {P : Assn α β} {Q : ι → Assn α β} (i : ι) (h : P ≤ Q i) :
    P ≤ any Q := fun g hP => ⟨i, h g hP⟩

theorem any_le {ι : Type} {P : ι → Assn α β} {Q : Assn α β} (h : ∀ i, P i ≤ Q) :
    any P ≤ Q := by
  rintro g ⟨i, hP⟩
  exact h i g hP

theorem either_mul (P Q R : Assn α β) : either P Q * R = either (P * R) (Q * R) := by
  apply le_antisymm
  · rintro h ⟨g, k, hd, rfl, hP | hQ, hR⟩
    · exact Or.inl (mul_intro hd hP hR)
    · exact Or.inr (mul_intro hd hQ hR)
  · rintro h (⟨g, k, hd, rfl, hP, hR⟩ | ⟨g, k, hd, rfl, hQ, hR⟩)
    · exact mul_intro hd (Or.inl hP) hR
    · exact mul_intro hd (Or.inr hQ) hR

theorem either_le {P Q R : Assn α β} (hP : P ≤ R) (hQ : Q ≤ R) : either P Q ≤ R :=
  fun h => Or.rec (hP h) (hQ h)

theorem le_either_left (P Q : Assn α β) : P ≤ either P Q := fun _ => Or.inl

theorem le_either_right (P Q : Assn α β) : Q ≤ either P Q := fun _ => Or.inr

/-- Exactly the heap `g`. -/
def exactly (g : Heap α β) : Assn α β := fun h => h = g

theorem exactly_le {g : Heap α β} {P : Assn α β} (h : P g) : exactly g ≤ P := by
  rintro _ rfl
  exact h

theorem exactly_mul_le (g k : Heap α β) : exactly g * exactly k ≤ exactly (g ∪ k) := by
  rintro h ⟨_, _, -, rfl, rfl, rfl⟩
  exact rfl

/-- A family of instances, one for each member of `s`. -/
theorem prod_any_le {ι τ : Type} [DecidableEq ι] [Inhabited τ] {P : ι → τ → Assn α β} (s : Finset ι) :
    ∏ i ∈ s, any (P i) ≤ any fun f : ι → τ => ∏ i ∈ s, P i (f i) := by
  induction s using Finset.induction_on with
  | empty => exact le_any (fun _ => default) le_rfl
  | insert j s hj ih =>
    rw [Finset.prod_insert hj]
    refine le_trans (mul_le_mul' le_rfl ih) ?_
    rw [any_mul]
    refine any_le fun x => ?_
    rw [mul_comm, any_mul]
    refine any_le fun f => le_any (Function.update f j x) (le_of_eq ?_)
    rw [Finset.prod_insert hj, Function.update_self, mul_comm]
    congr 1
    refine Finset.prod_congr rfl fun i hi => ?_
    have hne : i ≠ j := fun h => hj (h ▸ hi)
    rw [Function.update_of_ne hne]

/-- An assertion that says which heap it is. -/
def Exact (P : Assn α β) : Prop := ∀ g h, P g → P h → g = h

theorem Exact.of_fact {φ : Prop} {P : Assn α β} (hP : Exact P) : Exact (fact φ * P) :=
  fun g h hg hh => hP g h (fact_mul.mp hg).2 (fact_mul.mp hh).2

theorem Exact.prod {ι : Type} [DecidableEq ι] {P : ι → Assn α β} (hP : ∀ i, Exact (P i))
    (s : Finset ι) : Exact (∏ i ∈ s, P i) := by
  induction s using Finset.induction_on with
  | empty =>
    intro g h hg hh
    rw [Finset.prod_empty] at hg hh
    rw [one_def.mp hg, one_def.mp hh]
  | insert j s hj ih =>
    rw [Finset.prod_insert hj]
    rintro _ _ ⟨g, k, -, rfl, hg, hk⟩ ⟨g', k', -, rfl, hg', hk'⟩
    rw [hP j g g' hg hg', ih k k' hk hk']

section Cell

variable [DecidableEq α]

theorem exact_cell (a : α) (b : β) : Exact (cell a b) := fun _ _ hg hh => hg.trans hh.symm

theorem cell_mul_get {a : α} {b : β} {P : Assn α β} {h : Heap α β} (hc : (cell a b * P) h) :
    h a = .some b := by
  obtain ⟨g, k, -, rfl, rfl, -⟩ := hc
  exact union_of_some_left (single_self a b)

/-- Who owns a cell may overwrite it. -/
theorem cell_mul_set {a : α} {b : β} (b' : β) {P : Assn α β} {h : Heap α β}
    (hc : (cell a b * P) h) : (cell a b' * P) (h.set a b') := by
  obtain ⟨g, k, hd, rfl, rfl, hP⟩ := hc
  have hk : k a = none := (hd a).resolve_left (by rw [single_self]; exact Option.some_ne_none b)
  refine ⟨single a b', k, fun x => ?_, ?_, rfl, hP⟩
  · by_cases hx : x = a
    · rw [hx]
      exact Or.inr hk
    · exact Or.inl (single_ne b' hx)
  · funext x
    by_cases hx : x = a
    · rw [hx, set_self, union_of_some_left (single_self a b')]
    · rw [set_ne _ _ hx, union_apply, union_apply, single_ne b hx, single_ne b' hx]

end Cell

/-- A family of owners, each of at least one cell, owns as many cells as it has members. -/
theorem prod_card [DecidableEq α] {ι : Type} [DecidableEq ι] {P : ι → Assn α β} (s : Finset ι)
    (hP : ∀ i ∈ s, ∀ h, P i h → ∃ a, h a ≠ none) {h : Heap α β} (hs : (∏ i ∈ s, P i) h) :
    ∃ t : Finset α, t.card = s.card ∧ ∀ a ∈ t, h a ≠ none := by
  induction s using Finset.induction_on generalizing h with
  | empty => exact ⟨∅, rfl, fun a ha => absurd ha (Finset.notMem_empty a)⟩
  | insert i s hi ih =>
    rw [Finset.prod_insert hi] at hs
    obtain ⟨g, k, hd, rfl, hg, hk⟩ := hs
    obtain ⟨a, ha⟩ := hP i (Finset.mem_insert_self i s) g hg
    obtain ⟨t, ht, hmem⟩ := ih (fun j hj => hP j (Finset.mem_insert_of_mem hj)) hk
    have hka : k a = none := (hd a).resolve_left ha
    have hat : a ∉ t := fun hat => hmem a hat hka
    refine ⟨insert a t, ?_, fun b hb => ?_⟩
    · rw [Finset.card_insert_of_notMem hat, Finset.card_insert_of_notMem hi, ht]
    · rw [Ne, union_eq_none]
      cases Finset.mem_insert.mp hb with
      | inl h => exact fun hn => ha (h ▸ hn.1)
      | inr h => exact fun hn => hmem b h hn.2

end Assn

/-! ## Triples -/

open Assn

section Triple

variable {σ ε γ δ : Type} (view : σ → Heap α β) (inv inv' : σ → Assn α β)

/-- Run where `P` is owned, beside the invariant `inv` and any frame, `f` does not fail;
it ends with `Q` of its result owned instead, beside the invariant `inv'`. -/
def Triple (P : Assn α β) (f : StateT σ (Except ε) γ) (Q : γ → Assn α β) : Prop :=
  ∀ (R : Assn α β) (s : σ), (P * (inv s * R)) (view s) →
    ∃ c t, f s = .ok (c, t) ∧ (Q c * (inv' t * R)) (view t)

variable {view inv inv'} {inv'' : σ → Assn α β} {P P' F : Assn α β} {Q Q' : γ → Assn α β}
  {R : δ → Assn α β} {f : StateT σ (Except ε) γ} {g : γ → StateT σ (Except ε) δ}

theorem Triple.conseq (h : Triple view inv inv' P f Q) (hP : P' ≤ P) (hQ : ∀ c, Q c ≤ Q' c) :
    Triple view inv inv' P' f Q' := by
  intro R s hs
  obtain ⟨c, t, hf, ht⟩ := h R s (Assn.mul_left hP hs)
  exact ⟨c, t, hf, Assn.mul_left (hQ c) ht⟩

theorem Triple.post (h : Triple view inv inv' P f Q) (hQ : ∀ c, Q c ≤ Q' c) :
    Triple view inv inv' P f Q' := h.conseq le_rfl hQ

theorem Triple.pre (h : Triple view inv inv' P f Q) (hP : P' ≤ P) :
    Triple view inv inv' P' f Q := h.conseq hP fun _ => le_rfl

/-- Keep a weaker invariant. -/
theorem Triple.weaken (h : Triple view inv inv' P f Q) (hi : ∀ s, inv' s ≤ inv'' s) :
    Triple view inv inv'' P f Q := by
  intro R s hs
  obtain ⟨c, t, hf, ht⟩ := h R s hs
  exact ⟨c, t, hf, Assn.mul_right (mul_le_mul' (hi t) le_rfl) ht⟩

theorem Triple.frame (h : Triple view inv inv' P f Q) (F : Assn α β) :
    Triple view inv inv' (P * F) f fun c => Q c * F := by
  intro R s hs
  rw [mul_assoc, mul_left_comm F] at hs
  obtain ⟨c, t, hf, ht⟩ := h _ s hs
  refine ⟨c, t, hf, ?_⟩
  rw [mul_assoc, mul_left_comm F]
  exact ht

theorem Triple.ret (c : γ) (h : P ≤ Q c) :
    Triple view inv inv P (pure c : StateT σ (Except ε) γ) Q := by
  intro R s hs
  exact ⟨c, s, rfl, Assn.mul_left h hs⟩

theorem Triple.bind (hf : Triple view inv inv' P f Q)
    (hg : ∀ c, Triple view inv' inv'' (Q c) (g c) R) : Triple view inv inv'' P (f >>= g) R := by
  intro F s hs
  obtain ⟨c, t, hc, ht⟩ := hf F s hs
  obtain ⟨d, u, hd, hu⟩ := hg c F t ht
  refine ⟨d, u, ?_, hu⟩
  show (f s >>= fun p => g p.1 p.2) = _
  rw [hc]
  exact hd

/-- Call `f` on the part `P` of what is owned, and go on with the rest `F` beside. -/
theorem Triple.call (hf : Triple view inv inv' P f Q) (hP : P' = P * F)
    (hg : ∀ c, Triple view inv' inv'' (Q c * F) (g c) R) :
    Triple view inv inv'' P' (f >>= g) R := by
  rw [hP]
  exact (hf.frame F).bind hg

theorem Triple.of_fact {φ : Prop} (h : φ → Triple view inv inv' P f Q) :
    Triple view inv inv' (fact φ * P) f Q := by
  intro R s hs
  rw [mul_assoc] at hs
  have hs := fact_mul.mp hs
  exact h hs.1 R s hs.2

theorem Triple.of_any {ι : Type} {P : ι → Assn α β} (h : ∀ i, Triple view inv inv' (P i) f Q) :
    Triple view inv inv' (any P) f Q := by
  intro R s hs
  rw [any_mul] at hs
  obtain ⟨i, hs⟩ := hs
  exact h i R s hs

theorem Triple.of_either {P₁ P₂ : Assn α β} (h₁ : Triple view inv inv' P₁ f Q)
    (h₂ : Triple view inv inv' P₂ f Q) : Triple view inv inv' (either P₁ P₂) f Q := by
  intro R s hs
  rw [either_mul] at hs
  exact hs.elim (h₁ R s) (h₂ R s)

/-- A program that leaves the state as it is. -/
def Reads (f : StateT σ (Except ε) γ) : Prop := ∀ s c t, f s = .ok (c, t) → t = s

theorem Reads.pure (c : γ) : Reads (pure c : StateT σ (Except ε) γ) := by
  intro s d t h
  cases h
  rfl

theorem Reads.bind (hf : Reads f) (hg : ∀ c, Reads (g c)) : Reads (f >>= g) := by
  intro s d t h
  have h : (f s >>= fun p => g p.1 p.2) = .ok (d, t) := h
  cases hr : f s with
  | error e =>
    rw [hr] at h
    cases h
  | ok x =>
    rw [hr] at h
    rw [← hf s x.1 x.2 hr]
    exact hg x.1 x.2 d t h

/-- A program that leaves the state as it is keeps all that is owned, and what it finds out about
it is a fact. -/
theorem Triple.keep {φ : γ → Prop} (h : Triple view inv inv' P f Q) (hr : Reads f) (hF : F ≤ P)
    (hQ : ∀ c, Q c ≤ fact (φ c) * Q' c) : Triple view inv inv F f fun c => fact (φ c) * F := by
  intro R s hs
  obtain ⟨c, t, hf, ht⟩ := h R s (Assn.mul_left hF hs)
  obtain rfl := hr s c t hf
  have hφ := Assn.mul_left (hQ c) ht
  rw [mul_assoc] at hφ
  refine ⟨c, t, hf, ?_⟩
  rw [mul_assoc]
  exact fact_mul.mpr ⟨(fact_mul.mp hφ).1, hs⟩

end Triple

end Xv6.Lib.Sep
