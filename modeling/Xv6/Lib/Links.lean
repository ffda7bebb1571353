import Mathlib.Data.List.Nodup

/-!
# Linked lists in memory

`Path next a l b` says that following `next` from `a` visits the nodes `l`, in this order, and
then arrives at `b`. A circular list through `a` is a path from `a` to `a`. `search` follows
the links to the first node that passes a test. `Circle` is a circular list with links in both
directions.
-/
namespace Xv6.Lib

open Function

set_option autoImplicit false

variable {α : Type*}

def Path (next : α → α) : α → List α → α → Prop
  | a, [], b => a = b
  | a, x :: l, b => x = a ∧ Path next (next a) l b

namespace Path

variable {next next' : α → α} {a b c x : α} {l l₁ l₂ : List α}

theorem append : Path next a (l₁ ++ l₂) c ↔ ∃ b, Path next a l₁ b ∧ Path next b l₂ c := by
  induction l₁ generalizing a with
  | nil => simp [Path]
  | cons x l₁ ih => simp [Path, ih, and_assoc]

theorem trans (h₁ : Path next a l₁ b) (h₂ : Path next b l₂ c) : Path next a (l₁ ++ l₂) c :=
  append.mpr ⟨b, h₁, h₂⟩

theorem snoc : Path next a (l ++ [x]) b ↔ Path next a l x ∧ next x = b := by
  rw [append]
  constructor
  · rintro ⟨_, h, rfl, hb⟩
    exact ⟨h, hb⟩
  · rintro ⟨h, hb⟩
    exact ⟨x, h, rfl, hb⟩

/-- A path does not see links of other nodes. -/
theorem congr (h : Path next a l b) (hn : ∀ x ∈ l, next' x = next x) : Path next' a l b := by
  induction l generalizing a with
  | nil => exact h
  | cons x l ih =>
    obtain ⟨rfl, h⟩ := h
    refine ⟨rfl, ?_⟩
    rw [hn x List.mem_cons_self]
    exact ih h fun y hy => hn y (List.mem_cons_of_mem _ hy)

variable [DecidableEq α]

theorem update (h : Path next a l b) (hx : x ∉ l) (y : α) :
    Path (update next x y) a l b := by
  refine h.congr ?_
  intro z hz
  exact update_of_ne (by rintro rfl; exact hx hz) _ _

end Path

/-- Follow the links to a node that passes the test, in at most `n` steps. -/
def search (next : α → α) (found : α → Bool) : Nat → α → Option α
  | 0, _ => none
  | n + 1, a => if found a then some a else search next found n (next a)

section Search

variable {next : α → α} {found : α → Bool} {a b : α} {l : List α} {n : Nat}

theorem search_path (h : Path next a l b) (hl : ∀ x ∈ l, found x = false) :
    search next found (l.length + n) a = search next found n b := by
  induction l generalizing a with
  | nil =>
    obtain rfl := h
    simp
  | cons x l ih =>
    obtain ⟨rfl, h⟩ := h
    rw [List.length_cons, Nat.add_right_comm, search, hl x List.mem_cons_self]
    exact ih h fun y hy => hl y (List.mem_cons_of_mem _ hy)

/-- The search ends at the first node that passes, whatever steps are left over. -/
theorem search_of_path (h : Path next a l b) (hl : ∀ x ∈ l, found x = false)
    (hb : found b = true) (hn : l.length < n) : search next found n a = some b := by
  obtain ⟨k, rfl⟩ : ∃ k, n = l.length + (k + 1) := ⟨n - l.length - 1, by omega⟩
  rw [search_path h hl, search, if_pos hb]

/-- On a circular list the search for the only node that passes ends, from any node. -/
theorem search_circle {p : α} {l₁ l₂ : List α} (h : Path next a (l₁ ++ p :: l₂) a)
    (hp : found p = true) (hne : ∀ x ∈ l₁ ++ l₂, found x = false)
    (hb : b ∈ l₁ ++ p :: l₂) (hn : l₁.length + l₂.length + 1 ≤ n) :
    search next found n b = some p := by
  obtain ⟨q, h₁, h₂⟩ := Path.append.mp h
  obtain rfl : p = q := h₂.1
  rcases List.mem_append.mp hb with hb | hb
  · -- the start is before the node
    obtain ⟨c, hc⟩ := List.append_of_mem hb
    obtain ⟨k, rfl⟩ := hc
    obtain ⟨r, -, hr⟩ := Path.append.mp h₁
    obtain rfl : b = r := hr.1
    refine search_of_path hr ?_ hp ?_
    · intro x hx
      exact hne x (List.mem_append_left _ (List.mem_append_right _ hx))
    · simp only [List.length_append, List.length_cons] at hn ⊢
      omega
  · rcases List.mem_cons.mp hb with rfl | hb
    · obtain ⟨k, rfl⟩ : ∃ k, n = k + 1 := ⟨n - 1, by omega⟩
      rw [search, if_pos hp]
    · -- the start is behind the node: go round
      obtain ⟨c, k, rfl⟩ := List.append_of_mem hb
      obtain ⟨r, -, hr⟩ := Path.append.mp h₂.2
      obtain rfl : b = r := hr.1
      refine search_of_path (hr.trans h₁) ?_ hp ?_
      · intro x hx
        refine hne x ?_
        simp only [List.mem_append, List.mem_cons] at hx ⊢
        tauto
      · simp only [List.length_append, List.length_cons] at hn ⊢
        omega

end Search

/-- The first of the nodes visited is where the path starts. -/
theorem Path.start {next : α → α} {a b y : α} {l m : List α} (h : Path next a l b)
    (hs : l ++ [b] = y :: m) : a = y := by
  cases l with
  | nil =>
    obtain rfl : a = b := h
    exact (List.cons.inj hs).1
  | cons x l =>
    obtain ⟨rfl, -⟩ := h
    exact (List.cons.inj hs).1

/-- A search that stops at `b` in any case: along the path it is `List.find?`. -/
theorem search_until {next : α → α} {found test : α → Bool} {a b : α} {l : List α} {n : Nat}
    (h : Path next a l b) (hb : found b = true) (hl : ∀ x ∈ l, found x = test x)
    (hn : l.length < n) : search next found n a = some ((l.find? test).getD b) := by
  induction l generalizing a n with
  | nil =>
    obtain rfl : a = b := h
    exact search_of_path (l := []) rfl (by simp) hb hn
  | cons x l ih =>
    obtain ⟨rfl, h⟩ := h
    obtain ⟨n, rfl⟩ : ∃ k, n = k + 1 := ⟨n - 1, by simp at hn; omega⟩
    have hx := hl x List.mem_cons_self
    rw [search, List.find?_cons, hx]
    cases test x with
    | true => rfl
    | false => exact ih h (fun y hy => hl y (List.mem_cons_of_mem x hy)) (by simpa using hn)

/-- A circular list through `a`, linked in both directions; `l` are its other nodes in the order
of `next`. -/
structure Circle (next prev : α → α) (a : α) (l : List α) : Prop where
  next_path : Path next a (a :: l) a
  prev_path : Path prev a (a :: l.reverse) a
  nodup : (a :: l).Nodup

namespace Circle

variable {next prev : α → α} {a x : α} {l l₁ l₂ : List α}

/-- The circle of one node. -/
theorem nil (hn : next a = a) (hp : prev a = a) : Circle next prev a [] :=
  ⟨⟨rfl, hn⟩, ⟨rfl, hp⟩, by simp⟩

theorem symm (h : Circle next prev a l) : Circle prev next a l.reverse where
  next_path := h.prev_path
  prev_path := by
    rw [List.reverse_reverse]
    exact h.next_path
  nodup := by
    have hn := h.nodup
    simp only [List.nodup_cons, List.mem_reverse, List.nodup_reverse] at hn ⊢
    exact hn

/-- The predecessor of a node is the one before it in the list. -/
theorem prev_eq {l₀ : List α} {y : α} (h : Circle next prev a (l₁ ++ x :: l₂))
    (hy : a :: l₁ = l₀ ++ [y]) : prev x = y := by
  have hp := h.prev_path.2
  rw [List.reverse_append, List.reverse_cons, List.append_assoc] at hp
  obtain ⟨c, -, hc⟩ := Path.append.mp hp
  obtain ⟨rfl, hc⟩ := hc
  refine hc.start (y := y) (m := l₀.reverse) ?_
  change l₁.reverse ++ [a] = _
  rw [← List.reverse_cons, hy, List.reverse_append]
  rfl

theorem prev_first {l₀ : List α} {y : α} (h : Circle next prev a l) (hy : a :: l = l₀ ++ [y]) :
    prev a = y := by
  refine h.prev_path.2.start (m := l₀.reverse) ?_
  rw [← List.reverse_cons, hy, List.reverse_append]
  rfl

/-- `prev` undoes `next`. -/
theorem prev_next (h : Circle next prev a l) (hx : x ∈ a :: l) : prev (next x) = x := by
  obtain ⟨l₀, l₃, hs⟩ := List.append_of_mem hx
  have hpath := h.next_path
  rw [hs] at hpath
  obtain ⟨c, -, hc⟩ := Path.append.mp hpath
  obtain ⟨rfl, hc⟩ := hc
  cases l₃ with
  | nil =>
    obtain hc : next x = a := hc
    rw [hc]
    exact h.prev_first hs
  | cons z l₃ =>
    obtain ⟨hz, -⟩ := hc
    rw [← hz]
    cases l₀ with
    | nil =>
      obtain ⟨rfl, rfl⟩ := List.cons.inj hs
      exact prev_eq (show Circle next prev a ([] ++ z :: l₃) from h)
        (List.nil_append [a]).symm
    | cons b l₀ =>
      obtain ⟨rfl, rfl⟩ := List.cons.inj hs
      change Circle next prev a (l₀ ++ x :: z :: l₃) at h
      rw [show l₀ ++ x :: z :: l₃ = (l₀ ++ [x]) ++ z :: l₃ by simp] at h
      exact h.prev_eq (show a :: (l₀ ++ [x]) = (a :: l₀) ++ [x] from rfl)

theorem next_prev (h : Circle next prev a l) (hx : x ∈ a :: l) : next (prev x) = x := by
  refine h.symm.prev_next ?_
  simpa using hx

variable [DecidableEq α]

/-- One direction of taking `x` out. -/
theorem path_remove (h : Circle next prev a (l₁ ++ x :: l₂)) :
    Path (update next (prev x) (next x)) a (a :: (l₁ ++ l₂)) a := by
  obtain ⟨l₀, y, hy⟩ : ∃ l₀ y, a :: l₁ = l₀ ++ [y] :=
    ⟨_, _, (List.dropLast_append_getLast (List.cons_ne_nil a l₁)).symm⟩
  have hnext := h.next_path
  have hnodup := h.nodup
  rw [← List.cons_append, hy] at hnext hnodup
  rw [h.prev_eq hy, ← List.cons_append, hy]
  obtain ⟨c, hc, hx, hl₂⟩ := Path.append.mp hnext
  obtain ⟨hl₀, -⟩ := Path.snoc.mp hc
  have hy₀ : y ∉ l₀ ∧ y ∉ l₂ := by
    simp only [List.append_assoc, List.nodup_append, List.cons_append, List.nil_append,
      List.nodup_cons, List.mem_cons] at hnodup
    grind
  subst hx
  refine Path.trans (Path.snoc.mpr ⟨hl₀.update hy₀.1 _, update_self ..⟩) ?_
  exact hl₂.update hy₀.2 _

theorem remove (h : Circle next prev a (l₁ ++ x :: l₂)) :
    Circle (update next (prev x) (next x)) (update prev (next x) (prev x)) a
      (l₁ ++ l₂) where
  next_path := h.path_remove
  prev_path := by
    have hsymm := h.symm
    rw [List.reverse_append, List.reverse_cons, List.append_assoc] at hsymm
    have := hsymm.path_remove
    rwa [List.reverse_append]
  nodup := by
    have hn := h.nodup
    rw [← List.cons_append] at hn ⊢
    exact hn.sublist (List.Sublist.append_left (List.sublist_cons_self x l₂) _)

/-- `x` becomes the first node behind `a`. -/
theorem push (h : Circle next prev a l) (hx : x ∉ a :: l) :
    Circle (update (update next x (next a)) a x)
      (update (update prev x a) (next a) x) a (x :: l) where
  next_path := by
    have hxa : x ≠ a := fun hxa => hx (hxa ▸ List.mem_cons_self)
    have hxl : x ∉ l := fun hxl => hx (List.mem_cons_of_mem a hxl)
    have hal : a ∉ l := (List.nodup_cons.mp h.nodup).1
    refine ⟨rfl, by rw [update_self], ?_⟩
    rw [update_self, update_of_ne hxa, update_self]
    exact (h.next_path.2.update hxl _).update hal _
  prev_path := by
    obtain ⟨l₀, y, hy⟩ : ∃ l₀ y, a :: l.reverse = l₀ ++ [y] :=
      ⟨_, _, (List.dropLast_append_getLast (List.cons_ne_nil a _)).symm⟩
    have hnext : next a = y := h.symm.prev_first hy
    have hmem : x ∉ l₀ ++ [y] := by
      rw [← hy]
      simpa using hx
    have hy₀ : y ∉ l₀ := by
      have hn := h.symm.nodup
      rw [hy, List.nodup_append] at hn
      intro hmem
      exact hn.2.2 y hmem y (List.mem_singleton_self y) rfl
    have hp := h.prev_path
    rw [hy] at hp
    obtain ⟨hl₀, hya⟩ := Path.snoc.mp hp
    rw [hnext, List.reverse_cons, ← List.cons_append, hy]
    refine Path.snoc.mpr ⟨Path.snoc.mpr ⟨?_, update_self ..⟩, ?_⟩
    · exact (hl₀.update (fun h => hmem (List.mem_append_left _ h)) _).update hy₀ _
    · have hxy : x ≠ y := fun h => hmem (by simp [h])
      rw [update_of_ne hxy, update_self]
  nodup := by
    have hn := h.nodup
    simp only [List.nodup_cons, List.mem_cons, not_or] at hn hx ⊢
    exact ⟨⟨Ne.symm hx.1, hn.1⟩, hx.2, hn.2⟩

end Circle

end Xv6.Lib
