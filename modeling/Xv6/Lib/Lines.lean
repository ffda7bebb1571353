import Mathlib.Data.List.Basic

/-!
# Texts as terminated lines

`split nl s` are the lines of `s` that the terminator `nl` ends, without it, and what follows
the last of them. Reading a text in two parts, the unfinished line of the first part is the
beginning of the second.
-/
namespace Xv6.Lib.Lines

set_option autoImplicit false

variable {α : Type*} [DecidableEq α] {nl : α}

def split (nl : α) : List α → List (List α) × List α
  | [] => ([], [])
  | a :: s =>
    if a = nl then ([] :: (split nl s).1, (split nl s).2)
    else
      match (split nl s).1 with
      | [] => ([], a :: (split nl s).2)
      | l :: ls => ((a :: l) :: ls, (split nl s).2)

@[simp] theorem split_nil : split nl [] = ([], []) := rfl

theorem split_of_notMem {s : List α} (h : nl ∉ s) : split nl s = ([], s) := by
  induction s with
  | nil => rfl
  | cons a s ih =>
    have ha : a ≠ nl := fun e => h (by simp [e])
    simp [split, ha, ih fun e => h (List.mem_cons_of_mem a e)]

theorem split_line {l s : List α} (h : nl ∉ l) :
    split nl (l ++ nl :: s) = (l :: (split nl s).1, (split nl s).2) := by
  induction l with
  | nil => simp [split]
  | cons a l ih =>
    have ha : a ≠ nl := fun e => h (by simp [e])
    simp [split, ha, ih fun e => h (List.mem_cons_of_mem a e)]

/-- A text is an unfinished line, or a line and another text. -/
theorem line_induction {P : List α → Prop} (nl : α) (tail : ∀ s, nl ∉ s → P s)
    (line : ∀ l s, nl ∉ l → P s → P (l ++ nl :: s)) (s : List α) : P s := by
  induction hn : s.length using Nat.strongRecOn generalizing s with
  | _ n ih =>
    subst hn
    by_cases h : nl ∈ s
    · obtain ⟨l, t, rfl, hl⟩ := List.eq_append_cons_of_mem h
      refine line l t hl (ih t.length ?_ t rfl)
      rw [List.length_append, List.length_cons]
      omega
    · exact tail s h

theorem notMem_tail (s : List α) : nl ∉ (split nl s).2 := by
  induction s using line_induction nl with
  | tail s h => rwa [split_of_notMem h]
  | line l s hl ih => rwa [split_line hl]

theorem split_append (s t : List α) :
    split nl (s ++ t) = ((split nl s).1 ++ (split nl ((split nl s).2 ++ t)).1,
      (split nl ((split nl s).2 ++ t)).2) := by
  induction s using line_induction nl with
  | tail s h => rw [split_of_notMem h, List.nil_append]
  | line l s hl ih =>
    rw [List.append_assoc, List.cons_append, split_line hl, split_line hl, ih]
    rfl

/-- The lines, their terminators and the unfinished line make up the text. -/
theorem flatMap_split (s : List α) :
    (split nl s).1.flatMap (· ++ [nl]) ++ (split nl s).2 = s := by
  induction s using line_induction nl with
  | tail s h => rw [split_of_notMem h, List.flatMap_nil, List.nil_append]
  | line l s hl ih =>
    rw [split_line hl, List.flatMap_cons, List.append_assoc, ih, List.append_assoc]
    rfl

theorem length_line_lt {s l : List α} (h : l ∈ (split nl s).1) : l.length < s.length := by
  induction s using line_induction nl with
  | tail s hs =>
    rw [split_of_notMem hs] at h
    cases h
  | line k s hk ih =>
    rw [split_line hk, List.mem_cons] at h
    rw [List.length_append, List.length_cons]
    obtain rfl | h := h
    · omega
    · have := ih h
      omega

theorem mem_of_mem_tail {s : List α} {a : α} (h : a ∈ (split nl s).2) : a ∈ s := by
  rw [← flatMap_split s]
  exact List.mem_append_right _ h

theorem length_tail_le (s : List α) : (split nl s).2.length ≤ s.length := by
  have h : ((split nl s).1.flatMap (· ++ [nl]) ++ (split nl s).2).length = s.length := by
    rw [flatMap_split]
  rw [List.length_append] at h
  omega

end Xv6.Lib.Lines
