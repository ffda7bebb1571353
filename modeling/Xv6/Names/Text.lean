import Xv6.Names.Model
import Mathlib.Data.List.TakeWhile

/-!
# Names in buffers

A buffer of `DIRSIZ` bytes holds the bytes before its first zero. `namecmp`, `strncpy` and
`skipelem` agree on that for names of every length; behind the zero may stand what the buffer held
before.
-/
namespace Xv6.Names

set_option autoImplicit false

/-- The name in a buffer. -/
def text (s : List UInt8) : List UInt8 := (s.takeWhile (· ≠ 0)).take DIRSIZ

theorem takeWhile_cons_zero (s : List UInt8) : (0 :: s).takeWhile (· ≠ 0) = [] := by
  simp

theorem takeWhile_cons_ne {c : UInt8} (hc : c ≠ 0) (s : List UInt8) :
    (c :: s).takeWhile (· ≠ 0) = c :: s.takeWhile (· ≠ 0) := by
  simp [hc]

theorem take_takeWhile_eq_nil_iff (s : List UInt8) (n : Nat) :
    (s.takeWhile (· ≠ 0)).take (n + 1) = [] ↔ s.headD 0 = 0 := by
  cases s with
  | nil => simp
  | cons c s =>
    by_cases hc : c = 0
    · simp [hc]
    · simp [hc]

theorem strncmp_eq_zero_iff (p q : List UInt8) (n : Nat) :
    strncmp p q n = 0 ↔ (p.takeWhile (· ≠ 0)).take n = (q.takeWhile (· ≠ 0)).take n := by
  induction n generalizing p q with
  | zero => simp [strncmp]
  | succ n ih =>
    rw [strncmp]
    by_cases hp : p.headD 0 = 0
    · -- The first string ends here, so the second one has to.
      rw [if_neg (fun h => h.1 hp), (take_takeWhile_eq_nil_iff p n).mpr hp, eq_comm (a := []),
        take_takeWhile_eq_nil_iff, hp, ← UInt8.toNat_inj]
      have : (0 : UInt8).toNat = 0 := rfl
      omega
    · cases p with
      | nil => exact absurd rfl hp
      | cons c p =>
        rw [List.headD_cons] at hp
        rw [List.headD_cons, takeWhile_cons_ne hp, List.take_succ_cons]
        cases q with
        | nil =>
          have hne : c.toNat ≠ (0 : UInt8).toNat := fun h => hp (UInt8.toNat_inj.mp h)
          rw [List.headD_nil, if_neg (fun h => hp h.2)]
          simp only [List.takeWhile_nil, List.take_nil, reduceCtorEq, iff_false]
          omega
        | cons e q =>
          rw [List.headD_cons]
          by_cases hce : c = e
          · subst hce
            rw [if_pos ⟨hp, rfl⟩, takeWhile_cons_ne hp, List.take_succ_cons, List.cons.injEq]
            simpa using ih p q
          · have hne : c.toNat ≠ e.toNat := fun h => hce (UInt8.toNat_inj.mp h)
            rw [if_neg (fun h => hce h.2)]
            constructor
            · intro h
              omega
            · intro h
              by_cases he : e = 0
              · rw [he, takeWhile_cons_zero] at h
                cases h
              · rw [takeWhile_cons_ne he, List.take_succ_cons] at h
                exact absurd (List.cons.inj h).1 hce

theorem namecmp_eq_zero_iff (s t : List UInt8) : namecmp s t = 0 ↔ text s = text t :=
  strncmp_eq_zero_iff s t DIRSIZ

theorem takeWhile_strncpy (t : List UInt8) (n : Nat) :
    (strncpy t n).takeWhile (· ≠ 0) = (t.takeWhile (· ≠ 0)).take n := by
  induction n generalizing t with
  | zero => simp [strncpy]
  | succ n ih =>
    rw [strncpy]
    by_cases ht : t.headD 0 = 0
    · rw [if_neg (not_not.mpr ht), (take_takeWhile_eq_nil_iff t n).mpr ht, List.replicate_succ,
        takeWhile_cons_zero]
    · cases t with
      | nil => exact absurd rfl ht
      | cons c t =>
        rw [List.headD_cons] at ht
        rw [List.headD_cons, if_pos ht, takeWhile_cons_ne ht, takeWhile_cons_ne ht,
          List.take_succ_cons, List.tail_cons, ih]

theorem text_strncpy (t : List UInt8) : text (strncpy t DIRSIZ) = text t := by
  rw [text, takeWhile_strncpy, List.take_take, Nat.min_self, text]

/-- The elements of a path: what stands between the slashes, cut to `DIRSIZ` bytes. -/
def elements (path : List UInt8) : List (List UInt8) :=
  ((path.splitOn slash).filter (· ≠ [])).map (·.take DIRSIZ)

theorem elements_slash (path : List UInt8) : elements (slash :: path) = elements path := by
  unfold elements List.splitOn
  rw [List.splitOnP_cons_eq_if_modifyHead, if_pos (by simp)]
  simp

theorem elements_dropWhile (path : List UInt8) :
    elements (path.dropWhile (· = slash)) = elements path := by
  induction path with
  | nil => rfl
  | cons c path ih =>
    by_cases hc : c = slash
    · rw [List.dropWhile_cons_of_pos (by simpa using hc), ih, hc, elements_slash]
    · rw [List.dropWhile_cons_of_neg (by simpa using hc)]

/-- An element at the start of the path. -/
theorem elements_append {elem rest : List UInt8} (hne : elem ≠ []) (hno : slash ∉ elem)
    (hrest : rest = [] ∨ rest.head? = some slash) :
    elements (elem ++ rest) = elem.take DIRSIZ :: elements rest := by
  have hfree : ∀ x ∈ elem, (x == slash) = false := by
    intro x hx
    have hxs : x ≠ slash := fun h => hno (h ▸ hx)
    simpa using hxs
  obtain hrest | hrest := hrest
  · subst hrest
    unfold elements List.splitOn
    rw [List.append_nil, List.splitOnP_eq_singleton hfree]
    simp [hne]
  · obtain ⟨tail, htail⟩ := List.head?_eq_some_iff.mp hrest
    rw [htail, elements_slash]
    unfold elements List.splitOn
    rw [List.splitOnP_append_cons_of_forall_mem hfree slash (by simp)]
    simp [hne]

theorem dropWhile_slash (path : List UInt8) : (path.dropWhile (· = slash)).head? ≠ some slash := by
  intro h
  have hnot := List.head?_dropWhile_not (· = slash) path
  rw [h] at hnot
  simp at hnot

theorem dropWhile_elem (s : List UInt8) :
    s.dropWhile (· ≠ slash) = [] ∨ (s.dropWhile (· ≠ slash)).head? = some slash := by
  have hnot := List.head?_dropWhile_not (· ≠ slash) s
  cases hd : s.dropWhile (· ≠ slash) with
  | nil => exact .inl rfl
  | cons c t =>
    rw [hd] at hnot
    simp at hnot
    exact .inr (by simp [hnot])

/-- The first element of a path that does not start with a slash. -/
theorem elements_cons {s : List UInt8} (hs : s ≠ []) (hhead : s.head? ≠ some slash) :
    elements s = (s.takeWhile (· ≠ slash)).take DIRSIZ :: elements (s.dropWhile (· ≠ slash)) := by
  have hne : s.takeWhile (· ≠ slash) ≠ [] := by
    cases s with
    | nil => exact absurd rfl hs
    | cons c s =>
      have hc : c ≠ slash := fun h => hhead (by simp [h])
      simp [hc]
  have hno : slash ∉ s.takeWhile (· ≠ slash) := by
    intro h
    simpa using List.mem_takeWhile_imp h
  have hcons := elements_append hne hno (dropWhile_elem s)
  rwa [List.takeWhile_append_dropWhile] at hcons

theorem elements_eq_nil_iff {s : List UInt8} (hhead : s.head? ≠ some slash) :
    elements s = [] ↔ s = [] := by
  constructor
  · intro h
    by_contra hs
    rw [elements_cons hs hhead] at h
    cases h
  · intro h
    subst h
    rfl

/-- The buffer holds the element that has been copied to it. -/
theorem text_overwrite {elem : List UInt8} (hzero : (0 : UInt8) ∉ elem) (name : List UInt8) :
    text (if DIRSIZ ≤ elem.length then overwrite (elem.take DIRSIZ) name
      else overwrite (elem ++ [0]) name) = elem.take DIRSIZ := by
  have hkeep : ∀ s : List UInt8, s <+: elem → s.takeWhile (· ≠ 0) = s := by
    intro s hs
    rw [List.takeWhile_eq_self_iff]
    intro c hc
    simpa using fun h : c = 0 => hzero (h ▸ hs.subset hc)
  unfold text overwrite
  split
  · next hlong =>
    have hlen : (elem.take DIRSIZ).length = DIRSIZ := by rw [List.length_take]; omega
    rw [List.takeWhile_append, if_pos (by rw [hkeep _ (List.take_prefix _ _)]),
      List.take_left' hlen]
  · next hshort =>
    rw [List.append_assoc, List.takeWhile_append, if_pos (by rw [hkeep _ (List.prefix_refl _)]),
      List.singleton_append, takeWhile_cons_zero, List.append_nil]

theorem skipelem_none {path name : List UInt8} (h : skipelem path name = none) :
    elements path = [] := by
  unfold skipelem at h
  dsimp only at h
  split at h
  · next hs =>
    rw [← elements_dropWhile, hs]
    rfl
  · cases h

/-- The parts into which `skipelem` cuts a path. -/
theorem skipelem_some {path name rest name' : List UInt8}
    (h : skipelem path name = some (rest, name')) :
    rest.length < path.length ∧ (∀ c ∈ rest, c ∈ path) ∧ (elements rest = [] ↔ rest = []) ∧
      ((0 : UInt8) ∉ path → elements path = text name' :: elements rest) := by
  unfold skipelem at h
  dsimp only at h
  split at h
  · cases h
  · next hs =>
    cases h
    have hsub := List.dropWhile_sublist (· = slash) (l := path)
    have hrest := List.dropWhile_sublist (· ≠ slash) (l := path.dropWhile (· = slash))
    have hlast := List.dropWhile_sublist (· = slash)
      (l := (path.dropWhile (· = slash)).dropWhile (· ≠ slash))
    have hshort : ((path.dropWhile (· = slash)).dropWhile (· ≠ slash)).length <
        (path.dropWhile (· = slash)).length := by
      cases hp : path.dropWhile (· = slash) with
      | nil => exact absurd hp hs
      | cons c s =>
        have hc : c ≠ slash := by
          intro hc
          have := dropWhile_slash path
          rw [hp] at this
          simp [hc] at this
        rw [List.dropWhile_cons_of_pos (by simpa using hc)]
        have := (List.dropWhile_sublist (· ≠ slash) (l := s)).length_le
        simp only [List.length_cons]
        omega
    refine ⟨?_, ?_, elements_eq_nil_iff (dropWhile_slash _), ?_⟩
    · have := hsub.length_le
      have := hlast.length_le
      omega
    · intro c hc
      exact hsub.subset (hrest.subset (hlast.subset hc))
    · intro hzero
      have helem : (0 : UInt8) ∉ (path.dropWhile (· = slash)).takeWhile (· ≠ slash) :=
        fun h => hzero (hsub.subset ((List.takeWhile_prefix _).subset h))
      rw [text_overwrite helem, elements_dropWhile, ← elements_dropWhile path,
        elements_cons hs (dropWhile_slash path)]

end Xv6.Names
