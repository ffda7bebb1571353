import Mathlib.Computability.Language
import Xv6.Grep.Model

/-!
# The pattern language of `grep`

A pattern is read as a sequence of items, each of which denotes a language; the sequence denotes
their product. `^` at the start and `$` at the end tie the matching substring to the start and
the end of the text.
-/
namespace Xv6.Grep

set_option autoImplicit false

open Computability

/-- The characters that `c` stands for. -/
def chars (c : UInt8) : Set UInt8 := {b | b = c ∨ c = dot}

/-- A character, or a character followed by `*`. -/
inductive Item where
  | one (c : UInt8)
  | many (c : UInt8)
  deriving DecidableEq, Repr

/-- The words of one of these characters. -/
def single (c : UInt8) : Language UInt8 := {w | ∃ b ∈ chars c, w = [b]}

def Item.language : Item → Language UInt8
  | .one c => single c
  | .many c => (single c)∗

/-- The items of a pattern without its leading `^`; a final `$` is not one of them. -/
def items : Str → List Item
  | [] => []
  | [c] => if c = dollar then [] else [.one c]
  | c :: d :: re => if d = star then .many c :: items re else .one c :: items (d :: re)

/-- Whether a final `$` stands for the end of the text. -/
def atEnd : Str → Bool
  | [] => false
  | [c] => c = dollar
  | _ :: d :: re => if d = star then atEnd re else atEnd (d :: re)

def language (re : Str) : Language UInt8 := ((items re).map Item.language).prod

/-- The text `w`, followed by `after`, matches `re`. -/
def Matches (re w after : Str) : Prop := w ∈ language re ∧ (atEnd re → after = [])

/-- What `match` is for: some substring of `text` matches the pattern. -/
def Finds (re text : Str) : Prop :=
  if re.head? = some caret then ∃ w after, text = w ++ after ∧ Matches re.tail w after
  else ∃ before w after, text = before ++ w ++ after ∧ Matches re w after

theorem mem_many_iff {c : UInt8} {w : Str} : w ∈ (Item.many c).language ↔ ∀ b ∈ w, b ∈ chars c := by
  rw [Item.language, Language.mem_kstar]
  constructor
  · intro h b hb
    obtain ⟨L, rfl, hL⟩ := h
    obtain ⟨y, hy, hby⟩ := List.mem_flatten.mp hb
    obtain ⟨b', hb', rfl⟩ := hL y hy
    rwa [List.mem_singleton.mp hby]
  · intro h
    refine ⟨w.map fun b => [b], (List.flatMap_singleton' w).symm, fun y hy => ?_⟩
    obtain ⟨b, hb, rfl⟩ := List.mem_map.mp hy
    exact ⟨b, h b hb, rfl⟩

theorem matches_nil {w after : Str} : Matches [] w after ↔ w = [] := by
  simp [Matches, language, items, atEnd]

theorem matches_dollar {w after : Str} : Matches [dollar] w after ↔ w = [] ∧ after = [] := by
  simp [Matches, language, items, atEnd]

/-- A pattern that starts with a starred character. -/
theorem matches_many {c : UInt8} {re w after : Str} :
    Matches (c :: star :: re) w after ↔
      ∃ u v, w = u ++ v ∧ (∀ b ∈ u, b ∈ chars c) ∧ Matches re v after := by
  have hlang : language (c :: star :: re) = (Item.many c).language * language re := by
    simp [language, items]
  have hend : atEnd (c :: star :: re) = atEnd re := by simp [atEnd]
  rw [Matches, hlang, hend, Language.mem_mul]
  constructor
  · intro h
    obtain ⟨⟨u, hu, v, hv, huv⟩, ha⟩ := h
    exact ⟨u, v, huv.symm, mem_many_iff.mp hu, hv, ha⟩
  · intro h
    obtain ⟨u, v, huv, hu, hv, ha⟩ := h
    exact ⟨⟨u, mem_many_iff.mpr hu, v, hv, huv.symm⟩, ha⟩

/-- A pattern that starts with a character that is neither starred nor a final `$`. -/
theorem matches_one {c : UInt8} {re w after : Str} (hs : re.head? ≠ some star)
    (hd : c = dollar → re ≠ []) :
    Matches (c :: re) w after ↔ ∃ b v, w = b :: v ∧ b ∈ chars c ∧ Matches re v after := by
  have hlang : language (c :: re) = (Item.one c).language * language re := by
    cases re with
    | nil => simp [language, items, show c ≠ dollar from fun h => hd h rfl]
    | cons d re => simp [language, items, show d ≠ star from fun h => hs (by rw [h]; rfl)]
  have hend : atEnd (c :: re) = atEnd re := by
    cases re with
    | nil => simp [atEnd, show c ≠ dollar from fun h => hd h rfl]
    | cons d re => simp [atEnd, show d ≠ star from fun h => hs (by rw [h]; rfl)]
  rw [Matches, hlang, hend, Language.mem_mul]
  constructor
  · intro h
    obtain ⟨⟨u, ⟨b, hb, rfl⟩, v, hv, hw⟩, ha⟩ := h
    exact ⟨b, v, hw.symm, hb, hv, ha⟩
  · intro h
    obtain ⟨b, v, rfl, hb, hv, ha⟩ := h
    exact ⟨⟨[b], ⟨b, hb, rfl⟩, v, hv, rfl⟩, ha⟩

/-- A starred character takes some of the characters it stands for, and the rest matches. -/
theorem matchstar_iff {c : UInt8} {re text junk : Str} (ht : 0 ∉ text) :
    matchstar c re (text ++ 0 :: junk) ↔
      ∃ u v, text = u ++ v ∧ (∀ b ∈ u, b ∈ chars c) ∧ matchhere re (v ++ 0 :: junk) := by
  induction text with
  | nil =>
    rw [matchstar]
    simp
  | cons t text ih =>
    have ht0 : t ≠ 0 := fun h => ht (by simp [h])
    have ih := ih fun h => ht (List.mem_cons_of_mem t h)
    have hstep : matchstar c re (t :: text ++ 0 :: junk) ↔ matchhere re (t :: text ++ 0 :: junk) ∨
        t ∈ chars c ∧ matchstar c re (text ++ 0 :: junk) := by
      rw [matchstar]
      simp [chars, ht0]
    rw [hstep, ih]
    constructor
    · intro h
      obtain h | ⟨hc, u, v, rfl, hu, hv⟩ := h
      · exact ⟨[], t :: text, rfl, by simp, h⟩
      · exact ⟨t :: u, v, rfl, by simp [hc]; exact hu, hv⟩
    · intro h
      obtain ⟨u, v, huv, hu, hv⟩ := h
      cases u with
      | nil => exact .inl (by rw [huv]; exact hv)
      | cons b u =>
        obtain ⟨rfl, rfl⟩ := List.cons.inj huv
        exact .inr ⟨hu t (by simp), u, v, rfl, fun b hb => hu b (by simp [hb]), hv⟩

/-- A plain character takes one character it stands for, and the rest matches. -/
theorem matchhere_one {c : UInt8} {re text junk : Str} (hc : c ≠ 0) (hs : byte re 0 ≠ star)
    (hd : c = dollar → byte re 0 ≠ 0) (ht : 0 ∉ text) :
    matchhere (c :: re) (text ++ 0 :: junk) ↔
      ∃ b v, text = b :: v ∧ b ∈ chars c ∧ matchhere re (v ++ 0 :: junk) := by
  rw [matchhere, byte_cons_zero, byte_cons_succ, if_neg hc, if_neg hs,
    if_neg fun h => hd h.1 h.2]
  cases text with
  | nil => simp
  | cons t text =>
    have ht0 : t ≠ 0 := fun h => ht (by simp [h])
    have hcs : (c = dot ∨ c = t) ↔ t ∈ chars c := by
      rw [or_comm, eq_comm]; rfl
    by_cases hm : t ∈ chars c <;> simp [ht0, hcs, hm]

theorem byte_append_nul {re x : Str} (h : 0 ∉ re) : byte (re ++ 0 :: x) 0 = 0 ↔ re = [] := by
  cases re with
  | nil => simp
  | cons c re => simp [show c ≠ 0 from fun hc => h (by simp [hc])]

theorem byte_append_star {re x : Str} : byte (re ++ 0 :: x) 0 = star ↔ re.head? = some star := by
  cases re with
  | nil => simp [star]
  | cons c re => simp

/-- The plain character case of `matchhere_iff`. -/
theorem matchhere_cons_iff {c : UInt8} {re text x junk : Str} (hre : 0 ∉ c :: re) (ht : 0 ∉ text)
    (hs : re.head? ≠ some star) (hd : c = dollar → re ≠ [])
    (ih : ∀ {text : Str}, 0 ∉ text → (matchhere (re ++ 0 :: x) (text ++ 0 :: junk) ↔
      ∃ w after, text = w ++ after ∧ Matches re w after)) :
    matchhere (c :: re ++ 0 :: x) (text ++ 0 :: junk) ↔
      ∃ w after, text = w ++ after ∧ Matches (c :: re) w after := by
  have hc : c ≠ 0 := fun h => hre (by simp [h])
  have hre' : 0 ∉ re := fun h => hre (by simp [h])
  rw [List.cons_append, matchhere_one hc (fun h => hs (byte_append_star.mp h))
    (fun h h0 => hd h ((byte_append_nul hre').mp h0)) ht]
  constructor
  · intro h
    obtain ⟨b, v, rfl, hb, hv⟩ := h
    obtain ⟨w, after, rfl, hw⟩ := (ih fun h => ht (List.mem_cons_of_mem b h)).mp hv
    exact ⟨b :: w, after, rfl, (matches_one hs hd).mpr ⟨b, w, rfl, hb, hw⟩⟩
  · intro h
    obtain ⟨w, after, rfl, hw⟩ := h
    obtain ⟨b, v, rfl, hb, hv⟩ := (matches_one hs hd).mp hw
    exact ⟨b, v ++ after, rfl, hb,
      (ih fun h => ht (List.mem_cons_of_mem b h)).mpr ⟨v, after, rfl, hv⟩⟩

/-- `matchhere` finds the pattern at the beginning of the text. -/
theorem matchhere_iff {re text x junk : Str} (hre : 0 ∉ re) (ht : 0 ∉ text) :
    matchhere (re ++ 0 :: x) (text ++ 0 :: junk) ↔
      ∃ w after, text = w ++ after ∧ Matches re w after := by
  -- along the items of the pattern
  induction re using items.induct generalizing text with
  | case1 =>
    rw [matchhere]
    simp [matches_nil]
  | case2 =>
    have hend : byte (text ++ 0 :: junk) 0 = 0 ↔ text = [] := byte_append_nul ht
    rw [matchhere]
    simp [matches_dollar, hend, show dollar ≠ 0 by decide, show (0 : UInt8) ≠ star by decide]
  | case3 c hc =>
    refine matchhere_cons_iff hre ht (by simp) (fun h => absurd h hc) fun {text} ht' => ?_
    rw [matchhere]
    simp [matches_nil]
  | case4 c re ih =>
    have hc : c ≠ 0 := fun h => hre (by simp [h])
    have hre' : 0 ∉ re := fun h => hre (by simp [h])
    have hstep : matchhere (c :: star :: re ++ 0 :: x) (text ++ 0 :: junk) =
        matchstar c (re ++ 0 :: x) (text ++ 0 :: junk) := by
      rw [matchhere]
      simp [hc]
    rw [hstep, matchstar_iff ht]
    constructor
    · intro h
      obtain ⟨u, v, rfl, hu, hv⟩ := h
      obtain ⟨w, after, rfl, hw⟩ := (ih hre' fun h => ht (List.mem_append_right u h)).mp hv
      exact ⟨u ++ w, after, (List.append_assoc ..).symm, matches_many.mpr ⟨u, w, rfl, hu, hw⟩⟩
    · intro h
      obtain ⟨w, after, rfl, hw⟩ := h
      obtain ⟨u, v, rfl, hu, hv⟩ := matches_many.mp hw
      refine ⟨u, v ++ after, List.append_assoc .., hu, (ih hre' fun h => ht ?_).mpr ⟨v, after, rfl, hv⟩⟩
      rw [List.append_assoc]
      exact List.mem_append_right u h
  | case5 c d re hd ih =>
    refine matchhere_cons_iff hre ht (by simpa using hd) (fun _ => List.cons_ne_nil d re) ?_
    exact ih fun h => hre (List.mem_cons_of_mem c h)

theorem matchany_nul {re junk : Str} : matchany re (0 :: junk) ↔ matchhere re (0 :: junk) := by
  rw [matchany]
  simp

theorem matchany_cons {t : UInt8} {re text : Str} (ht : t ≠ 0) :
    matchany re (t :: text) ↔ matchhere re (t :: text) ∨ matchany re text := by
  rw [matchany]
  simp [ht]

theorem matchany_iff {re text x junk : Str} (hre : 0 ∉ re) (ht : 0 ∉ text) :
    matchany (re ++ 0 :: x) (text ++ 0 :: junk) ↔
      ∃ before w after, text = before ++ w ++ after ∧ Matches re w after := by
  induction text with
  | nil =>
    rw [List.nil_append, matchany_nul]
    simpa using matchhere_iff hre ht
  | cons t text ih =>
    have ht0 : t ≠ 0 := fun h => ht (by simp [h])
    have ht' : 0 ∉ text := fun h => ht (List.mem_cons_of_mem t h)
    rw [List.cons_append, matchany_cons ht0, ← List.cons_append, matchhere_iff hre ht, ih ht']
    constructor
    · intro h
      obtain ⟨w, after, htext, hw⟩ | ⟨before, w, after, rfl, hw⟩ := h
      · exact ⟨[], w, after, htext, hw⟩
      · exact ⟨t :: before, w, after, rfl, hw⟩
    · intro h
      obtain ⟨before, w, after, htext, hw⟩ := h
      cases before with
      | nil => exact .inl ⟨w, after, htext, hw⟩
      | cons b before =>
        obtain ⟨rfl, rfl⟩ := List.cons.inj htext
        exact .inr ⟨before, w, after, rfl, hw⟩

/-- `match` finds exactly what the pattern language describes, whatever stands in memory after
the two strings. -/
theorem isMatch_iff_finds (re text x junk : Str) (hre : 0 ∉ re) (ht : 0 ∉ text) :
    isMatch (re ++ 0 :: x) (text ++ 0 :: junk) = true ↔ Finds re text := by
  rw [isMatch, Finds]
  cases re with
  | nil =>
    have h0 : byte ([] ++ 0 :: x) 0 ≠ caret := by
      rw [List.nil_append, byte_cons_zero]
      decide
    rw [if_neg h0, if_neg (by simp)]
    exact matchany_iff hre ht
  | cons c re =>
    by_cases hc : c = caret
    · rw [if_pos (by simp [hc]), if_pos (by simp [hc])]
      exact matchhere_iff (fun h => hre (List.mem_cons_of_mem c h)) ht
    · rw [if_neg (by simp [hc]), if_neg (by simp [hc])]
      exact matchany_iff hre ht

/-- `^b.*$` against `bar`, with bytes left over behind both. -/
theorem isMatch_iff_finds_bar :
    isMatch ([0x5e, 0x62, 0x2e, 0x2a, 0x24] ++ 0 :: [7]) ([0x62, 0x61, 0x72] ++ 0 :: [9]) = true ↔
      Finds [0x5e, 0x62, 0x2e, 0x2a, 0x24] [0x62, 0x61, 0x72] :=
  isMatch_iff_finds _ _ _ _ (by decide) (by decide)

end Xv6.Grep
