import Xv6.Sh.Grammar
import Mathlib.Data.List.TakeWhile

/-!
# Tokens of a command line

`Tokens` says what the tokens of a string are: symbols and words, with whitespace between
them. `lex` reads them off greedily. `peek` and `gettoken` at a position in the buffer do on the
rest of the line what the parser on lists of tokens does on its tokens.
-/
namespace Xv6.Sh

set_option autoImplicit false

def isBlank (c : Char) : Bool := whitespace.contains c

/-- A character of a word. -/
def isWord (c : Char) : Bool := !whitespace.contains c && !symbols.contains c

/-- The tokens of a string. A word is a maximal run of characters that are neither whitespace
nor symbols. -/
inductive Tokens : List Char → List Tok → Prop where
  | nil : Tokens [] []
  | blank {c s ts} : isBlank c = true → Tokens s ts → Tokens (c :: s) ts
  | sym {s ts} (c : Sym) : Tokens s ts → Tokens (c.char :: s) (.sym c :: ts)
  | append {s ts} : Tokens s ts → Tokens ('>' :: '>' :: s) (.append :: ts)
  | word {w s ts} : w ≠ [] → (∀ c ∈ w, isWord c = true) → (∀ c ∈ s.head?, isWord c = false) →
      Tokens s ts → Tokens (w ++ s) (.word w :: ts)

/-- The symbol that a character is. -/
def symOf (c : Char) : Option Sym :=
  [Sym.lt, .bar, .gt, .amp, .semi, .lpar, .rpar].find? fun x => x.char == c

/-- The tokens, read off from the left. -/
def lex : List Char → List Tok
  | [] => []
  | c :: s =>
    if isBlank c then lex s
    else
      match symOf c with
      | some .gt => if s.head? = some '>' then .append :: lex s.tail else .sym .gt :: lex s
      | some x => .sym x :: lex s
      | none => .word (c :: s.takeWhile isWord) :: lex (s.dropWhile isWord)
termination_by s => s.length
decreasing_by
  all_goals simp only [List.length_cons, List.length_tail]
  all_goals try omega
  exact Nat.lt_succ_of_le (List.dropWhile_sublist _).length_le

theorem symOf_char (c : Sym) : symOf c.char = some c := by cases c <;> decide

theorem symOf_some {c : Char} {x : Sym} (h : symOf c = some x) : c = x.char := by
  have hx := List.find?_some h
  exact (eq_of_beq hx).symm

theorem symOf_none {c : Char} : symOf c = none ↔ symbols.contains c = false := by
  simp only [symOf, List.find?_eq_none, List.contains_eq_mem, decide_eq_false_iff_not]
  constructor
  · intro h hc
    simp only [symbols, List.mem_cons, List.not_mem_nil, or_false] at hc
    rcases hc with rfl | rfl | rfl | rfl | rfl | rfl | rfl <;> revert h <;> decide
  · intro h x hx heq
    refine h ?_
    rw [beq_iff_eq] at heq
    subst heq
    cases x <;> decide

theorem not_isBlank_sym (c : Sym) : isBlank c.char = false := by cases c <;> decide

/-- A character that is not blank and not a symbol is one of a word. -/
theorem isWord_iff {c : Char} : isWord c = true ↔ isBlank c = false ∧ symOf c = none := by
  rw [symOf_none]
  simp [isWord, isBlank]

section Lex

variable {c : Char} {s : List Char}

@[simp] theorem lex_nil : lex [] = [] := by rw [lex]

theorem lex_blank (h : isBlank c = true) : lex (c :: s) = lex s := by
  rw [lex, if_pos h]

theorem lex_sym {x : Sym} (hx : x ≠ .gt) : lex (x.char :: s) = .sym x :: lex s := by
  rw [lex, if_neg (by rw [not_isBlank_sym]; exact Bool.false_ne_true), symOf_char]
  cases x <;> first | rfl | exact absurd rfl hx

theorem lex_append : lex ('>' :: '>' :: s) = .append :: lex s := by
  rw [lex, if_neg (by decide), show symOf '>' = some .gt from symOf_char .gt]
  simp

theorem lex_gt (h : s.head? ≠ some '>') : lex ('>' :: s) = .sym .gt :: lex s := by
  rw [lex, if_neg (by decide), show symOf '>' = some .gt from symOf_char .gt]
  simp [h]

theorem lex_word (h : isWord c = true) :
    lex (c :: s) = .word (c :: s.takeWhile isWord) :: lex (s.dropWhile isWord) := by
  obtain ⟨hb, hs⟩ := isWord_iff.mp h
  rw [lex, if_neg (by rw [hb]; exact Bool.false_ne_true), hs]

theorem lex_dropWhile (s : List Char) : lex (s.dropWhile isBlank) = lex s := by
  induction s with
  | nil => rfl
  | cons c s ih =>
    rw [List.dropWhile_cons]
    split
    · next h => rw [ih, lex_blank h]
    · rfl

theorem length_lex_le (s : List Char) : (lex s).length ≤ s.length := by
  fun_induction lex s with
  | case1 => exact Nat.le_refl _
  | case2 c s h ih => exact Nat.le_succ_of_le ih
  | case3 c s h hs hh ih =>
    simp only [List.length_cons, List.length_tail] at ih ⊢
    omega
  | case4 c s h hs hh ih | case5 c s h x hs hx ih =>
    simp only [List.length_cons]
    omega
  | case6 c s h hs ih =>
    have := (List.dropWhile_sublist (p := isWord) (l := s)).length_le
    simp only [List.length_cons]
    omega

/-- The tokens that are read off are tokens of the string. -/
theorem tokens_lex (s : List Char) : Tokens s (lex s) := by
  fun_induction lex s with
  | case1 => exact .nil
  | case2 c s h ih => exact .blank h ih
  | case3 c s h hs hh ih =>
    obtain rfl := symOf_some hs
    obtain ⟨s, rfl⟩ : ∃ t, s = '>' :: t := List.head?_eq_some_iff.mp hh
    exact .append ih
  | case4 c s h hs hh ih =>
    obtain rfl := symOf_some hs
    exact .sym .gt ih
  | case5 c s h x hx hs ih =>
    obtain rfl := symOf_some hs
    exact .sym x ih
  | case6 c s h hs ih =>
    have hc : isWord c = true := isWord_iff.mpr ⟨by simpa using h, hs⟩
    have hsplit : c :: s = (c :: s.takeWhile isWord) ++ s.dropWhile isWord := by
      rw [List.cons_append, List.takeWhile_append_dropWhile]
    rw [hsplit]
    refine .word (by simp) ?_ ?_ ih
    · intro d hd
      rcases List.mem_cons.mp hd with rfl | hd
      · exact hc
      · exact List.mem_takeWhile_imp hd
    · intro d hd
      obtain ⟨t, ht⟩ := List.head?_eq_some_iff.mp hd
      have hnot := List.head?_dropWhile_not isWord s
      rw [ht] at hnot
      simpa using hnot

end Lex

/-! ### The tokens of a line that is derived -/

/-- Each `>` is followed by a word. -/
def GtWord : List Tok → Prop
  | [] => True
  | t :: ts => (t = .sym .gt → ∃ w, ts.head? = some (.word w)) ∧ GtWord ts

namespace GtWord

theorem append {u v : List Tok} (hu : GtWord u) (hv : GtWord v) : GtWord (u ++ v) := by
  induction u with
  | nil => exact hv
  | cons t u ih =>
    refine ⟨fun ht => ?_, ih hu.2⟩
    obtain ⟨w, hw⟩ := hu.1 ht
    exact ⟨w, by rw [show (u.append v).head? = (u ++ v).head? from rfl, List.head?_append, hw]; rfl⟩

theorem cons {t : Tok} {ts : List Tok} (ht : t ≠ .sym .gt) (h : GtWord ts) : GtWord (t :: ts) :=
  ⟨fun heq => absurd heq ht, h⟩

theorem amps (k : Nat) : GtWord (List.replicate k (.sym .amp)) := by
  induction k with
  | zero => trivial
  | succ k ih => exact ih.cons (by decide)

theorem of_redirs {ts : List Tok} {rs : List (Redir (List Char))} (h : Redirs ts rs) :
    GtWord ts := by
  induction h with
  | nil => trivial
  | input _ ih => exact (ih.cons (by simp)).cons (by decide)
  | output _ ih => exact ⟨fun _ => ⟨_, rfl⟩, ih.cons (by simp)⟩
  | append _ ih => exact (ih.cons (by simp)).cons (by decide)

theorem of_args {ts : List Tok} {ws : List (List Char)} {rs : List (Redir (List Char))}
    (h : Args ts ws rs) : GtWord ts := by
  induction h with
  | nil => trivial
  | cons hrs _ ih => exact ((of_redirs hrs).append ih).cons (by simp)

theorem of_derives {nt : NonTerminal} {ts : List Tok} {c : Cmd (List Char)} (h : Derives nt ts c) :
    GtWord ts := by
  induction h with
  | line k _ ih => exact ih.append (amps k)
  | list k _ _ ih ih' => exact ih.append ((amps k).append (ih'.cons (by decide)))
  | one _ ih => exact ih
  | pipe _ _ ih ih' => exact ih.append (ih'.cons (by decide))
  | block _ hrs ih => exact (ih.append ((of_redirs hrs).cons (by decide))).cons (by decide)
  | exec hrs hargs _ => exact (of_redirs hrs).append (of_args hargs)

end GtWord

/-- The string does not go on with `>` where the next token is a word. -/
theorem Tokens.head_ne_gt {s : List Char} {ts : List Tok} {w : List Char} (h : Tokens s ts)
    (hw : ts.head? = some (.word w)) : s.head? ≠ some '>' := by
  cases h with
  | nil => simp
  | blank hc _ =>
    intro heq
    simp only [List.head?_cons, Option.some.injEq] at heq
    subst heq
    exact absurd hc (by decide)
  | sym c _ => simp at hw
  | append _ => simp at hw
  | @word w' s ts hne hall _ _ =>
    intro heq
    obtain ⟨c, w', rfl⟩ := List.exists_cons_of_ne_nil hne
    simp only [List.cons_append, List.head?_cons, Option.some.injEq] at heq
    subst heq
    exact absurd (hall _ List.mem_cons_self) (by decide)

/-- Where each `>` is followed by a word there is only one way to read the tokens. -/
theorem Tokens.lex_eq {s : List Char} {ts : List Tok} (h : Tokens s ts) (hgt : GtWord ts) :
    lex s = ts := by
  induction h with
  | nil => exact lex_nil
  | blank hc _ ih => rw [lex_blank hc, ih hgt]
  | @sym s ts c hs ih =>
    rcases eq_or_ne c .gt with rfl | hc
    · obtain ⟨w, hw⟩ := hgt.1 rfl
      show lex ('>' :: s) = _
      rw [lex_gt (hs.head_ne_gt hw), ih hgt.2]
    · rw [lex_sym hc, ih hgt.2]
  | append _ ih => rw [lex_append, ih hgt.2]
  | @word w s ts hne hall hs _ ih =>
    obtain ⟨c, w, rfl⟩ := List.exists_cons_of_ne_nil hne
    have hw : ∀ c ∈ w, isWord c = true := fun c hc => hall c (List.mem_cons_of_mem _ hc)
    have htake : s.takeWhile isWord = [] ∧ s.dropWhile isWord = s := by
      cases s with
      | nil => exact ⟨rfl, rfl⟩
      | cons d s => simp [hs d rfl]
    rw [List.cons_append, lex_word (hall c List.mem_cons_self), List.takeWhile_append_of_pos hw,
      List.dropWhile_append_of_pos hw, htake.1, htake.2, List.append_nil, ih hgt.2]

/-- The strings that the grammar accepts, with their commands. -/
def Parses (line : List Char) (c : Cmd (List Char)) : Prop :=
  ∃ ts, Tokens line ts ∧ Derives .line ts c

theorem parses_iff {line : List Char} {c : Cmd (List Char)} :
    Parses line c ↔ Derives .line (lex line) c := by
  constructor
  · rintro ⟨ts, hts, hc⟩
    rwa [hts.lex_eq (.of_derives hc)]
  · intro hc
    exact ⟨_, tokens_lex line, hc⟩

end Xv6.Sh
