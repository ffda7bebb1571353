import Xv6.Sh.Parse

/-!
# `parsecmd`

The positions `peek` and `gettoken` move to, in terms of the rest of the line; what
`nulterminate` writes; and the two together: `parsecmd` returns the command that the grammar
gives, with strings that read as the words of the line, or fails where the grammar gives none.
-/
namespace Xv6.Sh

set_option autoImplicit false

section Line

variable {line : List Char} {s : Nat}

theorem bufOf_eq (line : List Char) (s : Nat) : bufOf line s = (line.drop s).headD NUL := by
  simp [bufOf, List.headD_eq_head?_getD, List.getD_eq_getElem?_getD]

/-- What a loop over the characters skips. -/
theorem skip_spec (p : Char → Bool) (n : Nat) (hs : s ≤ line.length) (hn : line.length - s ≤ n) :
    skip p (bufOf line) line.length n s = s + ((line.drop s).takeWhile p).length := by
  induction n generalizing s with
  | zero =>
    have hs' : s = line.length := by omega
    simp [skip, hs']
  | succ n ih =>
    rw [skip]
    rcases hd : line.drop s with _ | ⟨c, r⟩
    · have := List.drop_eq_nil_iff.mp hd
      simp [Nat.not_lt.mpr this]
    · have hlt : s < line.length := by
        by_contra hge
        rw [List.drop_eq_nil_of_le (Nat.le_of_not_lt hge)] at hd
        contradiction
      have hr : line.drop (s + 1) = r := by
        rw [← List.drop_drop, hd]
        rfl
      rw [bufOf_eq, hd, List.headD_cons, List.takeWhile_cons]
      by_cases hc : p c = true
      · simp only [hlt, decide_true, hc, Bool.and_self, if_true]
        rw [ih hlt (by omega), hr, List.length_cons]
        omega
      · simp [hc]

theorem drop_skip (p : Char → Bool) (line : List Char) (s : Nat) :
    line.drop (s + ((line.drop s).takeWhile p).length) = (line.drop s).dropWhile p := by
  rw [← List.drop_drop]
  generalize line.drop s = r
  induction r with
  | nil => rfl
  | cons c r ih =>
    by_cases hc : p c = true
    · simpa [List.takeWhile_cons, List.dropWhile_cons, hc] using ih
    · simp [hc]

theorem length_takeWhile_drop_le (p : Char → Bool) (line : List Char) (hs : s ≤ line.length) :
    s + ((line.drop s).takeWhile p).length ≤ line.length := by
  have := ( List.takeWhile_prefix p (l := line.drop s)).length_le
  rw [List.length_drop] at this
  omega

/-- The position behind the blanks, and what follows there. -/
theorem blanks_spec (hs : s ≤ line.length) :
    blanks (bufOf line) line.length s ≤ line.length ∧
      line.drop (blanks (bufOf line) line.length s) = (line.drop s).dropWhile isBlank := by
  have hskip : blanks (bufOf line) line.length s =
      s + ((line.drop s).takeWhile isBlank).length := skip_spec isBlank _ hs (le_refl _)
  rw [hskip]
  exact ⟨length_takeWhile_drop_le isBlank line hs, drop_skip isBlank line s⟩

/-- The tokens of the rest of the line are the given ones. -/
def At (line : List Char) (s : Nat) (ts : List Tok) : Prop :=
  s ≤ line.length ∧ lex (line.drop s) = ts

theorem At.blanks {ts : List Tok} (h : At line s ts) :
    At line (blanks (bufOf line) line.length s) ts := by
  obtain ⟨hle, hdrop⟩ := blanks_spec h.1
  exact ⟨hle, by rw [hdrop, lex_dropWhile]; exact h.2⟩

/-- The line ends behind the blanks, or goes on with a character that is not blank. -/
theorem next_cases (hline : NUL ∉ line) (hs : s ≤ line.length) :
    (line.drop (blanks (bufOf line) line.length s) = [] ∧
      bufOf line (blanks (bufOf line) line.length s) = NUL) ∨
    ∃ c r, line.drop (blanks (bufOf line) line.length s) = c :: r ∧
      bufOf line (blanks (bufOf line) line.length s) = c ∧ c ≠ NUL ∧ isBlank c = false := by
  obtain ⟨-, hdrop⟩ := blanks_spec hs
  rw [bufOf_eq, hdrop]
  have hnot := List.head?_dropWhile_not isBlank (line.drop s)
  rcases hr : (line.drop s).dropWhile isBlank with _ | ⟨c, r⟩
  · exact .inl ⟨rfl, rfl⟩
  · refine .inr ⟨c, r, rfl, rfl, ?_, ?_⟩
    · rintro rfl
      refine hline (List.mem_of_mem_drop (i := s) ?_)
      exact (List.dropWhile_sublist isBlank).subset (hr ▸ List.mem_cons_self)
    · rw [hr] at hnot
      simpa using hnot

theorem peek_at (hline : NUL ∉ line) {ts : List Tok} (h : At line s ts) {toks : List Char}
    (htoks : PeekSet toks) :
    ∃ b t, peek (bufOf line) line.length s toks = (b, t) ∧ tokens.peek ts toks = (b, ts) ∧
      At line t ts := by
  refine ⟨_, _, rfl, ?_, h.blanks⟩
  obtain ⟨-, hlex⟩ := h.blanks
  rcases next_cases hline h.1 with ⟨hr, hbuf⟩ | ⟨c, r, hr, hbuf, hc0, hblank⟩
  · rw [hr, lex_nil] at hlex
    subst hlex
    simp [hbuf]
  · rw [hbuf]
    rw [hr] at hlex
    simp only [ne_eq, hc0, not_false_eq_true, decide_true, Bool.true_and]
    cases hsym : symOf c with
    | none =>
      have hword : isWord c = true := isWord_iff.mpr ⟨hblank, hsym⟩
      rw [lex_word hword] at hlex
      have hnot : c ∉ toks := by
        intro hmem
        have := symOf_none.mp hsym
        simp [htoks c hmem] at this
      rw [← hlex]
      simp [Tok.starts, hnot]
    | some x =>
      obtain rfl := symOf_some hsym
      rcases eq_or_ne x .gt with rfl | hx
      · by_cases hgt : r.head? = some '>'
        · obtain ⟨r', rfl⟩ := List.head?_eq_some_iff.mp hgt
          rw [← hlex, show Sym.gt.char = '>' from rfl, lex_append]
          rfl
        · rw [← hlex, show Sym.gt.char = '>' from rfl, lex_gt hgt]
          rfl
      · rw [← hlex, lex_sym hx]
        rfl

/-- The text between two positions. -/
def text (line : List Char) (q : Span) : List Char := (line.drop q.1).take (q.2 - q.1)

/-- A maximal run of characters of words. -/
structure IsRun (line : List Char) (q : Span) : Prop where
  start_le : q.1 ≤ q.2
  end_le : q.2 ≤ line.length
  word : ∀ i, q.1 ≤ i → i < q.2 → isWord (bufOf line i) = true
  stop : q.2 < line.length → isWord (bufOf line q.2) = false

/-- The run that starts at a position. -/
theorem isRun_takeWhile (hs : s ≤ line.length) :
    IsRun line (s, s + ((line.drop s).takeWhile isWord).length) where
  start_le := Nat.le_add_right ..
  end_le := length_takeWhile_drop_le isWord line hs
  word := by
    intro i hi hlt
    dsimp only at hi hlt
    obtain ⟨j, rfl⟩ := Nat.exists_eq_add_of_le hi
    have hj : j < ((line.drop s).takeWhile isWord).length := by omega
    have hmem := List.getElem_mem hj
    have hword := List.mem_takeWhile_imp hmem
    rw [( List.takeWhile_prefix isWord).getElem hj, List.getElem_drop] at hword
    have hlt' : s + j < line.length := by
      have := length_takeWhile_drop_le isWord line hs
      omega
    rwa [bufOf, List.getD_eq_getElem?_getD, List.getElem?_eq_getElem hlt']
  stop := by
    intro hlt
    dsimp only at hlt ⊢
    rw [bufOf_eq, drop_skip]
    have hnot := List.head?_dropWhile_not isWord (line.drop s)
    rcases hr : (line.drop s).dropWhile isWord with _ | ⟨c, r⟩
    · rw [← drop_skip, List.drop_eq_nil_iff] at hr
      omega
    · rw [hr] at hnot
      simpa using hnot

theorem text_takeWhile (p : Char → Bool) (line : List Char) (s : Nat) :
    text line (s, s + ((line.drop s).takeWhile p).length) = (line.drop s).takeWhile p := by
  rw [text, Nat.add_sub_cancel_left]
  exact (List.prefix_iff_eq_take.mp ( List.takeWhile_prefix p)).symm

theorem drop_succ {c : Char} {r : List Char} (h : line.drop s = c :: r) :
    line.drop (s + 1) = r ∧ s + 1 ≤ line.length := by
  constructor
  · rw [← List.drop_drop, h]
    rfl
  · by_contra hlt
    rw [List.drop_eq_nil_of_le (by omega)] at h
    contradiction

/-- The token at a position that is not blank. -/
theorem tokenAt_spec {q : Nat} {c : Char} {r : List Char} (hr : line.drop q = c :: r)
    (hbuf : bufOf line q = c) (hc0 : c ≠ NUL) (hblank : isBlank c = false) :
    ∃ a e t, tokenAt (bufOf line) line.length q = (a, e) ∧
      ∃ ts, lex (c :: r) = t :: ts ∧ t.code = a ∧ At line e ts ∧
        (a = 'a' → t.text = text line (q, e) ∧ IsRun line (q, e)) := by
  obtain ⟨hr', hle⟩ := drop_succ hr
  unfold tokenAt
  rw [hbuf, if_neg hc0]
  cases hsym : symOf c with
  | none =>
    have hword : isWord c = true := isWord_iff.mpr ⟨hblank, hsym⟩
    have hnot := symOf_none.mp hsym
    have hskip : skip (fun c => !whitespace.contains c && !symbols.contains c) (bufOf line)
        line.length (line.length - q) q = q + ((line.drop q).takeWhile isWord).length :=
      skip_spec isWord _ (by omega) (Nat.le_refl _)
    rw [if_neg, if_neg, hskip]
    · refine ⟨_, _, _, rfl, _, lex_word hword, rfl, ⟨?_, ?_⟩, fun _ => ⟨?_, ?_⟩⟩
      · exact length_takeWhile_drop_le isWord line (by omega)
      · rw [drop_skip, hr, List.dropWhile_cons, if_pos hword]
      · rw [text_takeWhile, hr, List.takeWhile_cons, if_pos hword]
        rfl
      · exact isRun_takeWhile (by omega)
    · rintro rfl
      exact absurd hnot (by decide)
    · intro hmem
      rw [List.contains_iff_mem] at hmem
      have : c ∈ symbols := by
        simp only [List.mem_cons, List.not_mem_nil, or_false, symbols] at hmem ⊢
        tauto
      simp [this] at hnot
  | some x =>
    obtain rfl := symOf_some hsym
    rcases eq_or_ne x .gt with rfl | hx
    · have hgt : Sym.gt.char = '>' := rfl
      rw [if_neg (by decide), if_pos hgt, bufOf_eq, hr', hgt]
      by_cases hh : r.head? = some '>'
      · obtain ⟨r, rfl⟩ := List.head?_eq_some_iff.mp hh
        obtain ⟨hr'', hle'⟩ := drop_succ hr'
        exact ⟨_, _, _, rfl, _, lex_append, rfl, ⟨hle', by rw [hr'']⟩, fun ha => absurd ha (by decide)⟩
      · have hne : r.headD NUL ≠ '>' := by
          cases r with
          | nil => decide
          | cons d r => simpa using hh
        rw [if_neg hne]
        exact ⟨_, _, _, rfl, _, lex_gt hh, rfl, ⟨hle, by rw [hr']⟩, fun ha => absurd ha (by decide)⟩
    · have hmem : ['|', '(', ')', ';', '&', '<'].contains x.char = true := by
        cases x <;> first | rfl | exact absurd rfl hx
      rw [if_pos hmem]
      refine ⟨_, _, _, rfl, _, lex_sym hx, rfl, ⟨hle, by rw [hr']⟩, fun ha => ?_⟩
      cases x <;> exact absurd ha (by decide)

theorem gettoken_at (hline : NUL ∉ line) {ts : List Tok} (h : At line s ts) :
    ∃ a q q' t ts', gettoken (bufOf line) line.length s = (a, q, t) ∧
      tokens.gettoken ts = (a, q', ts') ∧ At line t ts' ∧
      (a = 'a' → q' = text line q ∧ IsRun line q) := by
  obtain ⟨hle, hlex⟩ := h.blanks
  unfold gettoken
  rcases next_cases hline h.1 with ⟨hr, hbuf⟩ | ⟨c, r, hr, hbuf, hc0, hblank⟩
  · have hat : At line (blanks (bufOf line) line.length s) [] := ⟨hle, by rw [hr, lex_nil]⟩
    rw [hr, lex_nil] at hlex
    subst hlex
    have htok : tokenAt (bufOf line) line.length (blanks (bufOf line) line.length s) =
        (NUL, blanks (bufOf line) line.length s) := by rw [tokenAt, if_pos hbuf]
    simp only [htok]
    exact ⟨_, _, _, _, _, rfl, rfl, hat.blanks, nofun⟩
  · obtain ⟨a, e, t, htok, ts', hts, rfl, hat, hword⟩ := tokenAt_spec hr hbuf hc0 hblank
    rw [hr, hts] at hlex
    subst hlex
    simp only [htok]
    exact ⟨_, _, _, _, _, rfl, rfl, hat.blanks, hword⟩

theorem lexer_sim (hline : NUL ∉ line) :
    Sim (lexer (bufOf line) line.length) tokens (At line) (text line) (IsRun line) where
  peek _ h htoks := by
    obtain ⟨b, t, hp, hp', ht⟩ := peek_at hline h htoks
    exact ⟨b, t, _, hp, hp', ht⟩
  gettoken h := gettoken_at hline h

end Line

/-! ### Terminated strings -/

/-- Where the strings of a command end. -/
def Cmd.ends : Cmd Span → List Nat
  | .exec argv => argv.map Prod.snd
  | .redir cmd file _ _ => cmd.ends ++ [file.2]
  | .pipe left right => left.ends ++ right.ends
  | .list left right => left.ends ++ right.ends
  | .back cmd => cmd.ends

theorem foldl_update (argv : List Span) (buf : Buf) (i : Nat) :
    argv.foldl (fun buf q => Function.update buf q.2 NUL) buf i =
      if i ∈ argv.map Prod.snd then NUL else buf i := by
  induction argv generalizing buf with
  | nil => simp
  | cons q argv ih =>
    rw [List.foldl_cons, ih, List.map_cons]
    by_cases hi : i ∈ argv.map Prod.snd
    · simp [hi]
    · by_cases hq : i = q.2
      · subst hq
        simp
      · simp [hi, hq]

/-- `nulterminate` writes NULs where the strings end and nothing else. -/
theorem nulterminate_apply (cmd : Cmd Span) (buf : Buf) (i : Nat) :
    nulterminate cmd buf i = if i ∈ cmd.ends then NUL else buf i := by
  induction cmd generalizing buf with
  | exec argv => exact foldl_update argv buf i
  | redir cmd file mode fd ih =>
    rw [nulterminate, Function.update_apply, ih, Cmd.ends]
    by_cases h : i = file.2 <;> simp [h]
  | pipe left right ihl ihr | list left right ihl ihr =>
    rw [nulterminate, ihr, ihl, Cmd.ends]
    by_cases h : i ∈ right.ends <;> simp [h]
  | back cmd ih => exact ih buf

/-- A string that is terminated where the run ends reads as the text of the run. -/
theorem cstring_eq {line : List Char} {buf : Buf} {q : Span} (hq : IsRun line q)
    (hline : NUL ∉ line) (hsame : ∀ i, q.1 ≤ i → i < q.2 → buf i = bufOf line i)
    (hend : buf q.2 = NUL) {n i : Nat} (hi : q.1 ≤ i) (hi' : i ≤ q.2) (hn : q.2 - i ≤ n) :
    cstring buf n i = (line.drop i).take (q.2 - i) := by
  have hle := hq.end_le
  induction n generalizing i with
  | zero =>
    rw [show q.2 - i = 0 by omega]
    rfl
  | succ n ih =>
    rw [cstring]
    rcases Nat.eq_or_lt_of_le hi' with rfl | hlt
    · simp [hend]
    · have hlen : i < line.length := by omega
      have hget : bufOf line i = (line)[i] := by
        rw [bufOf, List.getD_eq_getElem?_getD, List.getElem?_eq_getElem hlen]
        rfl
      have hne : (line)[i] ≠ NUL := by
        intro h0
        exact hline (h0 ▸ List.getElem_mem hlen)
      rw [hsame i hi hlt, hget, if_neg hne, ih (by omega) hlt (by omega),
        List.drop_eq_getElem_cons hlen, show q.2 - i = (q.2 - (i + 1)) + 1 by omega,
        List.take_succ_cons]

namespace Cmd

variable {σ τ : Type}

theorem All.imp {P Q : σ → Prop} (h : ∀ q, P q → Q q) {c : Cmd σ} (hc : c.All P) : c.All Q := by
  induction c with
  | exec argv => exact fun q hq => h q (hc q hq)
  | redir c file mode fd ih => exact ⟨ih hc.1, h file hc.2⟩
  | pipe left right ihl ihr | list left right ihl ihr => exact ⟨ihl hc.1, ihr hc.2⟩
  | back c ih => exact ih hc

theorem All.and {P Q : σ → Prop} {c : Cmd σ} (hp : c.All P) (hq : c.All Q) :
    c.All fun x => P x ∧ Q x := by
  induction c with
  | exec argv => exact fun x hx => ⟨hp x hx, hq x hx⟩
  | redir c file mode fd ih => exact ⟨ih hp.1 hq.1, hp.2, hq.2⟩
  | pipe left right ihl ihr | list left right ihl ihr => exact ⟨ihl hp.1 hq.1, ihr hp.2 hq.2⟩
  | back c ih => exact ih hp hq

theorem map_congr {f g : σ → τ} {c : Cmd σ} (h : c.All fun q => f q = g q) :
    c.map f = c.map g := by
  induction c with
  | exec argv => exact congrArg Cmd.exec (List.map_congr_left h)
  | redir c file mode fd ih => simp only [map, ih h.1, h.2]
  | pipe left right ihl ihr | list left right ihl ihr => simp only [map, ihl h.1, ihr h.2]
  | back c ih => simp only [map, ih h]

theorem all_ends {c : Cmd Span} {E : List Nat} (h : ∀ e ∈ c.ends, e ∈ E) :
    c.All fun q => q.2 ∈ E := by
  induction c with
  | exec argv => exact fun q hq => h q.2 (List.mem_map_of_mem hq)
  | redir c file mode fd ih =>
    exact ⟨ih fun e he => h e (List.mem_append_left _ he), h _ (List.mem_append_right _ (by simp))⟩
  | pipe left right ihl ihr | list left right ihl ihr =>
    exact ⟨ihl fun e he => h e (List.mem_append_left _ he),
      ihr fun e he => h e (List.mem_append_right _ he)⟩
  | back c ih => exact ih h

theorem All.of_end {P : Span → Prop} {c : Cmd Span} (h : c.All P) {e : Nat} (he : e ∈ c.ends) :
    ∃ q, P q ∧ q.2 = e := by
  induction c with
  | exec argv =>
    obtain ⟨q, hq, rfl⟩ := List.mem_map.mp he
    exact ⟨q, h q hq, rfl⟩
  | redir c file mode fd ih =>
    rcases List.mem_append.mp he with he | he
    · exact ih h.1 he
    · exact ⟨file, h.2, (List.mem_singleton.mp he).symm⟩
  | pipe left right ihl ihr | list left right ihl ihr =>
    rcases List.mem_append.mp he with he | he
    · exact ihl h.1 he
    · exact ihr h.2 he
  | back c ih => exact ih h he

end Cmd

/-- The strings of a command that has been terminated read as the words of the line. -/
theorem read_nulterminate {line : List Char} (hline : NUL ∉ line) {cmd : Cmd Span}
    (h : cmd.All (IsRun line)) :
    cmd.read (nulterminate cmd (bufOf line)) line.length = cmd.map (text line) := by
  refine Cmd.map_congr ((h.and (Cmd.all_ends fun e he => he)).imp ?_)
  rintro q ⟨hq, hend⟩
  refine cstring_eq hq hline ?_ ?_ (Nat.le_refl _) hq.start_le ?_
  · intro i hi hlt
    have hword := hq.word i hi hlt
    have hle := hq.end_le
    rw [nulterminate_apply, if_neg]
    -- a string ends at no character of a word
    intro hmem
    obtain ⟨r, hr, rfl⟩ := h.of_end hmem
    rw [hr.stop (by omega)] at hword
    contradiction
  · rw [nulterminate_apply, if_pos hend]
  · have := hq.end_le
    omega

/-! ### The whole line -/

/-- Behind the last token there are only blanks. -/
theorem blanks_eq_length {line : List Char} (hline : NUL ∉ line) {s : Nat} {ts : List Tok}
    (h : At line s ts) : blanks (bufOf line) line.length s = line.length ↔ ts = [] := by
  obtain ⟨hle, hlex⟩ := h.blanks
  rcases next_cases hline h.1 with ⟨hr, -⟩ | ⟨c, r, hr, hbuf, hc0, hblank⟩
  · have hge := List.drop_eq_nil_iff.mp hr
    rw [hr, lex_nil] at hlex
    exact iff_of_true (by omega) hlex.symm
  · obtain ⟨-, hlt⟩ := drop_succ hr
    obtain ⟨-, -, t, -, ts', hts, -⟩ := tokenAt_spec hr hbuf hc0 hblank
    rw [hr, hts] at hlex
    exact iff_of_false (by omega) (by rw [← hlex]; simp)

theorem parsecmd_of_ok {line : List Char} {cmd : Cmd Span} {s : Nat}
    (h : parseline (lexer (bufOf line) line.length) (fuel line.length) 0 = .ok (cmd, s)) :
    parsecmd line = if blanks (bufOf line) line.length s ≠ line.length then .error (.panic "syntax")
      else .ok (cmd, nulterminate cmd (bufOf line)) := by
  unfold parsecmd
  dsimp only
  rw [h]
  rfl

/-- `parsecmd` ends on every line. It returns a command exactly if the grammar derives one from
the line; that command is the only one, and its strings, read as C strings from the buffer, are
the words of the line. Otherwise it ends in an error. -/
theorem parsecmd_correct {line : List Char} (hline : NUL ∉ line) :
    (∃ cmd buf, parsecmd line = .ok (cmd, buf) ∧
      ∀ c, Parses line c ↔ c = cmd.read buf line.length) ∨
    (∃ msg, parsecmd line = .error (.panic msg)) ∧ ∀ c, ¬ Parses line c := by
  have hfuel : 4 * (lex line).length + 4 ≤ fuel line.length := by
    have := length_lex_le line
    unfold fuel
    omega
  have hstep := ((lexer_sim hline).parse (fuel line.length)).1 0 (lex line) ⟨Nat.zero_le _, rfl⟩
  simp only [parses_iff]
  rcases parseline_correct hfuel with ⟨c, hok, hiff⟩ | ⟨⟨c, t, rest, hok⟩ | ⟨msg, herr⟩, hnone⟩
  · rcases hstep with ⟨e, -, he⟩ | ⟨⟨cmd, s⟩, ⟨c', ts⟩, hcmd, hts, hc, hall, hat⟩
    · rw [hok] at he
      contradiction
    · rw [hok] at hts
      cases hts
      left
      rw [parsecmd_of_ok hcmd, if_neg (not_not_intro ((blanks_eq_length hline hat).mpr rfl))]
      refine ⟨cmd, _, rfl, fun c' => ?_⟩
      rw [hiff c', read_nulterminate hline hall, ← hc]
  · rcases hstep with ⟨e, -, he⟩ | ⟨⟨cmd, s⟩, ⟨c', ts⟩, hcmd, hts, hc, hall, hat⟩
    · rw [hok] at he
      contradiction
    · rw [hok] at hts
      cases hts
      refine .inr ⟨⟨"syntax", ?_⟩, hnone⟩
      rw [parsecmd_of_ok hcmd, if_pos]
      intro heq
      cases (blanks_eq_length hline hat).mp heq
  · rcases hstep with ⟨e, he, he'⟩ | ⟨⟨cmd, s⟩, ⟨c', ts⟩, hcmd, hts, -⟩
    · rw [herr] at he'
      cases he'
      refine .inr ⟨⟨msg, ?_⟩, hnone⟩
      unfold parsecmd
      dsimp only
      rw [he]
    · rw [herr] at hts
      contradiction

/-- `(a b > f | c) & ; d` -/
def sampleLine : List Char := "(a b > f | c)& ;d".toList

theorem parsecmd_correct_sample :
    ∃ cmd buf, parsecmd sampleLine = .ok (cmd, buf) ∧
      cmd.read buf sampleLine.length =
        .list (.back (.pipe (.redir (.exec [['a'], ['b']]) ['f'] 0x601 1) (.exec [['c']])))
          (.exec [['d']]) ∧
      Parses sampleLine (cmd.read buf sampleLine.length) := by
  have hrun : (parsecmd sampleLine).toOption.map (fun r => r.1.read r.2 sampleLine.length) =
      some (.list (.back (.pipe (.redir (.exec [['a'], ['b']]) ['f'] 0x601 1) (.exec [['c']])))
        (.exec [['d']])) := by decide +kernel
  rcases parsecmd_correct (show NUL ∉ sampleLine by decide) with ⟨cmd, buf, hok, hiff⟩ | ⟨⟨msg, herr⟩, -⟩
  · rw [hok] at hrun
    exact ⟨cmd, buf, hok, Option.some.inj hrun, (hiff _).mpr rfl⟩
  · rw [herr] at hrun
    contradiction

end Xv6.Sh
