import Xv6.Sh.Model
import Mathlib.Data.List.Basic

/-!
# The grammar of command lines

Tokens, the grammar over them with the command it gives, and the parser run on lists of tokens:
it accepts exactly what the grammar derives, and the fuel is enough.
-/
namespace Xv6.Sh

set_option autoImplicit false

/-! ### Tokens -/

inductive Sym where
  | lt | bar | gt | amp | semi | lpar | rpar
  deriving DecidableEq, Repr

def Sym.char : Sym → Char
  | lt => '<' | bar => '|' | gt => '>' | amp => '&' | semi => ';' | lpar => '(' | rpar => ')'

inductive Tok where
  | sym (c : Sym)
  /-- The token `>>`. -/
  | append
  | word (w : List Char)
  deriving DecidableEq, Repr

namespace Tok

/-- What `gettoken` returns for the token. -/
def code : Tok → Char
  | sym c => c.char
  | append => '+'
  | word _ => 'a'

def text : Tok → List Char
  | word w => w
  | _ => []

/-- Whether `peek` sees one of the characters. -/
def starts (toks : List Char) : Tok → Bool
  | sym c => toks.contains c.char
  | append => toks.contains '>'
  | word _ => false

theorem code_eq_a {t : Tok} (h : t.code = 'a') : ∃ w, t = word w := by
  rcases t with c | _ | w
  · cases c <;> exact absurd h (by decide)
  · exact absurd h (by decide)
  · exact ⟨w, rfl⟩

end Tok

/-- The parser reads from a list of tokens. -/
def tokens : Lexer (List Tok) (List Char) where
  peek ts toks := (ts.head?.any (Tok.starts toks), ts)
  gettoken
    | [] => (NUL, [], [])
    | t :: ts => (t.code, t.text, ts)

@[simp] theorem peek_nil (toks : List Char) : tokens.peek [] toks = (false, []) := rfl

@[simp] theorem peek_cons (t : Tok) (ts : List Tok) (toks : List Char) :
    tokens.peek (t :: ts) toks = (t.starts toks, t :: ts) := rfl

@[simp] theorem gettoken_nil : tokens.gettoken [] = (NUL, [], []) := rfl

@[simp] theorem gettoken_cons (t : Tok) (ts : List Tok) :
    tokens.gettoken (t :: ts) = (t.code, t.text, ts) := rfl

/-! ### The grammar -/

/-- `redirs ::= (('<' | '>' | '>>') word)*` -/
inductive Redirs : List Tok → List (Redir (List Char)) → Prop where
  | nil : Redirs [] []
  | input {w ts rs} : Redirs ts rs → Redirs (.sym .lt :: .word w :: ts) (⟨w, O_RDONLY, 0⟩ :: rs)
  | output {w ts rs} : Redirs ts rs →
      Redirs (.sym .gt :: .word w :: ts) (⟨w, O_WRONLY ||| O_CREATE ||| O_TRUNC, 1⟩ :: rs)
  | append {w ts rs} : Redirs ts rs →
      Redirs (.append :: .word w :: ts) (⟨w, O_WRONLY ||| O_CREATE, 1⟩ :: rs)

/-- `(word redirs)*` -/
inductive Args : List Tok → List (List Char) → List (Redir (List Char)) → Prop where
  | nil : Args [] [] []
  | cons {w ts rs ts' ws rs'} : Redirs ts rs → Args ts' ws rs' →
      Args (.word w :: (ts ++ ts')) (w :: ws) (rs ++ rs')

inductive NonTerminal where
  | line | pipe | exec
  deriving DecidableEq

/-- `k` times `&` behind a command. -/
def backs {σ : Type} : Nat → Cmd σ → Cmd σ
  | 0, c => c
  | k + 1, c => backs k (.back c)

/-- The lines of the shell:
```
line ::= pipe '&'* [';' line]
pipe ::= exec ['|' pipe]
exec ::= '(' line ')' redirs | redirs (word redirs)*    with at most MAXARGS-1 words
```
-/
inductive Derives : NonTerminal → List Tok → Cmd (List Char) → Prop where
  | line {ts c} (k : Nat) : Derives .pipe ts c →
      Derives .line (ts ++ List.replicate k (.sym .amp)) (backs k c)
  | list {ts c ts' c'} (k : Nat) : Derives .pipe ts c → Derives .line ts' c' →
      Derives .line (ts ++ (List.replicate k (.sym .amp) ++ .sym .semi :: ts'))
        (.list (backs k c) c')
  | one {ts c} : Derives .exec ts c → Derives .pipe ts c
  | pipe {ts c ts' c'} : Derives .exec ts c → Derives .pipe ts' c' →
      Derives .pipe (ts ++ .sym .bar :: ts') (.pipe c c')
  | block {ts c ts' rs} : Derives .line ts c → Redirs ts' rs →
      Derives .exec (.sym .lpar :: (ts ++ .sym .rpar :: ts')) (wrap c rs)
  | exec {ts rs ts' ws rs'} : Redirs ts rs → Args ts' ws rs' → ws.length ≤ MAXARGS - 1 →
      Derives .exec (ts ++ ts') (wrap (.exec ws) (rs ++ rs'))

/-! ### What the parser accepts is derived -/

section Sound

variable {n : Nat} {ts rest : List Tok}

theorem parseredirs_sound {acc rs : List (Redir (List Char))}
    (h : parseredirs tokens n ts acc = .ok (rs, rest)) :
    ∃ pre rs', ts = pre ++ rest ∧ rs = acc ++ rs' ∧ Redirs pre rs' := by
  induction n generalizing ts acc with
  | zero => contradiction
  | succ n ih =>
    rcases ts with _ | ⟨t, ts⟩
    · cases h
      exact ⟨[], [], rfl, by simp, .nil⟩
    · simp only [parseredirs, peek_cons] at h
      cases ht : t.starts ['<', '>'] with
      | false =>
        simp only [ht] at h
        cases h
        exact ⟨[], [], rfl, by simp, .nil⟩
      | true =>
        simp only [ht] at h
        rcases ts with _ | ⟨u, ts⟩
        · simp [NUL] at h
        · by_cases hu : u.code = 'a'
          · obtain ⟨w, rfl⟩ := Tok.code_eq_a hu
            simp only [gettoken_cons, hu, ne_eq, not_true_eq_false, if_false] at h
            obtain ⟨pre, rs', rfl, rfl, hpre⟩ := ih h
            rcases t with c | _ | _
            · cases c
              case lt => exact ⟨_, _, rfl, by simp [redirs, Tok.code, Sym.char, Tok.text], .input hpre⟩
              case gt => exact ⟨_, _, rfl, by simp [redirs, Tok.code, Sym.char, Tok.text], .output hpre⟩
              all_goals simp [Tok.starts, Sym.char] at ht
            · exact ⟨_, _, rfl, by simp [redirs, Tok.code, Tok.text], .append hpre⟩
            · simp [Tok.starts] at ht
          · simp [hu] at h

theorem parseargs_cons (n : Nat) (t : Tok) (ts : List Tok) (argv : List (List Char))
    (rs : List (Redir (List Char))) :
    parseargs tokens (n + 1) (t :: ts) argv rs =
      match t.starts ['|', ')', '&', ';'], t with
      | true, _ => .ok (argv, rs, t :: ts)
      | false, .word w =>
        if argv.length + 1 ≥ MAXARGS then .error (.panic "too many args")
        else
          match parseredirs tokens n ts rs with
          | .error e => .error e
          | .ok (rs, s) => parseargs tokens n s (argv ++ [w]) rs
      | false, _ => .error (.panic "syntax") := by
  rcases t with c | _ | w
  · cases c <;> rfl
  · rfl
  · simp [parseargs, Tok.starts, Tok.code, Tok.text, NUL]
    cases parseredirs tokens n ts rs <;> rfl

theorem parseargs_sound {argv ws : List (List Char)} {acc rs : List (Redir (List Char))}
    (h : parseargs tokens n ts argv acc = .ok (ws, rs, rest)) (hargv : argv.length ≤ MAXARGS - 1) :
    ∃ pre ws' rs', ts = pre ++ rest ∧ ws = argv ++ ws' ∧ rs = acc ++ rs' ∧ Args pre ws' rs' ∧
      ws.length ≤ MAXARGS - 1 := by
  induction n generalizing ts argv acc with
  | zero => contradiction
  | succ n ih =>
    rcases ts with _ | ⟨t, ts⟩
    · cases h
      exact ⟨[], [], [], rfl, by simp, by simp, .nil, hargv⟩
    · rw [parseargs_cons] at h
      split at h
      · cases h
        exact ⟨[], [], [], rfl, by simp, by simp, .nil, hargv⟩
      · next w _ =>
        split at h
        · contradiction
        · next hmany =>
          split at h
          · contradiction
          · next rs₁ s hredirs =>
            obtain ⟨pre, rs', rfl, rfl, hpre⟩ := parseredirs_sound hredirs
            have hlen : (argv ++ [w]).length ≤ MAXARGS - 1 := by
              simp only [List.length_append, List.length_singleton]
              omega
            obtain ⟨pre', ws', rs'', rfl, rfl, rfl, hargs, hws⟩ := ih h hlen
            exact ⟨.word w :: (pre ++ pre'), w :: ws', rs' ++ rs'', by simp, by simp, by simp,
              .cons hpre hargs, hws⟩
      · contradiction

theorem backs_succ {σ : Type} (k : Nat) (c : Cmd σ) : backs (k + 1) c = backs k (.back c) := rfl

theorem parsebacks_sound {c c' : Cmd (List Char)} (h : parsebacks tokens n ts c = .ok (c', rest)) :
    ∃ k, ts = List.replicate k (.sym .amp) ++ rest ∧ c' = backs k c := by
  induction n generalizing ts c with
  | zero => contradiction
  | succ n ih =>
    rcases ts with _ | ⟨t, ts⟩
    · cases h
      exact ⟨0, rfl, rfl⟩
    · simp only [parsebacks, peek_cons] at h
      cases ht : t.starts ['&'] with
      | false =>
        simp only [ht] at h
        cases h
        exact ⟨0, rfl, rfl⟩
      | true =>
        simp only [ht] at h
        obtain ⟨k, rfl, rfl⟩ := ih h
        refine ⟨k + 1, ?_, rfl⟩
        rcases t with c | _ | _
        · cases c <;> simp [Tok.starts, Sym.char] at ht
          rfl
        · simp [Tok.starts] at ht
        · simp [Tok.starts] at ht

theorem peek_false {ts' : List Tok} {toks : List Char} (h : tokens.peek ts toks = (false, ts')) :
    ts' = ts := (congrArg Prod.snd h).symm

/-- `peek` for one symbol other than `>`. -/
theorem peek_sym {c : Sym} (hc : c ≠ .gt) {ts' : List Tok}
    (h : tokens.peek ts [c.char] = (true, ts')) : ∃ r, ts = .sym c :: r ∧ ts' = .sym c :: r := by
  rcases ts with _ | ⟨t, r⟩
  · simp at h
  · obtain ⟨ht, rfl⟩ := Prod.mk.inj h
    refine ⟨r, ?_, ?_⟩ <;> rcases t with d | _ | _ <;> cases c <;> try cases d
    all_goals first
      | rfl
      | exact absurd ht (by decide)
      | exact absurd rfl hc
      | exact absurd ht Bool.false_ne_true

/-- What each parsing function returns is derived from what it has consumed. -/
def SoundAt (n : Nat) (nt : NonTerminal)
    (parse : Nat → List Tok → Except Stop (Cmd (List Char) × List Tok)) : Prop :=
  ∀ ts c rest, parse n ts = .ok (c, rest) → ∃ pre, ts = pre ++ rest ∧ Derives nt pre c

theorem parseline_sound_succ (hpipe : SoundAt n .pipe (parsepipe tokens))
    (hline : SoundAt n .line (parseline tokens)) : SoundAt (n + 1) .line (parseline tokens) := by
  intro ts c rest h
  unfold parseline at h
  split at h
  · contradiction
  · next c₁ s₁ hp =>
    obtain ⟨pre, rfl, hpre⟩ := hpipe _ _ _ hp
    split at h
    · contradiction
    · next c₂ s₂ hb =>
      obtain ⟨k, rfl, rfl⟩ := parsebacks_sound hb
      split at h
      · next s₃ hpeek =>
        obtain rfl := peek_false hpeek
        cases h
        exact ⟨_, (List.append_assoc ..).symm, .line k hpre⟩
      · next s₃ hpeek =>
        obtain ⟨r, rfl, rfl⟩ := peek_sym (c := .semi) (by decide) hpeek
        simp only [gettoken_cons] at h
        split at h
        · contradiction
        · next right s₄ hr =>
          obtain ⟨pre', rfl, hpre'⟩ := hline _ _ _ hr
          cases h
          exact ⟨_, by simp, .list k hpre hpre'⟩

theorem parsepipe_sound_succ (hexec : SoundAt n .exec (parseexec tokens))
    (hpipe : SoundAt n .pipe (parsepipe tokens)) : SoundAt (n + 1) .pipe (parsepipe tokens) := by
  intro ts c rest h
  unfold parsepipe at h
  split at h
  · contradiction
  · next c₁ s₁ hp =>
    obtain ⟨pre, rfl, hpre⟩ := hexec _ _ _ hp
    split at h
    · next s₃ hpeek =>
      obtain rfl := peek_false hpeek
      cases h
      exact ⟨pre, rfl, .one hpre⟩
    · next s₃ hpeek =>
      obtain ⟨r, rfl, rfl⟩ := peek_sym (c := .bar) (by decide) hpeek
      simp only [gettoken_cons] at h
      split at h
      · contradiction
      · next right s₄ hr =>
        obtain ⟨pre', rfl, hpre'⟩ := hpipe _ _ _ hr
        cases h
        exact ⟨_, by simp, .pipe hpre hpre'⟩

theorem parseblock_sound_succ (hline : SoundAt n .line (parseline tokens)) :
    SoundAt (n + 1) .exec (parseblock tokens) := by
  intro ts c rest h
  unfold parseblock at h
  split at h
  · contradiction
  · next s₁ hpeek =>
    obtain ⟨r, rfl, rfl⟩ := peek_sym (c := .lpar) (by decide) hpeek
    simp only [gettoken_cons] at h
    split at h
    · contradiction
    · next c₁ s₂ hl =>
      obtain ⟨pre, rfl, hpre⟩ := hline _ _ _ hl
      split at h
      · contradiction
      · next s₃ hpeek =>
        obtain ⟨r, rfl, rfl⟩ := peek_sym (c := .rpar) (by decide) hpeek
        simp only [gettoken_cons] at h
        split at h
        · contradiction
        · next rs s₄ hr =>
          obtain ⟨pre', rs', rfl, rfl, hpre'⟩ := parseredirs_sound hr
          cases h
          exact ⟨_, by simp, .block hpre hpre'⟩

theorem parseexec_sound_succ (hblock : SoundAt n .exec (parseblock tokens)) :
    SoundAt (n + 1) .exec (parseexec tokens) := by
  intro ts c rest h
  unfold parseexec at h
  split at h
  · next s₁ hpeek =>
    obtain ⟨r, rfl, rfl⟩ := peek_sym (c := .lpar) (by decide) hpeek
    exact hblock _ _ _ h
  · next s₁ hpeek =>
    obtain rfl := peek_false hpeek
    split at h
    · contradiction
    · next rs s₂ hr =>
      obtain ⟨pre, rs₁, rfl, rfl, hpre⟩ := parseredirs_sound hr
      split at h
      · contradiction
      · next argv rs s₃ ha =>
        obtain ⟨pre', ws, rs₂, rfl, rfl, rfl, hargs, hlen⟩ := parseargs_sound ha (by simp)
        cases h
        exact ⟨_, (List.append_assoc ..).symm, .exec hpre hargs hlen⟩

theorem parse_sound (n : Nat) :
    SoundAt n .line (parseline tokens) ∧ SoundAt n .pipe (parsepipe tokens) ∧
      SoundAt n .exec (parseblock tokens) ∧ SoundAt n .exec (parseexec tokens) := by
  induction n with
  | zero => exact ⟨nofun, nofun, nofun, nofun⟩
  | succ n ih =>
    obtain ⟨hline, hpipe, hblock, hexec⟩ := ih
    exact ⟨parseline_sound_succ hpipe hline, parsepipe_sound_succ hexec hpipe,
      parseblock_sound_succ hline, parseexec_sound_succ hblock⟩

end Sound

/-! ### What is derived is accepted -/

/-- The parser returns this, if it has fuel enough. -/
def Yields {α : Type} (r : Except Stop α) (x : α) : Prop := r = .ok x ∨ r = .error .fuel

/-- What may follow in the rest of the line: nothing, or one of these symbols. -/
def Before (cs : List Sym) (rest : List Tok) : Prop :=
  ∀ t ∈ rest.head?, ∃ c ∈ cs, t = .sym c

def NonTerminal.follow : NonTerminal → List Sym
  | line => [.rpar]
  | pipe => [.rpar, .amp, .semi]
  | exec => [.rpar, .amp, .semi, .bar]

theorem Before.mono {cs cs' : List Sym} {rest : List Tok} (h : Before cs rest)
    (hcs : ∀ c ∈ cs, c ∈ cs') : Before cs' rest := by
  intro t ht
  obtain ⟨c, hc, rfl⟩ := h t ht
  exact ⟨c, hcs c hc, rfl⟩

theorem before_cons {cs : List Sym} {c : Sym} (hc : c ∈ cs) (rest : List Tok) :
    Before cs (.sym c :: rest) := by
  intro t ht
  exact ⟨c, hc, (Option.mem_some_iff.mp ht).symm⟩

/-- `peek` sees none of the characters if they are not among the following symbols. -/
theorem peek_before {cs : List Sym} {rest : List Tok} {toks : List Char} (h : Before cs rest)
    (htoks : ∀ c ∈ cs, c.char ∉ toks) : tokens.peek rest toks = (false, rest) := by
  rcases rest with _ | ⟨t, rest⟩
  · rfl
  · obtain ⟨c, hc, rfl⟩ := h t rfl
    have := htoks c hc
    simp [Tok.starts, this]

section Complete

variable {n : Nat} {ts rest : List Tok}

theorem parseredirs_word {t : Tok} (ht : t.starts ['<', '>'] = true) (n : Nat) (w : List Char)
    (ts : List Tok) (acc : List (Redir (List Char))) :
    parseredirs tokens (n + 1) (t :: .word w :: ts) acc =
      parseredirs tokens n ts (acc ++ redirs t.code w) := by
  simp [parseredirs, ht, Tok.code, Tok.text]

theorem parseredirs_complete {rs : List (Redir (List Char))} (acc : List (Redir (List Char)))
    (h : Redirs ts rs)
    (hrest : tokens.peek rest ['<', '>'] = (false, rest)) :
    Yields (parseredirs tokens n (ts ++ rest) acc) (acc ++ rs, rest) := by
  induction h generalizing n acc with
  | nil =>
    rcases n with _ | n
    · exact .inr rfl
    · left
      simp [parseredirs, hrest]
  | input _ ih | output _ ih | append _ ih =>
    rcases n with _ | n
    · exact .inr rfl
    · simp only [List.cons_append]
      rw [parseredirs_word rfl, List.append_cons]
      exact ih _

/-- Behind the redirections come words or the rest. -/
theorem peek_args {ws : List (List Char)} {rs : List (Redir (List Char))} (h : Args ts ws rs)
    (hrest : Before NonTerminal.exec.follow rest) (toks : List Char)
    (htoks : ∀ c ∈ NonTerminal.exec.follow, c.char ∉ toks) :
    tokens.peek (ts ++ rest) toks = (false, ts ++ rest) := by
  cases h with
  | nil => exact peek_before hrest htoks
  | cons => rfl

theorem parseargs_complete {ws : List (List Char)} {rs : List (Redir (List Char))}
    (argv : List (List Char)) (acc : List (Redir (List Char))) (h : Args ts ws rs) (hlen : argv.length + ws.length ≤ MAXARGS - 1)
    (hrest : Before NonTerminal.exec.follow rest) :
    Yields (parseargs tokens n (ts ++ rest) argv acc) (argv ++ ws, acc ++ rs, rest) := by
  induction h generalizing n argv acc with
  | nil =>
    rcases n with _ | n
    · exact .inr rfl
    · left
      simp only [List.nil_append, List.append_nil]
      rcases rest with _ | ⟨t, rest⟩
      · rfl
      · obtain ⟨c, hc, rfl⟩ := hrest t rfl
        rw [parseargs_cons]
        cases c <;> first | rfl | simp [NonTerminal.follow] at hc
  | @cons w ts rs ts' ws rs' hredirs hargs ih =>
    rcases n with _ | n
    · exact .inr rfl
    · rw [List.cons_append, List.append_assoc, parseargs_cons]
      simp only [List.length_cons] at hlen
      have hroom : ¬ argv.length + 1 ≥ MAXARGS := by
        unfold MAXARGS at hlen ⊢
        omega
      have hpeek := peek_args hargs hrest ['<', '>'] (by decide)
      simp only [Tok.starts, hroom, if_false]
      rcases parseredirs_complete (n := n) acc hredirs hpeek with heq | heq
      · rw [heq]
        have := ih (n := n) (argv ++ [w]) (acc ++ rs) (by simp; omega)
        simpa using this
      · rw [heq]
        exact .inr rfl

theorem parsebacks_complete (k : Nat) {c : Cmd (List Char)}
    (hrest : tokens.peek rest ['&'] = (false, rest)) :
    Yields (parsebacks tokens n (List.replicate k (.sym .amp) ++ rest) c) (backs k c, rest) := by
  induction k generalizing n c with
  | zero =>
    rcases n with _ | n
    · exact .inr rfl
    · left
      simp [parsebacks, hrest, backs]
  | succ k ih =>
    rcases n with _ | n
    · exact .inr rfl
    · exact ih (n := n) (c := .back c)

/-- The parsing function of a non-terminal. -/
def NonTerminal.parse : NonTerminal → Nat → List Tok → Except Stop (Cmd (List Char) × List Tok)
  | line => parseline tokens
  | pipe => parsepipe tokens
  | exec => parseexec tokens

theorem peek_sym_cons (c : Sym) (ts : List Tok) :
    tokens.peek (.sym c :: ts) [c.char] = (true, .sym c :: ts) := by
  simp [Tok.starts]

theorem before_amps {cs : List Sym} (hcs : .amp ∈ cs) (k : Nat) (h : Before cs rest) :
    Before cs (List.replicate k (.sym .amp) ++ rest) := by
  cases k with
  | zero => exact h
  | succ k => exact before_cons hcs _

theorem parseline_end {c : Cmd (List Char)} {k : Nat}
    (hpipe : Yields (parsepipe tokens n (ts ++ (List.replicate k (.sym .amp) ++ rest)))
      (c, List.replicate k (.sym .amp) ++ rest))
    (hrest : Before NonTerminal.line.follow rest) :
    Yields (parseline tokens (n + 1) (ts ++ (List.replicate k (.sym .amp) ++ rest)))
      (backs k c, rest) := by
  have hbacks := parsebacks_complete (n := n) (c := c) k (peek_before hrest (by decide))
  unfold parseline
  rcases hpipe with heq | heq <;> rw [heq]
  · dsimp only
    rcases hbacks with heq | heq <;> rw [heq]
    · left
      dsimp only
      rw [peek_before hrest (by decide)]
    · exact .inr rfl
  · exact .inr rfl

theorem parseline_semi {c c' : Cmd (List Char)} {k : Nat} {r : List Tok}
    (hpipe : Yields
      (parsepipe tokens n (ts ++ (List.replicate k (.sym .amp) ++ .sym .semi :: r)))
      (c, List.replicate k (.sym .amp) ++ .sym .semi :: r))
    (hline : Yields (parseline tokens n r) (c', rest)) :
    Yields (parseline tokens (n + 1) (ts ++ (List.replicate k (.sym .amp) ++ .sym .semi :: r)))
      (.list (backs k c) c', rest) := by
  have hpeek : tokens.peek (.sym .semi :: r) ['&'] = (false, .sym .semi :: r) := rfl
  have hbacks := parsebacks_complete (n := n) (c := c) k hpeek
  unfold parseline
  rcases hpipe with heq | heq <;> rw [heq]
  · dsimp only
    rcases hbacks with heq | heq <;> rw [heq]
    · dsimp only
      rw [show tokens.peek (.sym .semi :: r) [';'] = (true, .sym .semi :: r) from rfl]
      simp only [gettoken_cons]
      rcases hline with heq | heq <;> rw [heq]
      · exact .inl rfl
      · exact .inr rfl
    · exact .inr rfl
  · exact .inr rfl

theorem parsepipe_end {c : Cmd (List Char)} (hexec : Yields (parseexec tokens n (ts ++ rest)) (c, rest))
    (hrest : Before NonTerminal.pipe.follow rest) :
    Yields (parsepipe tokens (n + 1) (ts ++ rest)) (c, rest) := by
  unfold parsepipe
  rcases hexec with heq | heq <;> rw [heq]
  · left
    dsimp only
    rw [peek_before hrest (by decide)]
  · exact .inr rfl

theorem parsepipe_bar {c c' : Cmd (List Char)} {r : List Tok}
    (hexec : Yields (parseexec tokens n (ts ++ .sym .bar :: r)) (c, .sym .bar :: r))
    (hpipe : Yields (parsepipe tokens n r) (c', rest)) :
    Yields (parsepipe tokens (n + 1) (ts ++ .sym .bar :: r)) (.pipe c c', rest) := by
  unfold parsepipe
  rcases hexec with heq | heq <;> rw [heq]
  · dsimp only
    rw [show tokens.peek (.sym .bar :: r) ['|'] = (true, .sym .bar :: r) from rfl]
    simp only [gettoken_cons]
    rcases hpipe with heq | heq <;> rw [heq]
    · exact .inl rfl
    · exact .inr rfl
  · exact .inr rfl

theorem parseblock_complete {c : Cmd (List Char)} {ts' : List Tok} {rs : List (Redir (List Char))}
    (hline : Yields (parseline tokens n (ts ++ .sym .rpar :: (ts' ++ rest)))
      (c, .sym .rpar :: (ts' ++ rest)))
    (hrs : Redirs ts' rs) (hrest : Before NonTerminal.exec.follow rest) :
    Yields (parseblock tokens (n + 1) (.sym .lpar :: (ts ++ .sym .rpar :: (ts' ++ rest))))
      (wrap c rs, rest) := by
  have hredirs := parseredirs_complete (n := n) [] hrs (peek_before hrest (by decide))
  unfold parseblock
  rw [show tokens.peek (.sym .lpar :: (ts ++ .sym .rpar :: (ts' ++ rest))) ['('] =
    (true, .sym .lpar :: (ts ++ .sym .rpar :: (ts' ++ rest))) from rfl]
  simp only [gettoken_cons]
  rcases hline with heq | heq <;> rw [heq]
  · dsimp only
    rw [show tokens.peek (.sym .rpar :: (ts' ++ rest)) [')'] =
      (true, .sym .rpar :: (ts' ++ rest)) from rfl]
    simp only [gettoken_cons]
    rcases hredirs with heq | heq <;> rw [heq]
    · exact .inl rfl
    · exact .inr rfl
  · exact .inr rfl

theorem parseexec_complete {ts' : List Tok} {ws : List (List Char)}
    {rs rs' : List (Redir (List Char))} (hrs : Redirs ts rs) (hargs : Args ts' ws rs')
    (hlen : ws.length ≤ MAXARGS - 1) (hrest : Before NonTerminal.exec.follow rest) :
    Yields (parseexec tokens (n + 1) (ts ++ (ts' ++ rest)))
      (wrap (.exec ws) (rs ++ rs'), rest) := by
  have hpeek : tokens.peek (ts ++ (ts' ++ rest)) ['('] = (false, ts ++ (ts' ++ rest)) := by
    cases hrs with
    | nil => exact peek_args hargs hrest _ (by decide)
    | input => rfl
    | output => rfl
    | append => rfl
  have hredirs := parseredirs_complete (n := n) [] hrs
    (peek_args hargs hrest ['<', '>'] (by decide))
  rw [List.nil_append] at hredirs
  have hparse := parseargs_complete (n := n) [] rs hargs (by simpa using hlen) hrest
  unfold parseexec
  rw [hpeek]
  dsimp only
  rcases hredirs with heq | heq <;> rw [heq]
  · dsimp only
    rcases hparse with heq | heq <;> rw [heq]
    · exact .inl rfl
    · exact .inr rfl
  · exact .inr rfl

theorem parse_complete {nt : NonTerminal} {c : Cmd (List Char)} (h : Derives nt ts c)
    (hrest : Before nt.follow rest) : Yields (nt.parse n (ts ++ rest)) (c, rest) := by
  induction h generalizing n rest with
  | @line ts c k hts ih =>
    rcases n with _ | n
    · exact .inr rfl
    · rw [List.append_assoc]
      exact parseline_end (ih (before_amps (by decide) k (hrest.mono (by decide)))) hrest
  | @list ts c ts' c' k hts hts' ih ih' =>
    rcases n with _ | n
    · exact .inr rfl
    · simp only [List.append_assoc, List.cons_append]
      exact parseline_semi (ih (before_amps (by decide) k (before_cons (by decide) _))) (ih' hrest)
  | @one ts c hts ih =>
    rcases n with _ | n
    · exact .inr rfl
    · exact parsepipe_end (ih (hrest.mono (by decide))) hrest
  | @pipe ts c ts' c' hts hts' ih ih' =>
    rcases n with _ | n
    · exact .inr rfl
    · rw [List.append_assoc, List.cons_append]
      exact parsepipe_bar (ih (before_cons (by decide) _)) (ih' hrest)
  | @block ts c ts' rs hts hrs ih =>
    rcases n with _ | _ | n
    · exact .inr rfl
    · exact .inr rfl
    · simp only [List.cons_append, List.append_assoc]
      exact parseblock_complete (ih (before_cons (by decide) _)) hrs hrest
  | @exec ts rs ts' ws rs' hrs hargs hlen =>
    rcases n with _ | n
    · exact .inr rfl
    · rw [List.append_assoc]
      exact parseexec_complete hrs hargs hlen hrest

end Complete

/-! ### The fuel is enough -/

section Fuel

variable {n : Nat} {ts : List Tok}

theorem parseredirs_fuel {acc : List (Redir (List Char))}
    (h : parseredirs tokens n ts acc = .error .fuel) : n ≤ ts.length := by
  induction n generalizing ts acc with
  | zero => exact Nat.zero_le _
  | succ n ih =>
    rcases ts with _ | ⟨t, ts⟩
    · contradiction
    · simp only [parseredirs, peek_cons] at h
      cases ht : t.starts ['<', '>'] with
      | false => simp [ht] at h
      | true =>
        simp only [ht] at h
        rcases ts with _ | ⟨u, ts⟩
        · simp [NUL] at h
        · by_cases hu : u.code = 'a'
          · simp only [gettoken_cons, hu, ne_eq, not_true_eq_false, if_false] at h
            have := ih h
            simp only [List.length_cons]
            omega
          · simp [hu] at h

theorem parseargs_fuel {argv : List (List Char)} {acc : List (Redir (List Char))}
    (h : parseargs tokens n ts argv acc = .error .fuel) : n ≤ ts.length := by
  induction n generalizing ts argv acc with
  | zero => exact Nat.zero_le _
  | succ n ih =>
    rcases ts with _ | ⟨t, ts⟩
    · contradiction
    · rw [parseargs_cons] at h
      rw [List.length_cons]
      split at h
      · contradiction
      · split at h
        · contradiction
        · split at h
          · next e he =>
            cases h
            have := parseredirs_fuel he
            omega
          · next rs s hr =>
            obtain ⟨pre, -, rfl, -⟩ := parseredirs_sound hr
            have := ih h
            rw [List.length_append]
            omega
      · contradiction

theorem parsebacks_fuel {c : Cmd (List Char)} (h : parsebacks tokens n ts c = .error .fuel) :
    n ≤ ts.length := by
  induction n generalizing ts c with
  | zero => exact Nat.zero_le _
  | succ n ih =>
    rcases ts with _ | ⟨t, ts⟩
    · contradiction
    · simp only [parsebacks, peek_cons] at h
      cases ht : t.starts ['&'] with
      | false => simp [ht] at h
      | true =>
        simp only [ht, gettoken_cons] at h
        have := ih h
        rw [List.length_cons]
        omega

/-- A parsing function that stops for lack of fuel had less than this. -/
def FuelAt (n k : Nat) (parse : Nat → List Tok → Except Stop (Cmd (List Char) × List Tok)) : Prop :=
  ∀ ts, parse n ts = .error .fuel → n < 4 * ts.length + k

theorem parse_fuel (n : Nat) :
    FuelAt n 4 (parseline tokens) ∧ FuelAt n 3 (parsepipe tokens) ∧
      FuelAt n 1 (parseblock tokens) ∧ FuelAt n 2 (parseexec tokens) := by
  induction n with
  | zero => refine ⟨?_, ?_, ?_, ?_⟩ <;> intro ts _ <;> omega
  | succ n ih =>
    obtain ⟨hline, hpipe, hblock, hexec⟩ := ih
    obtain ⟨sline, spipe, -, sexec⟩ := parse_sound n
    refine ⟨?_, ?_, ?_, ?_⟩ <;> intro ts h
    · unfold parseline at h
      split at h
      · next e he =>
        cases h
        have := hpipe _ he
        omega
      · next hp =>
        obtain ⟨pre, rfl, -⟩ := spipe _ _ _ hp
        rw [List.length_append]
        split at h
        · next e he =>
          cases h
          have := parsebacks_fuel he
          omega
        · next hb =>
          obtain ⟨k, rfl, -⟩ := parsebacks_sound hb
          split at h
          · contradiction
          · next hpeek =>
            obtain ⟨r, rfl, rfl⟩ := peek_sym (c := .semi) (by decide) hpeek
            simp only [gettoken_cons] at h
            split at h
            · next e he =>
              cases h
              have := hline _ he
              simp only [List.length_append, List.length_cons]
              omega
            · contradiction
    · unfold parsepipe at h
      split at h
      · next e he =>
        cases h
        have := hexec _ he
        omega
      · next hp =>
        obtain ⟨pre, rfl, -⟩ := sexec _ _ _ hp
        split at h
        · contradiction
        · next hpeek =>
          obtain ⟨r, rfl, rfl⟩ := peek_sym (c := .bar) (by decide) hpeek
          simp only [gettoken_cons] at h
          split at h
          · next e he =>
            cases h
            have := hpipe _ he
            simp only [List.length_append, List.length_cons]
            omega
          · contradiction
    · unfold parseblock at h
      split at h
      · contradiction
      · next hpeek =>
        obtain ⟨r, rfl, rfl⟩ := peek_sym (c := .lpar) (by decide) hpeek
        simp only [gettoken_cons] at h
        split at h
        · next e he =>
          cases h
          have := hline _ he
          simp only [List.length_cons]
          omega
        · next hl =>
          obtain ⟨pre, rfl, -⟩ := sline _ _ _ hl
          split at h
          · contradiction
          · next hpeek =>
            obtain ⟨r, rfl, rfl⟩ := peek_sym (c := .rpar) (by decide) hpeek
            simp only [gettoken_cons] at h
            split at h
            · next e he =>
              cases h
              have := parseredirs_fuel he
              simp only [List.length_append, List.length_cons]
              omega
            · contradiction
    · unfold parseexec at h
      split at h
      · next hpeek =>
        obtain ⟨r, rfl, rfl⟩ := peek_sym (c := .lpar) (by decide) hpeek
        have := hblock _ h
        omega
      · next hpeek =>
        obtain rfl := peek_false hpeek
        split at h
        · next e he =>
          cases h
          have := parseredirs_fuel he
          omega
        · next hr =>
          obtain ⟨pre, -, rfl, -⟩ := parseredirs_sound hr
          split at h
          · next e he =>
            cases h
            have := parseargs_fuel he
            rw [List.length_append]
            omega
          · contradiction

end Fuel

/-- With fuel for its length the parser either returns the one command that the grammar derives
from a whole list of tokens, or the grammar derives none. -/
theorem parseline_correct {ts : List Tok} {n : Nat} (hn : 4 * ts.length + 4 ≤ n) :
    (∃ c, parseline tokens n ts = .ok (c, []) ∧ ∀ c', Derives .line ts c' ↔ c' = c) ∨
    ((∃ c t rest, parseline tokens n ts = .ok (c, t :: rest)) ∨
      ∃ msg, parseline tokens n ts = .error (.panic msg)) ∧ ∀ c, ¬ Derives .line ts c := by
  have hyields : ∀ c, Derives .line ts c → parseline tokens n ts = .ok (c, []) := by
    intro c hc
    have hnil : Before NonTerminal.line.follow [] := by simp [Before]
    have h := parse_complete (n := n) hc hnil
    rw [List.append_nil] at h
    rcases h with h | h
    · exact h
    · have := (parse_fuel n).1 ts h
      omega
  cases h : parseline tokens n ts with
  | error e =>
    refine .inr ⟨.inr ?_, fun c hc => ?_⟩
    · cases e with
      | panic msg => exact ⟨msg, rfl⟩
      | fuel =>
        have := (parse_fuel n).1 ts h
        omega
    · have := hyields c hc
      rw [h] at this
      contradiction
  | ok r =>
    obtain ⟨c, rest⟩ := r
    rcases rest with _ | ⟨t, rest⟩
    · refine .inl ⟨c, rfl, fun c' => ⟨fun hc => ?_, ?_⟩⟩
      · have := hyields c' hc
        rw [h] at this
        cases this
        rfl
      · rintro rfl
        obtain ⟨pre, hpre, hd⟩ := (parse_sound n).1 _ _ _ h
        rw [hpre, List.append_nil]
        exact hd
    · refine .inr ⟨.inl ⟨c, t, rest, rfl⟩, fun c' hc => ?_⟩
      have := hyields c' hc
      rw [h] at this
      cases this

end Xv6.Sh
