import Xv6.Sh.Lexer

/-!
# The parser on the buffer

The parsing functions on positions in the buffer run in step with those on the tokens of the
rest of the line. The strings of the command they build are words of the line, each ended by a
character that is in no word, so that `nulterminate` terminates each and changes none.
-/
namespace Xv6.Sh

set_option autoImplicit false

/-! ### Lexers in step -/

/-- Both fail with the same error, or both return related values. -/
def InStep {α β : Type} (Q : α → β → Prop) (r : Except Stop α) (r' : Except Stop β) : Prop :=
  (∃ e, r = .error e ∧ r' = .error e) ∨ ∃ a b, r = .ok a ∧ r' = .ok b ∧ Q a b

namespace InStep

variable {α β : Type} {Q : α → β → Prop}

theorem error (e : Stop) : InStep Q (.error e) (.error e) := .inl ⟨e, rfl, rfl⟩

theorem ok {a : α} {b : β} (h : Q a b) : InStep Q (.ok a) (.ok b) := .inr ⟨a, b, rfl, rfl, h⟩

end InStep

/-- Every string of the command satisfies the predicate. -/
def Cmd.All {σ : Type} (P : σ → Prop) : Cmd σ → Prop
  | .exec argv => ∀ q ∈ argv, P q
  | .redir cmd file _ _ => cmd.All P ∧ P file
  | .pipe left right => left.All P ∧ right.All P
  | .list left right => left.All P ∧ right.All P
  | .back cmd => cmd.All P

/-- The characters `peek` is called with. -/
def PeekSet (toks : List Char) : Prop := ∀ c ∈ toks, c ∈ symbols

instance (toks : List Char) : Decidable (PeekSet toks) :=
  List.decidableBAll (· ∈ symbols) toks

/-- Two lexers that see the same tokens from related positions; `f` gives the text of a word,
which satisfies `P`. -/
structure Sim {κ κ' σ σ' : Type} (L : Lexer κ σ) (L' : Lexer κ' σ') (R : κ → κ' → Prop)
    (f : σ → σ') (P : σ → Prop) : Prop where
  peek {s s'} (toks : List Char) : R s s' → PeekSet toks →
    ∃ b t t', L.peek s toks = (b, t) ∧ L'.peek s' toks = (b, t') ∧ R t t'
  gettoken {s s'} : R s s' →
    ∃ a q q' t t', L.gettoken s = (a, q, t) ∧ L'.gettoken s' = (a, q', t') ∧ R t t' ∧
      (a = 'a' → q' = f q ∧ P q)

def Redir.map {σ τ : Type} (f : σ → τ) (r : Redir σ) : Redir τ := ⟨f r.file, r.mode, r.fd⟩

theorem map_wrap {σ τ : Type} (f : σ → τ) (c : Cmd σ) (rs : List (Redir σ)) :
    (wrap c rs).map f = wrap (c.map f) (rs.map (Redir.map f)) := by
  induction rs generalizing c with
  | nil => rfl
  | cons r rs ih => exact ih _

theorem all_wrap {σ : Type} {P : σ → Prop} {c : Cmd σ} {rs : List (Redir σ)} (hc : c.All P)
    (hrs : ∀ r ∈ rs, P r.file) : (wrap c rs).All P := by
  induction rs generalizing c with
  | nil => exact hc
  | cons r rs ih =>
    exact ih (c := .redir c r.file r.mode r.fd) ⟨hc, hrs r List.mem_cons_self⟩
      fun x hx => hrs x (List.mem_cons_of_mem _ hx)

namespace Sim

variable {κ κ' σ σ' : Type} {L : Lexer κ σ} {L' : Lexer κ' σ'} {R : κ → κ' → Prop} {f : σ → σ'}
  {P : σ → Prop} {n : Nat} {s : κ} {s' : κ'}

/-- Redirections and the position behind them. -/
def RedirsRel (R : κ → κ' → Prop) (f : σ → σ') (P : σ → Prop) (x : List (Redir σ) × κ)
    (y : List (Redir σ') × κ') : Prop :=
  y.1 = x.1.map (Redir.map f) ∧ (∀ r ∈ x.1, P r.file) ∧ R x.2 y.2

/-- A command and the position behind it. -/
def CmdRel (R : κ → κ' → Prop) (f : σ → σ') (P : σ → Prop) (x : Cmd σ × κ) (y : Cmd σ' × κ') :
    Prop :=
  y.1 = x.1.map f ∧ x.1.All P ∧ R x.2 y.2

theorem map_redirs (tok : Char) (q : σ) :
    (redirs tok q).map (Redir.map f) = redirs tok (f q) := by
  unfold redirs
  split
  · rfl
  · split
    · rfl
    · split <;> rfl

theorem all_redirs {tok : Char} {q : σ} (hq : P q) : ∀ r ∈ redirs tok q, P r.file := by
  unfold redirs
  split
  · simpa using hq
  · split
    · simpa using hq
    · split
      · simpa using hq
      · simp

theorem parseredirs (h : Sim L L' R f P) (hs : R s s') (rs : List (Redir σ))
    (hrs : ∀ r ∈ rs, P r.file) :
    InStep (RedirsRel R f P) (parseredirs L n s rs)
      (parseredirs L' n s' (rs.map (Redir.map f))) := by
  induction n generalizing s s' rs with
  | zero => exact .error _
  | succ n ih =>
    obtain ⟨b, t, t', hp, hp', ht⟩ := h.peek ['<', '>'] hs (by decide)
    unfold Sh.parseredirs
    rw [hp, hp']
    cases b with
    | false => exact .ok ⟨rfl, hrs, ht⟩
    | true =>
      obtain ⟨tok, q, q', u, u', hg, hg', hu, -⟩ := h.gettoken ht
      obtain ⟨a, q, q', v, v', hg₂, hg₂', hv, hword⟩ := h.gettoken hu
      simp only [hg, hg', hg₂, hg₂']
      by_cases ha : a = 'a'
      · obtain ⟨rfl, hq⟩ := hword ha
        rw [if_neg (not_not_intro ha), if_neg (not_not_intro ha), ← map_redirs, ← List.map_append]
        refine ih hv _ ?_
        intro r hr
        rcases List.mem_append.mp hr with hr | hr
        · exact hrs r hr
        · exact all_redirs hq r hr
      · rw [if_pos ha, if_pos ha]
        exact .error _

theorem parseargs (h : Sim L L' R f P) (hs : R s s') (argv : List σ) {rs : List (Redir σ)}
    (hargv : ∀ q ∈ argv, P q) (hrs : ∀ r ∈ rs, P r.file) :
    InStep (fun x y => y.1 = x.1.map f ∧ (∀ q ∈ x.1, P q) ∧ RedirsRel R f P x.2 y.2)
      (parseargs L n s argv rs) (parseargs L' n s' (argv.map f) (rs.map (Redir.map f))) := by
  induction n generalizing s s' argv rs with
  | zero => exact .error _
  | succ n ih =>
    obtain ⟨b, t, t', hp, hp', ht⟩ := h.peek ['|', ')', '&', ';'] hs (by decide)
    unfold Sh.parseargs
    rw [hp, hp']
    cases b with
    | true => exact .ok ⟨rfl, hargv, rfl, hrs, ht⟩
    | false =>
      obtain ⟨a, q, q', u, u', hg, hg', hu, hword⟩ := h.gettoken ht
      simp only [hg, hg']
      by_cases h0 : a = NUL
      · rw [if_pos h0, if_pos h0]
        exact .ok ⟨rfl, hargv, rfl, hrs, hu⟩
      · rw [if_neg h0, if_neg h0]
        by_cases ha : a = 'a'
        · obtain ⟨rfl, hq⟩ := hword ha
          rw [if_neg (not_not_intro ha), if_neg (not_not_intro ha), List.length_map]
          split
          · exact .error _
          · rcases h.parseredirs (n := n) hu rs hrs with ⟨e, hr, hr'⟩ | ⟨⟨rs₁, v⟩, ⟨_, v'⟩, hr, hr', rfl, hrs₁, hv⟩
            · rw [hr, hr']
              exact .error _
            · rw [hr, hr']
              have := ih hv (argv ++ [q]) ?_ hrs₁
              · simpa using this
              · intro x hx
                rcases List.mem_append.mp hx with hx | hx
                · exact hargv x hx
                · rwa [List.mem_singleton.mp hx]
        · rw [if_pos ha, if_pos ha]
          exact .error _

theorem parsebacks (h : Sim L L' R f P) (hs : R s s') {c : Cmd σ} (hc : c.All P) :
    InStep (CmdRel R f P) (parsebacks L n s c) (parsebacks L' n s' (c.map f)) := by
  induction n generalizing s s' c with
  | zero => exact .error _
  | succ n ih =>
    obtain ⟨b, t, t', hp, hp', ht⟩ := h.peek ['&'] hs (by decide)
    unfold Sh.parsebacks
    rw [hp, hp']
    cases b with
    | false => exact .ok ⟨rfl, hc, ht⟩
    | true =>
      obtain ⟨a, q, q', u, u', hg, hg', hu, -⟩ := h.gettoken ht
      simp only [hg, hg']
      exact ih (c := .back c) hu hc

/-- Two parsing functions in step. -/
def Parses (R : κ → κ' → Prop) (f : σ → σ') (P : σ → Prop) (n : Nat)
    (parse : Nat → κ → Except Stop (Cmd σ × κ)) (parse' : Nat → κ' → Except Stop (Cmd σ' × κ')) :
    Prop :=
  ∀ s s', R s s' → InStep (CmdRel R f P) (parse n s) (parse' n s')

theorem parse (h : Sim L L' R f P) (n : Nat) :
    Parses R f P n (parseline L) (parseline L') ∧ Parses R f P n (parsepipe L) (parsepipe L') ∧
    Parses R f P n (parseblock L) (parseblock L') ∧ Parses R f P n (parseexec L) (parseexec L') := by
  induction n with
  | zero => exact ⟨fun _ _ _ => .error _, fun _ _ _ => .error _, fun _ _ _ => .error _,
      fun _ _ _ => .error _⟩
  | succ n ih =>
    obtain ⟨hline, hpipe, hblock, hexec⟩ := ih
    refine ⟨?_, ?_, ?_, ?_⟩ <;> intro s s' hs
    · unfold parseline
      rcases hpipe s s' hs with ⟨e, hr, hr'⟩ | ⟨⟨c, t⟩, ⟨_, t'⟩, hr, hr', rfl, hc, ht⟩ <;> rw [hr, hr']
      · exact .error _
      dsimp only
      rcases h.parsebacks (n := n) ht hc with ⟨e, hr, hr'⟩ | ⟨⟨c, u⟩, ⟨_, u'⟩, hr, hr', rfl, hc, hu⟩ <;>
        rw [hr, hr']
      · exact .error _
      dsimp only
      obtain ⟨b, v, v', hp, hp', hv⟩ := h.peek [';'] hu (by decide)
      rw [hp, hp']
      cases b with
      | false => exact .ok ⟨rfl, hc, hv⟩
      | true =>
        obtain ⟨a, q, q', w, w', hg, hg', hw, -⟩ := h.gettoken hv
        simp only [hg, hg']
        rcases hline w w' hw with ⟨e, hr, hr'⟩ | ⟨⟨c', x⟩, ⟨_, x'⟩, hr, hr', rfl, hc', hx⟩ <;>
          rw [hr, hr']
        · exact .error _
        · exact .ok ⟨rfl, ⟨hc, hc'⟩, hx⟩
    · unfold parsepipe
      rcases hexec s s' hs with ⟨e, hr, hr'⟩ | ⟨⟨c, t⟩, ⟨_, t'⟩, hr, hr', rfl, hc, ht⟩ <;> rw [hr, hr']
      · exact .error _
      dsimp only
      obtain ⟨b, v, v', hp, hp', hv⟩ := h.peek ['|'] ht (by decide)
      rw [hp, hp']
      cases b with
      | false => exact .ok ⟨rfl, hc, hv⟩
      | true =>
        obtain ⟨a, q, q', w, w', hg, hg', hw, -⟩ := h.gettoken hv
        simp only [hg, hg']
        rcases hpipe w w' hw with ⟨e, hr, hr'⟩ | ⟨⟨c', x⟩, ⟨_, x'⟩, hr, hr', rfl, hc', hx⟩ <;>
          rw [hr, hr']
        · exact .error _
        · exact .ok ⟨rfl, ⟨hc, hc'⟩, hx⟩
    · unfold parseblock
      obtain ⟨b, t, t', hp, hp', ht⟩ := h.peek ['('] hs (by decide)
      rw [hp, hp']
      cases b with
      | false => exact .error _
      | true =>
        obtain ⟨a, q, q', u, u', hg, hg', hu, -⟩ := h.gettoken ht
        simp only [hg, hg']
        rcases hline u u' hu with ⟨e, hr, hr'⟩ | ⟨⟨c, v⟩, ⟨_, v'⟩, hr, hr', rfl, hc, hv⟩ <;>
          rw [hr, hr']
        · exact .error _
        dsimp only
        obtain ⟨b, w, w', hp, hp', hw⟩ := h.peek [')'] hv (by decide)
        rw [hp, hp']
        cases b with
        | false => exact .error _
        | true =>
          obtain ⟨a, q, q', x, x', hg, hg', hx, -⟩ := h.gettoken hw
          simp only [hg, hg']
          rcases h.parseredirs (n := n) hx [] (by simp) with
            ⟨e, hr, hr'⟩ | ⟨⟨rs, y⟩, ⟨_, y'⟩, hr, hr', rfl, hrs, hy⟩
          · rw [hr, show Sh.parseredirs L' n x' [] = _ from hr']
            exact .error _
          · rw [hr, show Sh.parseredirs L' n x' [] = _ from hr']
            exact .ok ⟨(map_wrap f c rs).symm, all_wrap hc hrs, hy⟩
    · unfold parseexec
      obtain ⟨b, t, t', hp, hp', ht⟩ := h.peek ['('] hs (by decide)
      rw [hp, hp']
      cases b with
      | true => exact hblock t t' ht
      | false =>
        dsimp only
        rcases h.parseredirs (n := n) ht [] (by simp) with
          ⟨e, hr, hr'⟩ | ⟨⟨rs, u⟩, ⟨_, u'⟩, hr, hr', rfl, hrs, hu⟩
        · rw [hr, show Sh.parseredirs L' n t' [] = _ from hr']
          exact .error _
        rw [hr, show Sh.parseredirs L' n t' [] = _ from hr']
        dsimp only
        rcases h.parseargs (n := n) hu [] (by simp) hrs with
          ⟨e, hr, hr'⟩ | ⟨⟨argv, rs, v⟩, ⟨_, _, v'⟩, hr, hr', rfl, hargv, rfl, hrs, hv⟩
        · rw [hr, show Sh.parseargs L' n u' [] _ = _ from hr']
          exact .error _
        · rw [hr, show Sh.parseargs L' n u' [] _ = _ from hr']
          exact .ok ⟨(map_wrap f (.exec argv) rs).symm, all_wrap (c := .exec argv) hargv hrs, hv⟩

end Sim

end Xv6.Sh
