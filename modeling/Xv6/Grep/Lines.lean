import Xv6.Lib.Lines
import Xv6.Grep.Matcher

/-!
# The lines `grep` sees

`grep` keeps the unfinished line at the start of its buffer and reads behind it. When that line
fills the buffer, `read` is asked for 0 bytes and its answer 0 is taken for the end of the input.
-/
namespace Xv6.Grep

set_option autoImplicit false

open Lib.Lines

/-- The terminated lines of the input for which `match` succeeds. -/
def matching (pattern input : Str) : Str :=
  ((split newline input).1.filter fun l => isMatch pattern (l ++ [0])).flatMap (· ++ [newline])

/-- Every terminated line is shorter than the room `grep` has for one, and the unfinished line
at the end of the input fits into it. -/
def LinesFit (input : Str) : Prop :=
  (∀ l ∈ (split newline input).1, l.length < BUFSIZE - 1) ∧
    (split newline input).2.length ≤ BUFSIZE - 1

instance (input : Str) : Decidable (LinesFit input) := inferInstanceAs (Decidable (_ ∧ _))

section Strings

variable {t j k : Str}

theorem byte_append_congr (t j k : Str) : byte (t ++ 0 :: j) 0 = byte (t ++ 0 :: k) 0 := by
  cases t <;> rfl

/-- `matchhere` does not read behind the end of the text. -/
theorem matchhere_junk (re : Str) (ht : 0 ∉ t) (h : matchhere re (t ++ 0 :: j)) :
    matchhere re (t ++ 0 :: k) := by
  induction hn : re.length using Nat.strongRecOn generalizing re t with
  | _ n ih =>
    subst hn
    rw [matchhere, byte_append_congr t j k] at h
    rw [matchhere]
    by_cases h0 : byte re 0 = 0
    · rw [if_pos h0]
    rw [if_neg h0] at h ⊢
    by_cases hs : byte re 1 = star
    · rw [if_pos hs, matchstar_iff ht] at h ⊢
      obtain ⟨u, v, rfl, hu, hv⟩ := h
      exact ⟨u, v, rfl, hu, ih _ (length_drop_lt h0 (by decide)) _
        (fun h => ht (List.mem_append_right u h)) hv rfl⟩
    rw [if_neg hs] at h ⊢
    by_cases hd : byte re 0 = dollar ∧ byte re 1 = 0
    · rwa [if_pos hd] at h ⊢
    rw [if_neg hd] at h ⊢
    by_cases hc : byte (t ++ 0 :: k) 0 ≠ 0 ∧ (byte re 0 = dot ∨ byte re 0 = byte (t ++ 0 :: k) 0)
    · rw [if_pos hc] at h ⊢
      cases t with
      | nil => exact absurd rfl hc.1
      | cons b t =>
        exact ih _ (length_drop_lt h0 (by decide)) _ (fun h => ht (List.mem_cons_of_mem b h)) h rfl
    · rw [if_neg hc] at h
      cases h

theorem matchany_junk (re : Str) (ht : 0 ∉ t) (h : matchany re (t ++ 0 :: j)) :
    matchany re (t ++ 0 :: k) := by
  induction t with
  | nil =>
    rw [List.nil_append, matchany_nul] at h ⊢
    exact matchhere_junk re ht h
  | cons b t ih =>
    have hb : b ≠ 0 := fun e => ht (by simp [e])
    rw [List.cons_append, matchany_cons hb] at h ⊢
    obtain h | h := h
    · exact .inl (matchhere_junk re ht h)
    · exact .inr (ih (fun e => ht (List.mem_cons_of_mem b e)) h)

/-- `match` does not read behind the end of the text. -/
theorem isMatch_junk (re : Str) (ht : 0 ∉ t) :
    isMatch re (t ++ 0 :: j) = isMatch re (t ++ 0 :: k) := by
  rw [isMatch, isMatch, Bool.eq_iff_iff]
  split
  · exact ⟨matchhere_junk _ ht, matchhere_junk _ ht⟩
  · exact ⟨matchany_junk _ ht, matchany_junk _ ht⟩

end Strings

theorem strchr_newline_none {t junk : Str} (ht : 0 ∉ t) (hn : newline ∉ t) :
    strchr newline (t ++ 0 :: junk) = none := by
  induction t with
  | nil => rfl
  | cons b t ih =>
    have hb : b ≠ 0 := fun e => ht (by simp [e])
    have hbn : b ≠ newline := fun e => hn (by simp [e])
    simp [strchr, hb, hbn, ih (fun e => ht (List.mem_cons_of_mem b e))
      (fun e => hn (List.mem_cons_of_mem b e))]

theorem strchr_newline_some {l s : Str} (hl : 0 ∉ l) (hn : newline ∉ l) :
    strchr newline (l ++ newline :: s) = some l.length := by
  induction l with
  | nil => rfl
  | cons b l ih =>
    have hb : b ≠ 0 := fun e => hl (by simp [e])
    have hbn : b ≠ newline := fun e => hn (by simp [e])
    simp [strchr, hb, hbn, ih (fun e => hl (List.mem_cons_of_mem b e))
      (fun e => hn (List.mem_cons_of_mem b e))]

theorem matching_line {pattern l s : Str} (hl : newline ∉ l) :
    matching pattern (l ++ newline :: s) =
      (if isMatch pattern (l ++ [0]) then l ++ [newline] else []) ++ matching pattern s := by
  rw [matching, split_line hl, List.filter_cons]
  split <;> simp [matching]

theorem matching_of_notMem {pattern s : Str} (h : newline ∉ s) : matching pattern s = [] := by
  simp [matching, split_of_notMem h]

theorem matching_append (pattern s t : Str) :
    matching pattern (s ++ t) =
      matching pattern s ++ matching pattern ((split newline s).2 ++ t) := by
  simp [matching, split_append s t]

theorem scan_none {pattern buf : Str} {p : Nat} (h : strchr newline (buf.drop p) = none) :
    scan pattern buf p = (buf, p, []) := by
  rw [scan]
  split
  · rfl
  · simp_all

/-- One turn of the inner loop, on the line `l`. -/
theorem scan_line {pattern done l s : Str} (hl : 0 ∉ l) (hn : newline ∉ l) :
    scan pattern (done ++ (l ++ newline :: s)) done.length =
      let b := if isMatch pattern (l ++ 0 :: s) then newline else 0
      let r := scan pattern (done ++ (l ++ b :: s)) (done.length + l.length + 1)
      (r.1, r.2.1, (if isMatch pattern (l ++ 0 :: s) then l ++ [newline] else []) ++ r.2.2) := by
  have hq : strchr newline ((done ++ (l ++ newline :: s)).drop done.length) = some l.length := by
    rw [List.drop_left, strchr_newline_some hl hn]
  have hset : ∀ a b : UInt8, (done ++ (l ++ a :: s)).set (done.length + l.length) b =
      done ++ (l ++ b :: s) := by
    intro a b
    simp
  have htake : (l ++ newline :: s).take (done.length + l.length + 1 - done.length) =
      l ++ [newline] := by
    rw [show done.length + l.length + 1 - done.length = l.length + 1 by omega]
    simp [List.take_append]
  rw [scan]
  split
  · simp_all
  · rename_i d hd
    obtain rfl : l.length = d := Option.some.inj (hq.symm.trans hd)
    simp only [hset, List.drop_left, htake]
    split <;> rfl

/-- The inner loop treats the lines of the text in the buffer and stops at its unfinished line. -/
theorem scan_spec {t : Str} (pattern junk done : Str) (ht : 0 ∉ t) :
    ∃ done' : Str, done'.length + (split newline t).2.length = done.length + t.length ∧
      scan pattern (done ++ (t ++ 0 :: junk)) done.length =
        (done' ++ ((split newline t).2 ++ 0 :: junk), done'.length, matching pattern t) := by
  induction t using line_induction newline generalizing done with
  | tail t hn =>
    refine ⟨done, by rw [split_of_notMem hn], ?_⟩
    rw [scan_none (by rw [List.drop_left, strchr_newline_none ht hn]), split_of_notMem hn,
      matching_of_notMem hn]
  | line l s hn ih =>
    have hl : 0 ∉ l := fun h => ht (List.mem_append_left _ h)
    have hs : 0 ∉ s := fun h => ht (List.mem_append_right _ (List.mem_cons_of_mem _ h))
    rw [List.append_assoc, List.cons_append, scan_line hl hn, matching_line hn, split_line hn,
      isMatch_junk (k := []) pattern hl]
    generalize (if isMatch pattern (l ++ [0]) = true then newline else 0) = b
    obtain ⟨done', hlen, hscan⟩ := ih (done ++ (l ++ [b])) hs
    have hbuf : done ++ (l ++ [b]) ++ (s ++ 0 :: junk) = done ++ (l ++ b :: (s ++ 0 :: junk)) := by
      simp
    have hp : (done ++ (l ++ [b])).length = done.length + l.length + 1 := by
      simp [Nat.add_assoc]
    rw [hbuf, hp] at hscan
    refine ⟨done', ?_, by simp only [hscan]⟩
    rw [hp] at hlen
    simp only [List.length_append, List.length_cons] at hlen ⊢
    omega

/-! ## The outer loop -/

theorem linesFit_append {s t : Str} (hs : s.length ≤ BUFSIZE - 1) :
    LinesFit (s ++ t) ↔ LinesFit ((split newline s).2 ++ t) := by
  rw [LinesFit, LinesFit, split_append]
  constructor
  · intro h
    exact ⟨fun l hl => h.1 l (List.mem_append_right _ hl), h.2⟩
  · intro h
    refine ⟨fun l hl => ?_, h.2⟩
    obtain hl | hl := List.mem_append.mp hl
    · exact (length_line_lt hl).trans_le hs
    · exact h.1 l hl

/-- An unfinished line that fills the buffer does not fit when the input goes on. -/
theorem not_linesFit {t : Str} {b : UInt8} {s : Str} (hn : newline ∉ t)
    (ht : BUFSIZE - 1 ≤ t.length) : ¬LinesFit (t ++ b :: s) := by
  intro h
  by_cases hs : newline ∈ t ++ b :: s
  · obtain ⟨l, r, hlr, hl⟩ := List.eq_append_cons_of_mem hs
    rw [hlr, LinesFit, split_line hl] at h
    have hlt := h.1 l List.mem_cons_self
    obtain ⟨u, hu, -⟩ | ⟨u, rfl, hu⟩ := List.append_eq_append_iff.mp hlr
    · rw [hu, List.length_append] at hlt
      omega
    · cases u with
      | nil =>
        rw [List.append_nil] at ht
        omega
      | cons c u =>
        obtain ⟨rfl, -⟩ := List.cons.inj hu
        exact hn (List.mem_append_right l List.mem_cons_self)
  · rw [LinesFit, split_of_notMem hs] at h
    have hle := h.2
    rw [List.length_append, List.length_cons] at hle
    omega

/-- One turn of the outer loop, with the unfinished line `t` at the start of the buffer. -/
theorem grep_turn (pattern : Str) (want : Nat → Nat) {t junk rest : Str} (ht : 0 ∉ t) (hr : 0 ∉ rest)
    (hbuf : t.length + junk.length = BUFSIZE) (hroom : t.length < BUFSIZE - 1) (hrest : rest ≠ []) :
    ∃ got rest' junk' : Str, rest = got ++ rest' ∧ got ≠ [] ∧ t.length + got.length ≤ BUFSIZE - 1 ∧
      (split newline (t ++ got)).2.length + junk'.length = BUFSIZE ∧
      grep pattern want rest (t ++ junk) t.length =
        let u := (split newline (t ++ got)).2
        let r := grep pattern (fun i => want (i + 1)) rest' (u ++ junk') u.length
        (r.1, matching pattern (t ++ got) ++ r.2) := by
  set got := read (want 0) rest (BUFSIZE - t.length - 1) with hgot
  have hlen : got.length = min (min (BUFSIZE - t.length - 1) (max (want 0) 1)) rest.length :=
    List.length_take ..
  have hpos : 0 < rest.length := List.length_pos_iff.mpr hrest
  have hgot0 : 0 < got.length := by omega
  have hle : got.length ≤ BUFSIZE - t.length - 1 := by omega
  have hsplit : got ++ rest.drop got.length = rest :=
    List.prefix_iff_eq_append.mp (List.take_prefix _ rest)
  have hg : 0 ∉ t ++ got := by
    intro h
    obtain h | h := List.mem_append.mp h
    · exact ht h
    · exact hr (by rw [← hsplit]; exact List.mem_append_left _ h)
  -- the byte behind the text, which the terminator replaces
  obtain ⟨x, junk₁, hx⟩ : ∃ x junk₁, junk.drop got.length = x :: junk₁ := by
    refine List.exists_cons_of_length_pos ?_
    rw [List.length_drop]
    omega
  have hfill : ((t ++ junk).take t.length ++ got ++
      (t ++ junk).drop (t.length + got.length)).set (t.length + got.length) 0 =
      t ++ got ++ 0 :: junk₁ := by
    rw [List.take_left, List.drop_length_add_append, hx]
    simp
  obtain ⟨done, hdone, hscan⟩ := scan_spec pattern junk₁ [] hg
  rw [List.length_nil, Nat.zero_add, List.length_append] at hdone
  rw [List.nil_append, List.length_nil] at hscan
  set u := (split newline (t ++ got)).2 with hu
  have hk : t.length + got.length - done.length = u.length := by omega
  have hlen₁ : got.length + junk₁.length + 1 = junk.length := by
    have h := congrArg List.length hx
    rw [List.length_drop, List.length_cons] at h
    omega
  refine ⟨got, rest.drop got.length, (done ++ (u ++ 0 :: junk₁)).drop u.length, hsplit.symm,
    List.length_pos_iff.mp hgot0, by omega, ?_, ?_⟩
  · rw [← hu, List.length_drop, List.length_append, List.length_append, List.length_cons]
    omega
  · rw [grep, dif_pos hgot0]
    have hn : 0 < t.length + got.length := by omega
    simp only [← hgot, hfill, if_pos hn, hscan]
    simp only [hk, List.drop_left, List.take_left, ← hu]

/-- From the head of the outer loop on: the rest is treated and read to its end if all lines
fit, and something of it is left otherwise. -/
theorem grep_spec (pattern rest t junk : Str) (want : Nat → Nat) (ht : 0 ∉ t)
    (hn : newline ∉ t) (hr : 0 ∉ rest) (hbuf : t.length + junk.length = BUFSIZE)
    (hfit : t.length ≤ BUFSIZE - 1) :
    (LinesFit (t ++ rest) →
      grep pattern want rest (t ++ junk) t.length = ([], matching pattern (t ++ rest))) ∧
    (¬LinesFit (t ++ rest) → (grep pattern want rest (t ++ junk) t.length).1 ≠ []) := by
  induction hk : rest.length using Nat.strongRecOn generalizing rest want t junk with
  | _ k ih =>
    subst hk
    by_cases hrest : rest = []
    · subst hrest
      have hnil : grep pattern want [] (t ++ junk) t.length = ([], []) := by
        rw [grep]
        simp [read]
      rw [List.append_nil, hnil, matching_of_notMem hn]
      refine ⟨fun _ => rfl, fun h => absurd ?_ h⟩
      rw [LinesFit, split_of_notMem hn]
      exact ⟨by simp, hfit⟩
    by_cases hroom : t.length < BUFSIZE - 1
    · obtain ⟨got, rest', junk', rfl, hgot, hle, hbuf', hturn⟩ :=
        grep_turn pattern want ht hr hbuf hroom hrest
      have hlen : (t ++ got).length ≤ BUFSIZE - 1 := by rwa [List.length_append]
      have hu : 0 ∉ (split newline (t ++ got)).2 := by
        intro h
        obtain h | h := List.mem_append.mp (mem_of_mem_tail h)
        · exact ht h
        · exact hr (List.mem_append_left rest' h)
      have hlt : rest'.length < (got ++ rest').length := by
        have := List.length_pos_iff.mpr hgot
        rw [List.length_append]
        omega
      obtain ⟨h1, h2⟩ := ih rest'.length hlt rest' _ junk' (fun i => want (i + 1)) hu
        (notMem_tail _) (fun h => hr (List.mem_append_right got h)) hbuf'
        ((length_tail_le _).trans hlen) rfl
      rw [← List.append_assoc, linesFit_append hlen, matching_append, hturn]
      exact ⟨fun h => by simp only [h1 h], h2⟩
    · -- the buffer is full: `read` is asked for nothing
      have hfull : grep pattern want rest (t ++ junk) t.length = (rest, []) := by
        rw [grep]
        simp [read, show BUFSIZE - t.length - 1 = 0 by omega]
      obtain ⟨b, rest, rfl⟩ := List.exists_cons_of_ne_nil hrest
      have hnot : ¬LinesFit (t ++ b :: rest) := not_linesFit hn (by omega)
      rw [hfull]
      exact ⟨fun h => absurd h hnot, fun _ => hrest⟩

/-- Whatever the pattern, the pieces and the buffer's old content, `grep` reads an input to its
end and writes its matching lines if and only if all lines fit. -/
theorem grep_whole_iff_linesFit (pattern input buf : Str) (want : Nat → Nat) (h0 : 0 ∉ input)
    (hbuf : buf.length = BUFSIZE) :
    grep pattern want input buf 0 = ([], matching pattern input) ↔ LinesFit input := by
  have h := grep_spec pattern input [] buf want (by simp) (by simp) h0
    (by simpa using hbuf) (by simp)
  constructor
  · intro he
    by_contra hnot
    exact h.2 hnot (by rw [List.nil_append, List.length_nil, he])
  · exact h.1

/-- `b` between two lines of `a`, read in pieces of at most five bytes. -/
theorem grep_whole_iff_linesFit_aba :
    grep [0x61] (fun _ => 5) [0x61, newline, 0x62, newline, 0x61, newline]
        (List.replicate BUFSIZE 7) 0 =
      ([], matching [0x61] [0x61, newline, 0x62, newline, 0x61, newline]) ↔
    LinesFit [0x61, newline, 0x62, newline, 0x61, newline] :=
  grep_whole_iff_linesFit _ _ _ _ (by decide) List.length_replicate

/-- A line that fills the buffer stops the loop, and what follows is left unread. -/
theorem grep_stuck (pattern s l t junk : Str) (want : Nat → Nat) (ht : 0 ∉ t ++ l)
    (hn : newline ∉ t ++ l) (hs : 0 ∉ s) (hbuf : t.length + junk.length = BUFSIZE)
    (hlen : t.length + l.length = BUFSIZE - 1) :
    grep pattern want (l ++ s) (t ++ junk) t.length = (s, []) := by
  induction hk : l.length using Nat.strongRecOn generalizing l t junk want with
  | _ k ih =>
    subst hk
    by_cases hl : l = []
    · rw [grep]
      simp [read, hl, show BUFSIZE - t.length - 1 = 0 by simp [hl] at hlen; omega]
    · have hpos := List.length_pos_iff.mpr hl
      have ht' : 0 ∉ t := fun h => ht (List.mem_append_left l h)
      have hls : 0 ∉ l ++ s := by
        intro h
        obtain h | h := List.mem_append.mp h
        · exact ht (List.mem_append_right t h)
        · exact hs h
      obtain ⟨got, rest, junk', hsplit, hgot, hle, hbuf', hturn⟩ :=
        grep_turn pattern want ht' hls hbuf (by omega) (by simp [hl])
      obtain ⟨l', rfl, rfl⟩ : ∃ l', l = got ++ l' ∧ rest = l' ++ s := by
        obtain ⟨u, hu, rfl⟩ | ⟨u, rfl, hu⟩ := List.append_eq_append_iff.mp hsplit
        · -- the piece does not reach behind the line
          have hu0 : u = [] := by
            rw [hu, List.length_append] at hle
            exact List.length_eq_zero_iff.mp (by omega)
          exact ⟨[], by simp [hu, hu0], by simp [hu0]⟩
        · exact ⟨u, rfl, hu⟩
      have hg : newline ∉ t ++ got := by
        intro h
        rw [← List.append_assoc] at hn
        exact hn (List.mem_append_left l' h)
      rw [split_of_notMem hg] at hbuf' hturn
      have hgpos := List.length_pos_iff.mpr hgot
      rw [List.length_append] at hlen hpos
      rw [hturn, matching_of_notMem hg]
      simp only
      rw [ih l'.length (by rw [List.length_append]; omega) l' (t ++ got) junk' _
        (by rwa [List.append_assoc]) (by rwa [List.append_assoc]) hbuf'
        (by rw [List.length_append]; omega) rfl]
      rfl

def longLine : Str := List.replicate (BUFSIZE - 1) 0x61 ++ [newline]

/-- A line of 1023 bytes that matches is not written and its newline never read. -/
theorem grep_loses_longLine :
    grep [0x61] (fun _ => BUFSIZE) longLine (List.replicate BUFSIZE 0) 0 = ([newline], []) ∧
      matching [0x61] longLine = longLine := by
  have ha : ∀ b : UInt8, b ≠ 0x61 → b ∉ List.replicate (BUFSIZE - 1) (0x61 : UInt8) :=
    fun b hb h => hb (List.eq_of_mem_replicate h)
  constructor
  · exact grep_stuck [0x61] [newline] (List.replicate (BUFSIZE - 1) 0x61) []
      (List.replicate BUFSIZE 0) _ (ha 0 (by decide)) (ha newline (by decide)) (by decide)
      (by rw [List.length_nil, Nat.zero_add, List.length_replicate])
      (by rw [List.length_nil, Nat.zero_add, List.length_replicate])
  · have hm : isMatch [0x61] (List.replicate (BUFSIZE - 1) 0x61 ++ [0]) := by
      rw [show BUFSIZE - 1 = 1022 + 1 from rfl, List.replicate_succ, List.cons_append, isMatch,
        if_neg (by decide), matchany_cons (by decide)]
      left
      rw [matchhere, if_neg (by decide), if_neg (by decide), if_neg (by decide),
        if_pos (by decide), matchhere]
      rfl
    rw [longLine, matching_line (ha newline (by decide)), if_pos hm,
      matching_of_notMem List.not_mem_nil, List.append_nil]

end Xv6.Grep
