import Xv6.Xargs.Lines

/-!
# When `xargs` does its work

The loop ends exactly if the input does not stop inside a line, its arrays are large enough exactly
under `InBounds`, and the command gets the lines exactly if every newline is the last byte of a read
and the memory behind each copied line and behind the last slot happens to hold zeros.
-/
namespace Xv6.Xargs

set_option autoImplicit false

open Xv6.Lib.Lines

variable {env : Env} {acc : Str} {done lines : List Str} {st : State} {pieces : List Str}

/-! ## What is gathered -/

theorem dropLast_of_ends {p : Str} (h : ends p = true) : p.dropLast ++ [newline] = p := by
  rw [ends, decide_eq_true_eq] at h
  exact List.dropLast_append_getLast? newline h

theorem append_ends {p : Str} (h : ends p = true) :
    (acc ++ p).dropLast = acc ++ p.dropLast := by
  have hp := dropLast_of_ends h
  rw [List.dropLast_append_of_ne_nil]
  intro hnil
  rw [hnil] at hp
  cases hp

theorem notMem_of_not_ends {p : Str} (hd : newline ∉ p.dropLast) (he : ¬ends p = true) :
    newline ∉ p := by
  rcases List.eq_nil_or_concat p with h | ⟨q, b, h⟩
  · simp [h]
  · rw [h, List.concat_eq_append, List.dropLast_concat] at hd
    simp only [h, ends, List.concat_eq_append, List.getLast?_concat, Option.some.injEq,
      decide_eq_true_eq] at he
    simp [h, hd, Ne.symm he]

theorem length_gather (acc : Str) (pieces : List Str) :
    (gather acc pieces).1.length = pieces.countP ends := by
  induction pieces generalizing acc with
  | nil => rfl
  | cons p ps ih =>
    rw [gather]
    by_cases he : ends p = true
    · rw [if_pos he, List.countP_cons_of_pos he, List.length_cons, ih]
    · rw [if_neg he, List.countP_cons_of_neg he, ih]

/-- Nothing of the input is lost. -/
theorem flatten_gather (acc : Str) (pieces : List Str) :
    (gather acc pieces).1.flatMap (· ++ [newline]) ++ (gather acc pieces).2 = acc ++ pieces.flatten := by
  induction pieces generalizing acc with
  | nil => simp [gather]
  | cons p ps ih =>
    rw [gather]
    by_cases he : ends p = true
    · rw [if_pos he, List.flatMap_cons, append_ends he, List.append_assoc acc, dropLast_of_ends he,
        List.append_assoc, ih, List.flatten_cons, List.nil_append, List.append_assoc]
    · rw [if_neg he, ih, List.flatten_cons, List.append_assoc]

/-- With newlines at the ends of the pieces only, the texts are the lines. -/
theorem gather_eq_split (hacc : newline ∉ acc) (hp : ∀ p ∈ pieces, newline ∉ p.dropLast) :
    gather acc pieces = split newline (acc ++ pieces.flatten) := by
  induction pieces generalizing acc with
  | nil => rw [gather, List.flatten_nil, List.append_nil, split_of_notMem hacc]
  | cons p ps ih =>
    have hd := hp p List.mem_cons_self
    have hps : ∀ q ∈ ps, newline ∉ q.dropLast := fun q hq => hp q (List.mem_cons_of_mem p hq)
    rw [gather, List.flatten_cons]
    by_cases he : ends p = true
    · have hline : newline ∉ acc ++ p.dropLast := by simp [hacc, hd]
      have htext : acc ++ (p ++ ps.flatten) = (acc ++ p.dropLast) ++ newline :: ps.flatten := by
        nth_rewrite 1 [← dropLast_of_ends he]
        simp
      rw [if_pos he, append_ends he, htext, split_line hline, ih List.not_mem_nil hps, List.nil_append]
    · have hpn := notMem_of_not_ends hd he
      rw [if_neg he, ih (by simp [hacc, hpn]) hps, List.append_assoc]

/-- And if the texts have no newline in them, then the pieces have them at their ends only. -/
theorem notMem_of_gather (acc : Str) (h : ∀ t ∈ (gather acc pieces).1, newline ∉ t)
    (hlast : newline ∉ (gather acc pieces).2) :
    newline ∉ acc ∧ ∀ p ∈ pieces, newline ∉ p.dropLast := by
  induction pieces generalizing acc with
  | nil => exact ⟨hlast, fun p hp => absurd hp List.not_mem_nil⟩
  | cons p ps ih =>
    rw [gather] at h hlast
    by_cases he : ends p = true
    · rw [if_pos he] at h hlast
      have hfirst := h _ List.mem_cons_self
      rw [append_ends he, List.mem_append, not_or] at hfirst
      have hrest := (ih [] (fun t ht => h t (List.mem_cons_of_mem _ ht)) hlast).2
      exact ⟨hfirst.1, List.forall_mem_cons.mpr ⟨hfirst.2, hrest⟩⟩
    · rw [if_neg he] at h hlast
      obtain ⟨hacc, hrest⟩ := ih (acc ++ p) h hlast
      rw [List.mem_append, not_or] at hacc
      exact ⟨hacc.1, List.forall_mem_cons.mpr ⟨fun hm => hacc.2 ((List.dropLast_subset p) hm), hrest⟩⟩

theorem gather_rest_eq_nil_iff (hlast : (gather [] pieces).2.getLast? ≠ some newline) :
    (gather [] pieces).2 = [] ↔ pieces.flatten = [] ∨ pieces.flatten.getLast? = some newline := by
  have hflat := flatten_gather [] pieces
  rw [List.nil_append] at hflat
  rw [← hflat]
  constructor
  · intro h0
    rw [h0, List.append_nil]
    rcases List.eq_nil_or_concat (gather [] pieces).1 with h | ⟨ts, t, h⟩
    · exact .inl (by rw [h]; rfl)
    · exact .inr (by simp [h])
  · intro h
    by_contra hne
    rcases h with h | h
    · exact hne (List.append_eq_nil_iff.mp h).2
    · rw [List.getLast?_append, List.getLast?_eq_getLast_of_ne_nil hne] at h
      rw [List.getLast?_eq_getLast_of_ne_nil hne] at hlast
      exact hlast h

/-- Texts that are shorter than the buffer have fitted in it. -/
theorem fits_of_short (acc : Str) (h : ∀ t ∈ (gather acc pieces).1, t.length < MAXARG)
    (hrest : (gather acc pieces).2 = []) : acc.length ≤ MAXARG ∧ Fits acc.length pieces := by
  induction pieces generalizing acc with
  | nil =>
    have hacc : acc = [] := hrest
    rw [hacc]
    exact ⟨Nat.zero_le _, trivial⟩
  | cons p ps ih =>
    rw [gather] at h hrest
    by_cases he : ends p = true
    · rw [if_pos he] at h hrest
      have hfirst := h _ List.mem_cons_self
      rw [List.length_dropLast, List.length_append] at hfirst
      have hps := (ih [] (fun t ht => h t (List.mem_cons_of_mem _ ht)) hrest).2
      refine ⟨by omega, by omega, ?_⟩
      rwa [if_pos he]
    · rw [if_neg he] at h hrest
      obtain ⟨hlen, hps⟩ := ih (acc ++ p) h hrest
      rw [List.length_append] at hlen hps
      refine ⟨by omega, hlen, ?_⟩
      rwa [if_neg he]

/-! ## Termination and bounds -/

/-- Where the loop has ended, it has stayed in its arrays and nothing waits in the buffer. -/
theorem inv_of_stops (hne : ∀ p ∈ pieces, p ≠ []) {k : Nat} (h : main env pieces k = .ok (false, st)) :
    InBounds env.argv.length pieces ∧ (gather [] pieces).2 = [] ∧
      Inv env [] (gather [] pieces).1 st := by
  have hk : pieces.length < k := by
    by_contra hk
    cases main_true hne (Nat.le_of_not_lt hk) h
  have hb : InBounds env.argv.length pieces := by
    by_contra hb
    obtain ⟨f, hf⟩ := main_error hne hb (Nat.le_of_lt hk)
    rw [hf] at h
    cases h
  obtain ⟨go, st', hm, -, hend⟩ := main_ok hne hb k
  obtain ⟨hgo, hi⟩ := hend hk
  rw [hm] at h
  cases h
  have hrest : (gather [] pieces).2 = [] := by
    by_contra hwait
    cases hgo.mpr hwait
  rw [hrest] at hi
  exact ⟨hb, hrest, hi⟩

/-- And it ends one read after the input. -/
theorem stops_of_rest (hne : ∀ p ∈ pieces, p ≠ []) (hb : InBounds env.argv.length pieces)
    (hrest : (gather [] pieces).2 = []) :
    ∃ st, main env pieces (pieces.length + 1) = .ok (false, st) ∧ Inv env [] (gather [] pieces).1 st := by
  obtain ⟨go, st, hm, -, hend⟩ := main_ok hne hb (pieces.length + 1)
  obtain ⟨hgo, hi⟩ := hend (Nat.lt_succ_self _)
  rw [hrest] at hi
  cases go with
  | false => exact ⟨st, hm, hi⟩
  | true => exact absurd hrest (hgo.mp rfl)

/-- The loop ends exactly if the input is empty or ends with a newline, and the arrays hold it. -/
theorem stops_iff (env : Env) (input : Str) (pieces : List Str) (hp : Splits input pieces) :
    (∃ k st, main env pieces k = .ok (false, st)) ↔
      InBounds env.argv.length pieces ∧ (input = [] ∨ input.getLast? = some newline) := by
  have hin := hp.flatten_eq
  constructor
  · intro ⟨k, st, h⟩
    obtain ⟨hb, hrest, -⟩ := inv_of_stops hp.ne_nil h
    refine ⟨hb, ?_⟩
    rw [← hin]
    exact (gather_rest_eq_nil_iff (by rw [hrest]; simp)).mp hrest
  · intro ⟨hb, hend⟩
    obtain ⟨_, _, -, -, hrun⟩ := main_ok hp.ne_nil hb (pieces.length + 1)
    rw [← hin] at hend
    have hrest := (gather_rest_eq_nil_iff (hrun (Nat.lt_succ_self _)).2.last).mpr hend
    obtain ⟨st, hm, -⟩ := stops_of_rest hp.ne_nil hb hrest
    exact ⟨pieces.length + 1, st, hm⟩

/-- `xargs echo`, with nothing but zeros in the memory it does not set. -/
def echoEnv : Env where
  argv := [⟨[0x78], by decide⟩, ⟨[0x65], by decide⟩]
  cmd _ := .null
  rbuf _ := 0
  heap _ _ := 0
  wild _ _ := 0

/-- One line, read in two parts. -/
theorem stops_iff_twoReads : ∃ k st, main echoEnv [[0x61], [0x62, newline]] k = .ok (false, st) := by
  refine (stops_iff echoEnv [0x61, 0x62, newline] [[0x61], [0x62, newline]]
    ⟨rfl, by decide, by decide⟩).mpr ⟨?_, by decide⟩
  exact ⟨by decide, ⟨by decide, by decide, trivial⟩, .inr (by decide)⟩

/-- On an input that ends without a newline the loop goes on for ever. -/
theorem unfinished_line_never_stops : ¬∃ k st, main echoEnv [[0x61]] k = .ok (false, st) := by
  intro ⟨k, st, h⟩
  obtain ⟨-, hrest, -⟩ := inv_of_stops (by decide) h
  revert hrest
  decide

/-- No read, byte or index is ever outside its array exactly if `InBounds` holds of the arguments and
the pieces. -/
theorem stays_inside_iff (env : Env) (input : Str) (pieces : List Str) (hp : Splits input pieces) :
    (∀ k, ∃ r, main env pieces k = .ok r) ↔ InBounds env.argv.length pieces := by
  constructor
  · intro h
    by_contra hb
    obtain ⟨f, hf⟩ := main_error hp.ne_nil hb (Nat.le_refl _)
    obtain ⟨r, hr⟩ := h pieces.length
    rw [hf] at hr
    cases hr
  · intro hb k
    obtain ⟨go, st, h, -⟩ := main_ok hp.ne_nil hb k
    exact ⟨(go, st), h⟩

/-- A line of three bytes. -/
theorem stays_inside_iff_line : ∃ r, main echoEnv [[0x61, 0x62, newline]] 2 = .ok r :=
  (stays_inside_iff echoEnv [0x61, 0x62, newline] [[0x61, 0x62, newline]]
    ⟨rfl, by decide, by decide⟩).mpr ⟨by decide, ⟨by decide, trivial⟩, .inr (by decide)⟩ 2

/-- Twenty bytes of a line, and then twenty more of it. -/
theorem long_line_overruns :
    main echoEnv [List.replicate 20 0x61, List.replicate 20 0x61] 2 = .error .store := by
  rfl

/-! ## The command line -/

/-- Where a line's terminator is expected there is no newline. So the texts copied are the lines. -/
theorem texts_eq_lines {m : Nat → Nat → UInt8} (hl : ∀ l ∈ lines, newline ∉ l)
    (heq : done.flatMap (· ++ [newline]) = lines.flatMap (· ++ [newline]))
    (hm : ∀ j i, i < (done.getD j []).length → m j i = (done.getD j []).getD i 0)
    (hz : ∀ j < lines.length, j < done.length → m j (lines.getD j []).length = 0) : done = lines := by
  induction done generalizing lines m with
  | nil =>
    cases lines with
    | nil => rfl
    | cons l ls => simp at heq
  | cons t ts ih =>
    cases lines with
    | nil => simp at heq
    | cons l ls =>
      simp only [List.flatMap_cons, List.append_assoc, List.singleton_append] at heq
      have hnl := hl l List.mem_cons_self
      have htl : t = l := by
        rcases List.append_eq_append_iff.mp heq with ⟨c, hc, hc'⟩ | ⟨c, hc, hc'⟩
        · cases c with
          | nil => rw [hc, List.append_nil]
          | cons b c =>
            rw [List.cons_append, List.cons.injEq] at hc'
            rw [hc, ← hc'.1] at hnl
            simp at hnl
        · cases c with
          | nil => rw [hc, List.append_nil]
          | cons b c =>
            -- the text goes on behind the line, with its newline
            rw [List.cons_append, List.cons.injEq] at hc'
            have hbyte := hm 0 l.length (by rw [List.getD_cons_zero, hc]; simp)
            have hzero : m 0 l.length = 0 := hz 0 (by simp) (by simp)
            rw [hzero, List.getD_cons_zero, hc, List.getD_append_right _ _ _ _ (Nat.le_refl _), Nat.sub_self,
              List.getD_cons_zero, ← hc'.1] at hbyte
            cases hbyte
      rw [htl] at heq ⊢
      have hrest : ts = ls := ih (m := fun j => m (j + 1)) (fun k hk => hl k (List.mem_cons_of_mem l hk))
        (List.cons.inj (List.append_cancel_left heq)).2
        (fun j i h => hm (j + 1) i (by rwa [List.getD_cons_succ]))
        (fun j h1 h2 => by
          have h := hz (j + 1) (by simpa using h1) (by simpa using h2)
          rwa [List.getD_cons_succ] at h)
      rw [hrest]

theorem length_words (env : Env) : (env.argv.map CStr.bytes).tail.length = env.argv.length - 1 := by
  simp

theorem getD_words {i : Nat} (h : i < env.argv.length - 1) :
    env.argv[i + 1]?.map CStr.bytes = some (((env.argv.map CStr.bytes).tail ++ lines).getD i []) := by
  have hlt : i + 1 < env.argv.length := by omega
  rw [List.getD_append _ _ _ _ (by simpa using h)]
  simp [hlt]

theorem getD_lines (j : Nat) :
    ((env.argv.map CStr.bytes).tail ++ lines).getD (env.argv.length - 1 + j) [] = lines.getD j [] := by
  have hlen := length_words env
  rw [List.getD_append_right _ _ _ _ (by omega), hlen, Nat.add_sub_cancel_left]

/-- The state in which the loop ends, if the texts copied are the lines: what `exec` gets is decided by
the bytes behind the lines and the slot behind the last. -/
theorem Inv.vector_iff (hi : Inv env [] lines st) :
    Vector env st ((env.argv.map CStr.bytes).tail ++ lines) ↔
      (∀ j < lines.length, 0 ∉ lines.getD j [] ∧ env.heap j (lines.getD j []).length = 0) ∧
        env.cmd (env.argv.length - 1 + lines.length) = .null := by
  have hlen : ((env.argv.map CStr.bytes).tail ++ lines).length = env.argv.length - 1 + lines.length := by
    rw [List.length_append, length_words]
  have hnull := hi.others _ (Nat.le_refl _)
  have hstr : ∀ j, IsStr (st.heap j) (lines.getD j []) ↔
      0 ∉ lines.getD j [] ∧ env.heap j (lines.getD j []).length = 0 := by
    intro j
    have hend : st.heap j (lines.getD j []).length = env.heap j (lines.getD j []).length := by
      rw [hi.heap, if_neg (Nat.lt_irrefl _)]
    rw [IsStr, hend]
    exact and_iff_right fun i h => by rw [hi.heap, if_pos h]
  unfold Vector
  rw [hlen, hnull]
  refine and_congr_left' ⟨fun h j hj => ?_, fun h i hlt => ?_⟩
  · have hp := h (env.argv.length - 1 + j) (by omega)
    rw [getD_lines, hi.blocks j hj] at hp
    exact (hstr j).mp hp
  · by_cases hw : i < env.argv.length - 1
    · rw [hi.args i (by omega)]
      exact getD_words hw
    · obtain ⟨j, rfl⟩ := Nat.exists_eq_add_of_le (Nat.le_of_not_lt hw)
      rw [getD_lines, hi.blocks j (by omega)]
      exact (hstr j).mpr (h j (by omega))

theorem split_lines (hl : ∀ l ∈ lines, newline ∉ l) :
    split newline (lines.flatMap (· ++ [newline])) = (lines, []) := by
  induction lines with
  | nil => rfl
  | cons l ls ih =>
    rw [List.flatMap_cons, List.append_assoc, List.singleton_append,
      split_line (hl l List.mem_cons_self), ih fun k hk => hl k (List.mem_cons_of_mem l hk)]

/-- The command gets its words and the lines of the input exactly if every newline is the last byte of
the read that delivers it, no line holds a zero byte, the memory behind the copy of each line holds a
zero, and so does the slot of `cmd` behind the last line. -/
theorem command_line_iff (env : Env) (lines : List Str) (pieces : List Str) (hargc : 2 ≤ env.argv.length)
    (hl : ∀ l ∈ lines, newline ∉ l ∧ l.length < MAXARG)
    (hfit : env.argv.length - 1 + lines.length + 1 ≤ MAXARG)
    (hp : Splits (lines.flatMap (· ++ [newline])) pieces) :
    Executes env pieces lines ↔
      (∀ p ∈ pieces, newline ∉ p.dropLast) ∧
      (∀ j < lines.length, 0 ∉ lines.getD j [] ∧ env.heap j (lines.getD j []).length = 0) ∧
      env.cmd (env.argv.length - 1 + lines.length) = .null := by
  have hnl : ∀ l ∈ lines, newline ∉ l := fun l h => (hl l h).1
  constructor
  · intro ⟨k, st, hm, hv⟩
    obtain ⟨-, hrest, hi⟩ := inv_of_stops hp.ne_nil hm
    have hflat := flatten_gather [] pieces
    rw [hrest, List.append_nil, List.nil_append, hp.flatten_eq] at hflat
    have hlen := length_words env
    have htexts : (gather [] pieces).1 = lines := by
      refine texts_eq_lines (m := st.heap) hnl hflat (fun j i h => by rw [hi.heap, if_pos h])
        fun j h1 h2 => ?_
      have hpt := hv.1 (env.argv.length - 1 + j) (by rw [List.length_append]; omega)
      rw [getD_lines, hi.blocks j h2] at hpt
      exact hpt.2.2
    rw [htexts] at hi
    refine ⟨(notMem_of_gather [] ?_ ?_).2, hi.vector_iff.mp hv⟩
    · rwa [htexts]
    · rw [hrest]
      exact List.not_mem_nil
  · intro ⟨hpieces, hmem⟩
    have hgather : gather [] pieces = (lines, []) := by
      rw [gather_eq_split List.not_mem_nil hpieces, List.nil_append, hp.flatten_eq, split_lines hnl]
    have hcount := length_gather [] pieces
    rw [hgather] at hcount
    have hb : InBounds env.argv.length pieces := by
      refine ⟨by omega, (fits_of_short [] ?_ ?_).2, .inr ⟨by omega, ?_⟩⟩
      · rw [hgather]
        exact fun l h => (hl l h).2
      · rw [hgather]
      · rw [← hcount]
        dsimp only
        omega
    obtain ⟨st, hm, hi⟩ := stops_of_rest hp.ne_nil hb (by rw [hgather])
    rw [hgather] at hi
    exact ⟨pieces.length + 1, st, hm, hi.vector_iff.mpr hmem⟩

/-- Two lines, the first of them read in two parts. -/
theorem command_line_iff_twoLines :
    Executes echoEnv [[0x61], [0x62, newline], [0x63, newline]] [[0x61, 0x62], [0x63]] :=
  (command_line_iff echoEnv [[0x61, 0x62], [0x63]] [[0x61], [0x62, newline], [0x63, newline]]
    (by decide) (by decide) (by decide) ⟨rfl, by decide, by decide⟩).mpr ⟨by decide, by decide, rfl⟩

/-- Two lines that arrive in one read are one argument, with the newline in it. -/
theorem lines_in_one_read :
    (main echoEnv [[0x61, newline, 0x62, newline]] 2).map
        (fun r => (r.1, r.2.cmd 1, r.2.cmd 2, (List.range 4).map (r.2.heap 0))) =
      .ok (false, .block 0, .null, [0x61, newline, 0x62, 0]) := by
  rfl

end Xv6.Xargs
