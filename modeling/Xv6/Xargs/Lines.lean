import Xv6.Xargs.Model
import Xv6.Lib.Lines
import Mathlib.Data.List.GetD

/-!
# What `xargs` makes of its input

The loop looks at the last byte of what a read has delivered, so it sees a newline only where a read
ends with one. `gather` is what it makes of the pieces: the texts it copies, each from one such read
to the next, and the bytes that are waiting in the buffer. `Fits` and `Slots` say when the buffer and
the argument array are large enough for that.
-/
namespace Xv6.Xargs

open Function

set_option autoImplicit false

variable {env : Env} {acc : Str} {done : List Str} {st : State} {piece : Str} {pieces : List Str}

/-- The read ends with a newline. -/
def ends (piece : Str) : Bool := piece.getLast? = some newline

/-- The texts copied, and the bytes left in the buffer, where `acc` is what waits there already. -/
def gather : Str → List Str → List Str × Str
  | acc, [] => ([], acc)
  | acc, p :: ps =>
    if ends p then ((acc ++ p).dropLast :: (gather [] ps).1, (gather [] ps).2)
    else gather (acc ++ p) ps

/-- Every read finds room in the buffer behind the `n` bytes that wait in it. -/
def Fits : Nat → List Str → Prop
  | _, [] => True
  | n, p :: ps => n + p.length ≤ MAXARG ∧ Fits (if ends p then 0 else n + p.length) ps

/-- Behind the command's own words and `d` lines there are slots for the texts of these pieces. -/
def Slots (argc d : Nat) (pieces : List Str) : Prop :=
  pieces.countP ends = 0 ∨ (1 ≤ argc ∧ argc - 1 + d + pieces.countP ends ≤ MAXARG)

/-- The state after the texts `done` have been copied, with `acc` waiting in the buffer. -/
structure Inv (env : Env) (acc : Str) (done : List Str) (st : State) : Prop where
  p_eq : st.p = acc.length
  n_eq : st.n = acc.length
  room : acc.length ≤ MAXARG
  last : acc.getLast? ≠ some newline
  buf : ∀ i < acc.length, st.rbuf i = acc.getD i 0
  argc : 1 ≤ env.argv.length ∨ done = []
  s_eq : st.s = (env.argv.length : Int) - 1 + done.length
  mallocs : st.mallocs = done.length
  args : ∀ i, i + 1 < env.argv.length → st.cmd i = .arg (i + 1)
  blocks : ∀ j < done.length, st.cmd (env.argv.length - 1 + j) = .block j
  others : ∀ i, env.argv.length - 1 + done.length ≤ i → st.cmd i = env.cmd i
  heap : ∀ j i, st.heap j i =
    if i < (done.getD j []).length then (done.getD j []).getD i 0 else env.heap j i

/-! ## One turn -/

theorem write_below {m : Nat → UInt8} {a i : Nat} {t : Str} (h : i < a) : write m a t i = m i :=
  if_neg (by omega)

theorem write_at {m : Nat → UInt8} {a i : Nat} {t : Str} (h : i < t.length) :
    write m a t (a + i) = t.getD i 0 := by
  rw [write, if_pos (by omega), Nat.add_sub_cancel_left]

/-- After the read the buffer begins with the waiting bytes and the new ones. -/
theorem Inv.write (hi : Inv env acc done st) {i : Nat} (h : i < (acc ++ piece).length) :
    Xargs.write st.rbuf st.p piece i = (acc ++ piece).getD i 0 := by
  rw [hi.p_eq]
  rw [List.length_append] at h
  by_cases hlt : i < acc.length
  · rw [write_below hlt, hi.buf i hlt, List.getD_append _ _ _ _ hlt]
  · obtain ⟨j, rfl⟩ := Nat.exists_eq_add_of_le (Nat.le_of_not_lt hlt)
    rw [write_at (by omega), List.getD_append_right _ _ _ _ (by omega), Nat.add_sub_cancel_left]

theorem getD_last {t : Str} (h : t ≠ []) : t.getLast? = some (t.getD (t.length - 1) 0) := by
  have hpos := List.length_pos_iff.mpr h
  rw [List.getLast?_eq_getElem?, List.getD_eq_getElem?_getD,
    List.getElem?_eq_getElem (show t.length - 1 < t.length by omega)]
  rfl

theorem getLast?_append_piece (acc : Str) (hne : piece ≠ []) : (acc ++ piece).getLast? = piece.getLast? := by
  rw [List.getLast?_append, List.getLast?_eq_getLast_of_ne_nil hne]
  rfl

/-- The state of the turn after a read. -/
def State.fill (st : State) (piece : Str) : State :=
  { st with rbuf := Xargs.write st.rbuf st.p piece, n := st.n + piece.length
            p := st.n + piece.length }

/-- The state after a read that does not end a line. -/
theorem Inv.wait (hi : Inv env acc done st) (hfit : acc.length + piece.length ≤ MAXARG)
    (hlast : (acc ++ piece).getLast? ≠ some newline) :
    Inv env (acc ++ piece) done (st.fill piece) where
  p_eq := by
    change st.n + piece.length = _
    rw [hi.n_eq, List.length_append]
  n_eq := by
    change st.n + piece.length = _
    rw [hi.n_eq, List.length_append]
  room := by rwa [List.length_append]
  last := hlast
  buf _ h := hi.write h
  argc := hi.argc
  s_eq := hi.s_eq
  mallocs := hi.mallocs
  args := hi.args
  blocks := hi.blocks
  others := hi.others
  heap := hi.heap

theorem copy_dropLast {m : Nat → UInt8} {rbuf : Nat → UInt8} {t : Str} (hne : t ≠ [])
    (h : ∀ i < t.length, rbuf i = t.getD i 0) (i : Nat) :
    copy (update rbuf (t.length - 1) 0) (t.length - 1) m i =
      if i < t.dropLast.length then t.dropLast.getD i 0 else m i := by
  have hpos := List.length_pos_iff.mpr hne
  rw [copy, List.length_dropLast]
  by_cases hi : i < t.length - 1
  · rw [if_pos hi, if_pos hi, update_of_ne (by omega), h i (by omega),
      List.getD_eq_getElem?_getD, List.getD_eq_getElem?_getD, List.getElem?_dropLast, if_pos hi]
  · rw [if_neg hi, if_neg hi]

theorem length_snoc (done : List Str) (text : Str) : (done ++ [text]).length = done.length + 1 :=
  List.length_append

/-- The next text gets the next slot and the next block. -/
theorem Inv.put (hi : Inv env acc done st) (hargc : 1 ≤ env.argv.length) (rbuf : Nat → UInt8)
    {text : Str} {m : Nat → UInt8}
    (hm : ∀ i, m i = if i < text.length then text.getD i 0 else st.heap done.length i) :
    Inv env [] (done ++ [text])
      ⟨rbuf, 0, 0, update st.cmd (env.argv.length - 1 + done.length) (.block done.length),
        st.s + 1, update st.heap done.length m, done.length + 1⟩ where
  p_eq := rfl
  n_eq := rfl
  room := Nat.zero_le _
  last := by simp
  buf i h := absurd h (Nat.not_lt_zero i)
  argc := .inl hargc
  s_eq := by
    have hs := hi.s_eq
    rw [length_snoc]
    push_cast
    omega
  mallocs := (length_snoc done text).symm
  args i h := by
    have hne : i ≠ env.argv.length - 1 + done.length := by omega
    exact (update_of_ne hne ..).trans (hi.args i h)
  blocks j hj := by
    rw [length_snoc] at hj
    by_cases hd : j = done.length
    · rw [hd]
      exact update_self ..
    · have hne : env.argv.length - 1 + j ≠ env.argv.length - 1 + done.length := by omega
      exact (update_of_ne hne ..).trans (hi.blocks j (by omega))
  others i h := by
    rw [length_snoc] at h
    have hne : i ≠ env.argv.length - 1 + done.length := by omega
    exact (update_of_ne hne ..).trans (hi.others i (by omega))
  heap j i := by
    dsimp only
    by_cases hd : j = done.length
    · have hold : st.heap done.length i = env.heap done.length i := by
        simpa using hi.heap done.length i
      rw [hd, update_self, hm, hold, List.getD_append_right _ _ _ _ (Nat.le_refl _),
        Nat.sub_self, List.getD_cons_zero]
    · rw [update_of_ne hd, hi.heap]
      by_cases hlt : j < done.length
      · rw [List.getD_append _ _ _ _ hlt]
      · have hout : (done ++ [text]).length ≤ j := by
          rw [length_snoc]
          omega
        rw [List.getD_eq_default _ _ (Nat.le_of_not_lt hlt), List.getD_eq_default _ _ hout]

/-- The rest of the turn when a read ends a line. -/
theorem Inv.line (hi : Inv env acc done st) (hne : acc ++ piece ≠ [])
    (hslot : 1 ≤ env.argv.length ∧ env.argv.length - 1 + done.length < MAXARG) :
    ∃ st', (st.fill piece).line = .ok st' ∧ Inv env [] (done ++ [(acc ++ piece).dropLast]) st' := by
  have hs := hi.s_eq
  have hn : st.n + piece.length = (acc ++ piece).length := by rw [hi.n_eq, List.length_append]
  have hidx : st.s.toNat = env.argv.length - 1 + done.length := by omega
  refine ⟨_, if_pos (by dsimp only [State.fill]; omega), ?_⟩
  dsimp only [State.fill]
  rw [hn, hidx, hi.mallocs]
  exact hi.put hslot.1 _ fun i => copy_dropLast hne (fun i h => hi.write h) i

theorem line_error (h : ¬(1 ≤ env.argv.length ∧ env.argv.length - 1 + done.length < MAXARG))
    (hi : Inv env acc done st) : (st.fill piece).line = .error .slot := by
  have hs := hi.s_eq
  have hout : ¬(0 ≤ st.s ∧ st.s < MAXARG) := by
    rcases hi.argc with hargc | hnone
    · omega
    · simp only [hnone, List.length_nil] at h hs
      omega
  exact if_neg hout

/-- A turn that reads something. -/
theorem Inv.turn (hi : Inv env acc done st) (hne : piece ≠ [])
    (hfit : acc.length + piece.length ≤ MAXARG) :
    Xargs.turn st piece =
      if ends piece then
        (st.fill piece).line.map (true, ·)
      else .ok (true, st.fill piece) := by
  have hpos := List.length_pos_iff.mpr hne
  have hne' : acc ++ piece ≠ [] := List.append_ne_nil_of_right_ne_nil _ hne
  have hp := hi.p_eq
  have hn : st.n + piece.length = (acc ++ piece).length := by rw [hi.n_eq, List.length_append]
  have hlast : piece.getLast? = some (Xargs.write st.rbuf st.p piece (st.n + piece.length - 1)) := by
    rw [← getLast?_append_piece acc hne, getD_last hne', hn, hi.write]
    have := List.length_pos_iff.mpr hne'
    omega
  have hends : ends piece = true ↔
      Xargs.write st.rbuf st.p piece (st.n + piece.length - 1) = newline := by
    rw [ends, hlast, decide_eq_true_eq, Option.some.injEq]
  rw [Xargs.turn, if_pos (by omega), if_pos (by dsimp only; omega),
    if_pos (by dsimp only; rw [hi.n_eq]; omega)]
  by_cases he : ends piece = true
  · rw [if_pos he, if_neg (not_not.mpr (hends.mp he))]
    rfl
  · rw [if_neg he, if_pos (mt hends.mpr he)]
    rfl

/-- At the end of the input nothing changes: the loop ends if the buffer is empty and only then. -/
theorem Inv.turn_nil (hi : Inv env acc done st) :
    Xargs.turn st [] = .ok (acc ≠ [], st.fill []) ∧ Inv env acc done (st.fill []) := by
  have hp := hi.p_eq
  have hn := hi.n_eq
  have hroom := hi.room
  have hi' : Inv env acc done (st.fill []) := by
    have h : Inv env (acc ++ []) done (st.fill []) :=
      hi.wait hroom (by rw [List.append_nil]; exact hi.last)
    rwa [List.append_nil] at h
  refine ⟨?_, hi'⟩
  rw [Xargs.turn, if_pos (by rw [hp]; exact hroom)]
  by_cases hacc : acc = []
  · rw [hacc, List.length_nil] at hp hn
    rw [if_neg (by dsimp only; rw [hn]; simp)]
    simp [State.fill, hacc, hp, hn]
  · have hpos := List.length_pos_iff.mpr hacc
    have hlast : Xargs.write st.rbuf st.p [] (st.n + ([] : Str).length - 1) ≠ newline := by
      intro h
      refine hi.last ?_
      rw [getD_last hacc, ← hi'.buf _ (by omega), ← hi'.n_eq]
      exact congrArg some h
    have hn' : 0 < st.n + ([] : Str).length := by rw [hn]; exact hpos
    have hlt : st.n + ([] : Str).length - 1 < MAXARG := by
      rw [List.length_nil]
      omega
    rw [if_pos hn', if_pos hlt, if_pos hlast]
    simp [State.fill, hacc]

/-! ## The loop -/

theorem loop_append (st : State) (a b : List Str) :
    loop st (a ++ b) = (loop st a).bind fun r => if r.1 then loop r.2 b else .ok r := by
  induction a generalizing st with
  | nil => rfl
  | cons p a ih =>
    rw [List.cons_append, loop, loop]
    cases turn st p with
    | error f => rfl
    | ok r =>
      obtain ⟨go, st'⟩ := r
      cases go with
      | true => exact ih st'
      | false => rfl

/-- While there is something to read the loop goes on. -/
theorem turn_true {go : Bool} {st' : State} (hne : piece ≠ []) (h : turn st piece = .ok (go, st')) :
    go = true := by
  have hpos := List.length_pos_iff.mpr hne
  rw [turn] at h
  split at h
  · rw [if_pos (by dsimp only; omega)] at h
    dsimp only at h
    split at h
    · split at h
      · cases h
        rfl
      · revert h
        cases State.line _ with
        | error f => exact fun h => by cases h
        | ok t => exact fun h => by cases h; rfl
    · cases h
  · cases h

theorem loop_true {go : Bool} {st' : State} (hne : ∀ p ∈ pieces, p ≠ [])
    (h : loop st pieces = .ok (go, st')) : go = true := by
  induction pieces generalizing st with
  | nil =>
    cases h
    rfl
  | cons p ps ih =>
    rw [loop] at h
    cases ht : turn st p with
    | error f =>
      rw [ht] at h
      cases h
    | ok r =>
      obtain ⟨go', st1⟩ := r
      have hgo := turn_true (hne p List.mem_cons_self) ht
      rw [ht, hgo] at h
      exact ih (fun q hq => hne q (List.mem_cons_of_mem p hq)) h

theorem slots_cons {argc d : Nat} {p : Str} {ps : List Str} :
    Slots argc d (p :: ps) ↔
      if ends p then (1 ≤ argc ∧ argc - 1 + d < MAXARG) ∧ Slots argc (d + 1) ps else Slots argc d ps := by
  unfold Slots
  by_cases he : ends p = true
  · rw [if_pos he, List.countP_cons_of_pos he]
    omega
  · rw [if_neg he, List.countP_cons_of_neg he]

/-- The loop over the pieces of the input: it stays in its arrays exactly if they are large enough,
and then it has copied what `gather` says. -/
theorem loop_pieces (hi : Inv env acc done st) (hne : ∀ p ∈ pieces, p ≠ []) :
    (Fits acc.length pieces ∧ Slots env.argv.length done.length pieces →
      ∃ st', loop st pieces = .ok (true, st') ∧
        Inv env (gather acc pieces).2 (done ++ (gather acc pieces).1) st') ∧
    (¬(Fits acc.length pieces ∧ Slots env.argv.length done.length pieces) →
      ∃ f, loop st pieces = .error f) := by
  induction pieces generalizing acc done st with
  | nil =>
    refine ⟨fun _ => ⟨st, rfl, ?_⟩, fun h => absurd ⟨trivial, .inl rfl⟩ h⟩
    rwa [gather, List.append_nil]
  | cons p ps ih =>
    have hp := hne p List.mem_cons_self
    have hps : ∀ q ∈ ps, q ≠ [] := fun q hq => hne q (List.mem_cons_of_mem p hq)
    have hne' : acc ++ p ≠ [] := List.append_ne_nil_of_right_ne_nil _ hp
    rw [Fits, slots_cons, gather, loop]
    by_cases hfit : acc.length + p.length ≤ MAXARG
    · rw [hi.turn hp hfit]
      by_cases he : ends p = true
      · simp only [if_pos he]
        by_cases hslot : 1 ≤ env.argv.length ∧ env.argv.length - 1 + done.length < MAXARG
        · obtain ⟨st1, hl, hi1⟩ := hi.line hne' hslot
          have hrest := ih hi1 hps
          rw [length_snoc, List.append_assoc] at hrest
          rw [hl]
          exact ⟨fun h => hrest.1 ⟨h.1.2, h.2.2⟩, fun h => hrest.2 fun h' => h ⟨⟨hfit, h'.1⟩, hslot, h'.2⟩⟩
        · rw [line_error hslot hi]
          exact ⟨fun h => absurd h.2.1 hslot, fun _ => ⟨.slot, rfl⟩⟩
      · have hlast : (acc ++ p).getLast? ≠ some newline := by
          rw [getLast?_append_piece acc hp]
          simpa [ends] using he
        have hrest := ih (hi.wait hfit hlast) hps
        rw [List.length_append] at hrest
        simp only [if_neg he]
        exact ⟨fun h => hrest.1 ⟨h.1.2, h.2⟩, fun h => hrest.2 fun h' => h ⟨⟨hfit, h'.1⟩, h'.2⟩⟩
    · have hturn : turn st p = .error .store := if_neg (by rwa [hi.p_eq])
      rw [hturn]
      exact ⟨fun h => absurd h.1.1 hfit, fun _ => ⟨.store, rfl⟩⟩

/-- After the input the loop ends at the first read, if nothing is waiting, and never otherwise. -/
theorem loop_replicate (hi : Inv env acc done st) (k : Nat) :
    ∃ st', loop st (List.replicate k []) = .ok (acc ≠ [] ∨ k = 0, st') ∧ Inv env acc done st' := by
  induction k generalizing st with
  | zero => exact ⟨st, by simp [loop], hi⟩
  | succ k ih =>
    obtain ⟨ht, hi'⟩ := hi.turn_nil
    rw [List.replicate_succ, loop, ht]
    by_cases hacc : acc = []
    · exact ⟨st.fill [], by simp [hacc], hi'⟩
    · obtain ⟨st', hl, hst⟩ := ih hi'
      refine ⟨st', ?_, hst⟩
      simp only [hacc, ne_eq, not_false_eq_true, decide_true, true_or] at hl ⊢
      exact hl

/-! ## The whole program -/

theorem setArgs_ok (cmd : Nat → Ptr) {k : Nat} (h : k ≤ MAXARG) :
    ∃ cmd', setArgs cmd k = .ok cmd' ∧ (∀ i < k, cmd' i = .arg (i + 1)) ∧ ∀ i, k ≤ i → cmd' i = cmd i := by
  induction k with
  | zero => exact ⟨cmd, rfl, fun i hi => absurd hi (Nat.not_lt_zero i), fun _ _ => rfl⟩
  | succ k ih =>
    obtain ⟨cmd', he, hargs, hrest⟩ := ih (Nat.le_of_succ_le h)
    refine ⟨update cmd' k (.arg (k + 1)), ?_, fun i hi => ?_, fun i hi => ?_⟩
    · rw [setArgs, he]
      exact if_pos h
    · by_cases hik : i = k
      · rw [hik, update_self]
      · rw [update_of_ne hik]
        exact hargs i (by omega)
    · rw [update_of_ne (by omega)]
      exact hrest i (by omega)

theorem setArgs_error (cmd : Nat → Ptr) {k : Nat} (h : MAXARG < k) : setArgs cmd k = .error .slot := by
  induction k with
  | zero => exact absurd h (Nat.not_lt_zero _)
  | succ k ih =>
    rw [setArgs]
    by_cases hk : MAXARG < k
    · rw [ih hk]
      rfl
    · obtain ⟨cmd', he, -⟩ := setArgs_ok cmd (Nat.le_of_not_lt hk)
      rw [he]
      exact if_neg (by omega)

/-- The arrays are large enough for the arguments and this input. -/
def InBounds (argc : Nat) (pieces : List Str) : Prop :=
  argc - 1 ≤ MAXARG ∧ Fits 0 pieces ∧ Slots argc 0 pieces

theorem results_of_le {k : Nat} (h : k ≤ pieces.length) : results pieces k = pieces.take k := by
  rw [results, List.take_append_of_le_length h]

theorem results_of_ge {k : Nat} (h : pieces.length ≤ k) :
    results pieces k = pieces ++ List.replicate (k - pieces.length) [] := by
  rw [results, List.take_append, List.take_of_length_le h, List.take_replicate,
    Nat.min_eq_left (Nat.sub_le ..)]

theorem main_eq {cmd : Nat → Ptr} (h : setArgs env.cmd (env.argv.length - 1) = .ok cmd) (k : Nat) :
    main env pieces k =
      loop ⟨env.rbuf, 0, 0, cmd, env.argv.length - 1, env.heap, 0⟩ (results pieces k) := by
  rw [main, h]
  rfl

theorem inv_start {cmd : Nat → Ptr} (hargs : ∀ i < env.argv.length - 1, cmd i = .arg (i + 1))
    (hrest : ∀ i, env.argv.length - 1 ≤ i → cmd i = env.cmd i) :
    Inv env [] [] ⟨env.rbuf, 0, 0, cmd, env.argv.length - 1, env.heap, 0⟩ where
  p_eq := rfl
  n_eq := rfl
  room := Nat.zero_le _
  last := by simp
  buf i h := absurd h (Nat.not_lt_zero i)
  argc := .inr rfl
  s_eq := (Int.add_zero _).symm
  mallocs := rfl
  args i h := hargs i (by omega)
  blocks j h := absurd h (Nat.not_lt_zero j)
  others i h := hrest i h
  heap j i := by simp

/-- With large enough arrays: what the program has done when it has read the whole input, and after
every number of reads. -/
theorem main_ok (hne : ∀ p ∈ pieces, p ≠ []) (hb : InBounds env.argv.length pieces) (k : Nat) :
    ∃ go st, main env pieces k = .ok (go, st) ∧
      (k ≤ pieces.length → go = true) ∧
      (pieces.length < k → (go = true ↔ (gather [] pieces).2 ≠ []) ∧
        Inv env (gather [] pieces).2 (gather [] pieces).1 st) := by
  obtain ⟨cmd, he, hargs, hrest⟩ := setArgs_ok env.cmd hb.1
  obtain ⟨st1, hl, hi⟩ := (loop_pieces (inv_start hargs hrest) hne).1 hb.2
  rw [main_eq he]
  by_cases hk : k ≤ pieces.length
  · rw [results_of_le hk]
    have hsplit := loop_append ⟨env.rbuf, 0, 0, cmd, env.argv.length - 1, env.heap, 0⟩
      (pieces.take k) (pieces.drop k)
    rw [List.take_append_drop, hl] at hsplit
    cases hr : loop ⟨env.rbuf, 0, 0, cmd, env.argv.length - 1, env.heap, 0⟩ (pieces.take k) with
    | error f =>
      rw [hr] at hsplit
      cases hsplit
    | ok r =>
      refine ⟨r.1, r.2, rfl, fun _ => ?_, fun h => absurd hk (Nat.not_le_of_lt h)⟩
      exact loop_true (fun p hp => hne p (List.mem_of_mem_take hp)) hr
  · have hlt : pieces.length < k := Nat.lt_of_not_le hk
    obtain ⟨st2, hl2, hi2⟩ := loop_replicate hi (k - pieces.length)
    refine ⟨decide ((gather [] pieces).2 ≠ [] ∨ k - pieces.length = 0), st2, ?_, fun h => absurd h hk,
      fun _ => ⟨?_, hi2⟩⟩
    · rw [results_of_ge (Nat.le_of_lt hlt), loop_append, hl]
      exact hl2
    · have hpos : k - pieces.length ≠ 0 := by omega
      simp [hpos]

theorem main_error (hne : ∀ p ∈ pieces, p ≠ []) (hb : ¬InBounds env.argv.length pieces) {k : Nat}
    (hk : pieces.length ≤ k) : ∃ f, main env pieces k = .error f := by
  by_cases hargc : env.argv.length - 1 ≤ MAXARG
  · obtain ⟨cmd, he, hargs, hrest⟩ := setArgs_ok env.cmd hargc
    obtain ⟨f, hf⟩ := (loop_pieces (inv_start hargs hrest) hne).2 fun h => hb ⟨hargc, h⟩
    rw [main_eq he, results_of_ge hk, loop_append, hf]
    exact ⟨f, rfl⟩
  · refine ⟨.slot, ?_⟩
    rw [main, setArgs_error env.cmd (Nat.lt_of_not_le hargc)]
    rfl

/-- While the input lasts the loop does not end. -/
theorem main_true (hne : ∀ p ∈ pieces, p ≠ []) {k : Nat} {go : Bool} (hk : k ≤ pieces.length)
    (h : main env pieces k = .ok (go, st)) : go = true := by
  rw [main] at h
  cases hs : setArgs env.cmd (env.argv.length - 1) with
  | error f =>
    rw [hs] at h
    cases h
  | ok cmd =>
    rw [hs, results_of_le hk] at h
    exact loop_true (fun p hp => hne p (List.mem_of_mem_take hp)) h

end Xv6.Xargs
