import Xv6.Console.Model

/-!
# Lines of console input

What the console is for, in terms of two lists: the input that readers may have, and the line
that is being edited. Every run of the model of `console.c` is a run of this machine, through
`view`, with the events that `event` reads off the steps.
-/
namespace Xv6.Console

open Function

set_option autoImplicit false

/-! ## The two lists -/

structure Lines where
  committed : List UInt8
  edit : List UInt8

namespace Lines

def length (l : Lines) : Nat := l.committed.length + l.edit.length

/-- `c` is added to the line, which is handed to the readers once it is complete. -/
def append (l : Lines) (c : UInt8) : Lines :=
  if c = newline ∨ c = ctrlD ∨ l.length + 1 = INPUT_BUF_SIZE then ⟨l.committed ++ l.edit ++ [c], []⟩
  else ⟨l.committed, l.edit ++ [c]⟩

def input (l : Lines) (c : UInt8) : Lines :=
  if c = ctrlP then l
  else if c = ctrlU then ⟨l.committed, []⟩
  else if c = ctrlH ∨ c = delete then ⟨l.committed, l.edit.dropLast⟩
  else if c ≠ 0 ∧ l.length < INPUT_BUF_SIZE then
    l.append (if c = carriageReturn then newline else c)
  else l

end Lines

inductive Reader where
  | idle
  | reading (n : Int) (got : List UInt8)
  | returned (got : List UInt8)
  deriving DecidableEq

structure Tty where
  lines : Lines
  reader : Pid → Reader

inductive Event where
  | input (c : UInt8)
  | read (p : Pid) (n : Int)
  | take (p : Pid)
  | finish (p : Pid)
  deriving DecidableEq

namespace Tty

def set (t : Tty) (p : Pid) (committed : List UInt8) (x : Reader) : Tty :=
  ⟨⟨committed, t.lines.edit⟩, update t.reader p x⟩

/-- A reader takes the first byte `b` of the committed input. -/
def take (t : Tty) (p : Pid) (n : Int) (got : List UInt8) (b : UInt8) (rest : List UInt8) : Tty :=
  if b = ctrlD then
    if got = [] then t.set p rest (.returned []) else t.set p (b :: rest) (.returned got)
  else if b = newline then t.set p rest (.returned (got ++ [b]))
  else t.set p rest (.reading n (got ++ [b]))

def step (t : Tty) : Event → Option Tty
  | .input c => some { t with lines := t.lines.input c }
  | .read p n =>
    match t.reader p with
    | .idle | .returned _ => some (t.set p t.lines.committed (.reading n []))
    | _ => none
  | .take p =>
    match t.reader p, t.lines.committed with
    | .reading n got, b :: rest => if got.length < n then some (t.take p n got b rest) else none
    | _, _ => none
  | .finish p =>
    match t.reader p with
    | .reading n got =>
      if got.length < n then none else some (t.set p t.lines.committed (.returned got))
    | _ => none

def init : Tty := ⟨⟨[], []⟩, fun _ => .idle⟩

end Tty

/-! ## The ring as two lists -/

namespace Cons

variable (k : Cons)

def readable : Nat := Lib.Ring.count (2 ^ 32) k.r.toNat k.w.toNat

def used : Nat := Lib.Ring.count (2 ^ 32) k.r.toNat k.e.toNat

/-- All bytes from `r` to `e`. -/
def held : List UInt8 := Lib.Ring.contents (2 ^ 32) k.buf k.r.toNat k.e.toNat

def lines : Lines := ⟨k.held.take k.readable, k.held.drop k.readable⟩

/-- `r ≤ w ≤ e ≤ r + INPUT_BUF_SIZE`, where the differences are those of `uint`s, and no
newline is left in the line that is being edited. -/
structure Ok : Prop where
  ordered : (k.w - k.r).toNat ≤ (k.e - k.r).toNat
  fits : (k.e - k.r).toNat ≤ INPUT_BUF_SIZE
  edit : newline ∉ k.lines.edit

end Cons

def Ctl.reader : Ctl → Reader
  | .idle => .idle
  | .enter n => .reading n []
  | .loop n got | .asleep n got | .woken n got => .reading n got
  | .returned _ got => .returned got

def Sys.view (s : Sys) : Tty := ⟨s.cons.lines, fun p => (s.ctl p).reader⟩

/-- What a step is in terms of the two lists, if anything. -/
def event (s : Sys) : Act → Option Event
  | .intr c => some (.input c)
  | .call p n => some (.read p n)
  | .acquire _ => none
  | .turn p =>
    match s.ctl p with
    | .loop n got =>
      if n - got.length > 0 then if s.cons.r = s.cons.w then none else some (.take p)
      else some (.finish p)
    | _ => none

/-- The events of a run. -/
def events (s : Sys) : List Act → List Event
  | [] => []
  | a :: as =>
    match step s a with
    | none => []
    | some s' => (event s a).toList ++ events s' as

section

variable {k : Cons}

theorem toNat_sub (a b : UInt32) : (a - b).toNat = Lib.Ring.count (2 ^ 32) b.toNat a.toNat := by
  rw [UInt32.toNat_sub, Lib.Ring.count, Nat.add_comm]

theorem toNat_succ (a : UInt32) : (a + 1).toNat = (a.toNat + 1) % 2 ^ 32 := by
  rw [UInt32.toNat_add]
  rfl

theorem toNat_pred (a : UInt32) : (a - 1).toNat = (a.toNat + (2 ^ 32 - 1)) % 2 ^ 32 := by
  rw [UInt32.toNat_sub, Nat.add_comm]
  rfl

namespace Cons

theorem Ok.readable_le (h : k.Ok) : k.readable ≤ k.used := by
  have := h.ordered
  rwa [toNat_sub, toNat_sub] at this

theorem Ok.used_le (h : k.Ok) : k.used ≤ INPUT_BUF_SIZE := by
  have := h.fits
  rwa [toNat_sub] at this

theorem Ok.of_counts (hle : k.readable ≤ k.used) (hfit : k.used ≤ INPUT_BUF_SIZE)
    (hedit : newline ∉ k.lines.edit) : k.Ok := by
  refine ⟨?_, ?_, hedit⟩
  · rw [toNat_sub, toNat_sub]
    exact hle
  · rw [toNat_sub]
    exact hfit

@[simp] theorem length_held : k.held.length = k.used := Lib.Ring.length_contents ..

theorem Ok.length_lines (h : k.Ok) : k.lines.length = k.used := by
  have := h.readable_le
  simp only [lines, Lines.length, List.length_take, List.length_drop, length_held]
  omega

theorem length_edit : k.lines.edit.length = k.used - k.readable := by
  simp only [lines, List.length_drop, length_held]

/-- The two indices agree if the line is empty. -/
theorem e_eq_w_iff : k.e = k.w ↔ k.used = k.readable := by
  have he := Lib.Ring.write_eq k.r.toNat_lt k.e.toNat_lt
  have hw := Lib.Ring.write_eq k.r.toNat_lt k.w.toNat_lt
  constructor
  · intro h
    rw [used, readable, h]
  · intro h
    rw [← UInt32.toNat_inj, he, hw]
    exact congrArg (fun n => (k.r.toNat + n) % 2 ^ 32) h

theorem lines_of_eq (h : k.e = k.w) : k.lines = ⟨k.lines.committed, []⟩ := by
  have hlen := length_edit (k := k)
  rw [e_eq_w_iff.mp h, Nat.sub_self] at hlen
  rw [← List.length_eq_zero_iff.mp hlen]

theorem r_eq_w_iff : k.r = k.w ↔ k.readable = 0 := by
  rw [readable, Lib.Ring.count_eq_zero k.r.toNat_lt k.w.toNat_lt, UInt32.toNat_inj]

/-! ## Changes of the ring -/

theorem used_push (c : UInt8) (h : k.used < INPUT_BUF_SIZE) : (k.push c).used = k.used + 1 := by
  have hb : k.used + 1 < 2 ^ 32 := lt_of_le_of_lt (Nat.succ_le_of_lt h) (by decide)
  simp only [used, push, toNat_succ]
  exact Lib.Ring.count_write_succ hb

theorem held_push (c : UInt8) (h : k.used < INPUT_BUF_SIZE) : (k.push c).held = k.held ++ [c] := by
  simp only [held, push, toNat_succ]
  exact Lib.Ring.contents_push (by decide) (by decide) _ _ k.r.toNat_lt k.e.toNat_lt h

theorem used_pred (h : k.used ≠ 0) : ({ k with e := k.e - 1 } : Cons).used + 1 = k.used := by
  simp only [used, toNat_pred]
  exact Lib.Ring.count_write_pred k.e.toNat_lt h

theorem held_pred (h : k.used ≠ 0) :
    k.held = ({ k with e := k.e - 1 } : Cons).held ++ [k.get (k.e - 1)] := by
  simp only [held, get, toNat_pred]
  exact Lib.Ring.contents_unpush (by decide) _ k.r.toNat_lt k.e.toNat_lt h

theorem readable_succ (h : k.readable ≠ 0) :
    ({ k with r := k.r + 1 } : Cons).readable + 1 = k.readable := by
  simp only [readable, toNat_succ]
  exact Lib.Ring.count_read_succ k.r.toNat_lt h

theorem used_succ (h : k.used ≠ 0) : ({ k with r := k.r + 1 } : Cons).used + 1 = k.used := by
  simp only [used, toNat_succ]
  exact Lib.Ring.count_read_succ k.r.toNat_lt h

theorem held_succ (h : k.used ≠ 0) :
    k.held = k.get k.r :: ({ k with r := k.r + 1 } : Cons).held := by
  simp only [held, get, toNat_succ]
  exact Lib.Ring.contents_pop (by decide) _ k.r.toNat_lt h

/-! ## The handler -/

/-- The last byte of the line is dropped. -/
theorem lines_pred (h : k.Ok) (hne : k.e ≠ k.w) :
    ({ k with e := k.e - 1 } : Cons).Ok ∧
      ({ k with e := k.e - 1 } : Cons).lines = ⟨k.lines.committed, k.lines.edit.dropLast⟩ ∧
      k.lines.edit = k.lines.edit.dropLast ++ [k.get (k.e - 1)] := by
  have hle := h.readable_le
  have hlt : k.readable < k.used := lt_of_le_of_ne hle fun he => hne (e_eq_w_iff.mpr he.symm)
  have h0 : k.used ≠ 0 := by omega
  have hu := used_pred h0
  have hheld := held_pred h0
  have hr : ({ k with e := k.e - 1 } : Cons).readable = k.readable := rfl
  have hlen : k.readable ≤ ({ k with e := k.e - 1 } : Cons).held.length := by
    rw [length_held]
    omega
  have hedit : k.lines.edit =
      ({ k with e := k.e - 1 } : Cons).held.drop k.readable ++ [k.get (k.e - 1)] := by
    simp only [lines]
    rw [hheld, List.drop_append_of_le_length hlen]
  have hcomm : k.lines.committed = ({ k with e := k.e - 1 } : Cons).held.take k.readable := by
    simp only [lines]
    rw [hheld, List.take_append_of_le_length hlen]
  have hdrop : ({ k with e := k.e - 1 } : Cons).held.drop k.readable = k.lines.edit.dropLast := by
    rw [hedit, List.dropLast_concat]
  refine ⟨.of_counts (by omega) ?_ ?_, ?_, ?_⟩
  · have := h.used_le
    omega
  · intro hmem
    refine h.edit ?_
    rw [hedit]
    exact List.mem_append_left _ hmem
  · simp only [lines, hr]
    rw [hdrop, ← hcomm]
    rfl
  · rw [← hdrop]
    exact hedit

/-- `^U` clears the line. -/
theorem lines_killLine (n : Nat) (h : k.Ok) (hn : k.used - k.readable ≤ n) :
    (k.killLine n).Ok ∧ (k.killLine n).lines = ⟨k.lines.committed, []⟩ := by
  induction n generalizing k with
  | zero =>
    have hle := h.readable_le
    have he : k.e = k.w := e_eq_w_iff.mpr (by omega)
    exact ⟨h, lines_of_eq he⟩
  | succ n ih =>
    rw [killLine]
    by_cases he : k.e = k.w
    · rw [if_neg (fun hc => hc.1 he)]
      exact ⟨h, lines_of_eq he⟩
    · obtain ⟨hok, hlines, hedit⟩ := lines_pred h he
      have hlast : k.get (k.e - 1) ≠ newline := by
        intro hc
        refine h.edit ?_
        rw [hedit, hc]
        exact List.mem_append_right _ (List.mem_singleton_self _)
      have hu : k.used ≠ 0 := by
        intro h0
        have := h.readable_le
        exact he (e_eq_w_iff.mpr (by omega))
      have hused := used_pred hu
      have hr : ({ k with e := k.e - 1 } : Cons).readable = k.readable := rfl
      rw [if_pos ⟨he, hlast⟩]
      obtain ⟨hok', hlines'⟩ := ih hok (by omega)
      refine ⟨hok', ?_⟩
      rw [hlines', hlines]

theorem lines_store (c : UInt8) (h : k.Ok) (hroom : k.used < INPUT_BUF_SIZE) :
    (k.store c).1.Ok ∧ (k.store c).1.lines = k.lines.append c := by
  have hle := h.readable_le
  have hu := used_push c hroom
  have hheld := held_push c hroom
  have hr : (k.push c).readable = k.readable := rfl
  have hlen : k.readable ≤ k.held.length := by rwa [length_held]
  have hready : (k.push c).ready c = true ↔
      (c = newline ∨ c = ctrlD ∨ k.lines.length + 1 = INPUT_BUF_SIZE) := by
    rw [ready, decide_eq_true_iff, toNat_sub, h.length_lines, ← hu]
    rfl
  unfold store Lines.append
  by_cases hc : (k.push c).ready c = true
  · simp only [if_pos hc, if_pos (hready.mp hc)]
    have hcr : (k.push c).commit.readable = (k.push c).used := rfl
    have hcu : (k.push c).commit.used = (k.push c).used := rfl
    have hall : (k.push c).commit.lines = ⟨k.held ++ [c], []⟩ := by
      have hch : (k.push c).commit.held = k.held ++ [c] := hheld
      simp only [lines, hch, hcr]
      rw [List.take_of_length_le, List.drop_of_length_le]
      · rw [← hheld, length_held]
      · rw [← hheld, length_held]
    refine ⟨.of_counts (by rw [hcr, hcu]) (by rw [hcu, hu]; exact hroom) ?_, ?_⟩
    · rw [hall]
      exact List.not_mem_nil
    · rw [hall]
      simp only [lines, List.take_append_drop]
  · have hplain := fun hn => hc (hready.mpr hn)
    simp only [if_neg hc, if_neg hplain]
    have hlines : (k.push c).lines = ⟨k.lines.committed, k.lines.edit ++ [c]⟩ := by
      simp only [lines, hr]
      rw [hheld, List.take_append_of_le_length hlen, List.drop_append_of_le_length hlen]
    refine ⟨.of_counts (by rw [hr, hu]; omega) (by rw [hu]; exact hroom) ?_, hlines⟩
    rw [hlines]
    intro hmem
    rcases List.mem_append.mp hmem with hmem | hmem
    · exact h.edit hmem
    · exact hplain (.inl (List.mem_singleton.mp hmem).symm)

/-- The handler does to the ring what `input` does to the two lists. -/
theorem lines_consoleintr (c : UInt8) (h : k.Ok) :
    (k.consoleintr c).1.Ok ∧ (k.consoleintr c).1.lines = k.lines.input c := by
  have hle := h.used_le
  unfold consoleintr Lines.input
  by_cases hp : c = ctrlP
  · rw [if_pos hp, if_pos hp]
    exact ⟨h, rfl⟩
  by_cases hu : c = ctrlU
  · simp only [if_neg hp, if_pos hu]
    exact lines_killLine _ h (by omega)
  by_cases hb : c = ctrlH ∨ c = delete
  · simp only [if_neg hp, if_neg hu, if_pos hb]
    by_cases he : k.e = k.w
    · simp only [ne_eq, he, not_true, if_false]
      have hnil := lines_of_eq he
      refine ⟨h, ?_⟩
      rw [hnil]
      rfl
    · simp only [ne_eq, he, not_false_eq_true, if_true]
      obtain ⟨hok, hlines, -⟩ := lines_pred h he
      exact ⟨hok, hlines⟩
  have hroom : (c ≠ 0 ∧ (k.e - k.r).toNat < INPUT_BUF_SIZE) ↔
      (c ≠ 0 ∧ k.lines.length < INPUT_BUF_SIZE) := by
    rw [toNat_sub, h.length_lines]
    rfl
  simp only [if_neg hp, if_neg hu, if_neg hb]
  by_cases hc : c ≠ 0 ∧ k.lines.length < INPUT_BUF_SIZE
  · rw [if_pos (hroom.mpr hc), if_pos hc]
    exact lines_store _ h (h.length_lines ▸ hc.2)
  · rw [if_neg (fun hn => hc (hroom.mp hn)), if_neg hc]
    exact ⟨h, rfl⟩

/-- A reader takes the first committed byte. -/
theorem lines_take (h : k.Ok) (hne : k.r ≠ k.w) :
    ({ k with r := k.r + 1 } : Cons).Ok ∧
      k.lines = ⟨k.get k.r :: ({ k with r := k.r + 1 } : Cons).lines.committed,
        ({ k with r := k.r + 1 } : Cons).lines.edit⟩ := by
  have h0 : k.readable ≠ 0 := fun hz => hne (r_eq_w_iff.mpr hz)
  have hle := h.readable_le
  have hr := readable_succ h0
  have hu := used_succ (k := k) (by omega)
  have hheld := held_succ (k := k) (by omega)
  have hlines : k.lines = ⟨k.get k.r :: ({ k with r := k.r + 1 } : Cons).lines.committed,
      ({ k with r := k.r + 1 } : Cons).lines.edit⟩ := by
    simp only [lines]
    rw [hheld, ← hr, List.take_succ_cons, List.drop_succ_cons]
  refine ⟨.of_counts (by omega) ?_ ?_, hlines⟩
  · have := h.used_le
    omega
  · have := h.edit
    rwa [hlines] at this

end Cons

/-! ## Runs -/

variable {s s' : Sys} {p : Pid} {n : Int} {got : List UInt8}

theorem reader_wake (c : Ctl) : c.wake.reader = c.reader := by cases c <;> rfl

theorem view_update (k : Cons) (lock : Option Pid) (ctl : Pid → Ctl) (c : Ctl) :
    Sys.view ⟨k, lock, update ctl p c⟩ =
      ⟨k.lines, update (fun q => (ctl q).reader) p c.reader⟩ := by
  unfold Sys.view
  congr 1
  exact Function.comp_update Ctl.reader ctl p c

/-- A process goes on without a change for its reader. -/
theorem view_stay {c : Ctl} (lock : Option Pid) (hc : c.reader = (s.ctl p).reader) :
    Sys.view ⟨s.cons, lock, update s.ctl p c⟩ = s.view := by
  rw [view_update, hc]
  exact congrArg (Tty.mk _) (update_eq_self p _)

theorem view_finish : (s.finish p got).view =
    ⟨s.cons.lines, update s.view.reader p (.returned got)⟩ :=
  view_update s.cons none s.ctl (.returned got.length got)

theorem view_goto (c : Ctl) : (s.goto p c).view =
    ⟨s.cons.lines, update s.view.reader p c.reader⟩ :=
  view_update s.cons s.lock s.ctl c

/-- The byte that a turn takes is the first committed one. -/
theorem take_refines (hok : s.cons.Ok) (hn : n - got.length > 0) (he : s.cons.r ≠ s.cons.w) :
    (s.turn p n got).cons.Ok ∧ ∃ b rest, s.view.lines.committed = b :: rest ∧
      s.view.take p n got b rest = (s.turn p n got).view := by
  obtain ⟨hok', hlines⟩ := Cons.lines_take hok he
  generalize hk : ({ s.cons with r := s.cons.r + 1 } : Cons) = k at hok' hlines
  generalize hb : s.cons.get s.cons.r = b at hlines
  have hlate : n - got.length < n ↔ got ≠ [] := by
    rw [ne_eq, ← List.length_eq_zero_iff]
    omega
  have hview : s.view.lines = ⟨b :: k.lines.committed, k.lines.edit⟩ := hlines
  suffices hall : (s.turn p n got).cons.Ok ∧
      s.view.take p n got b k.lines.committed = (s.turn p n got).view from
    ⟨hall.1, b, _, congrArg Lines.committed hview, hall.2⟩
  unfold Sys.turn Tty.take Tty.set
  simp only [if_pos hn, if_neg he, hb, hk, hlate, UInt32.add_sub_cancel]
  by_cases hd : b = ctrlD
  · simp only [if_pos hd]
    by_cases hg : got = []
    · simp only [hg, ne_eq, not_true, if_false, if_true]
      refine ⟨hok', ?_⟩
      rw [view_finish, hview]
      rfl
    · simp only [if_pos hg, if_neg hg]
      refine ⟨hok, ?_⟩
      rw [view_finish, hview]
      exact congrArg (Tty.mk · _) hlines.symm
  · simp only [if_neg hd]
    by_cases hl : b = newline
    · simp only [if_pos hl]
      refine ⟨hok', ?_⟩
      rw [view_finish, hview]
      rfl
    · simp only [if_neg hl]
      refine ⟨hok', ?_⟩
      rw [view_goto, hview]
      rfl

/-- One turn of the loop is a step of the two lists, or changes nothing there. -/
theorem turn_refines (hok : s.cons.Ok) (hp : s.ctl p = .loop n got) :
    (s.turn p n got).cons.Ok ∧
      Lib.run Tty.step s.view (event s (.turn p)).toList = some (s.turn p n got).view := by
  have hreader : s.view.reader p = .reading n got := by
    change (s.ctl p).reader = _
    rw [hp]
    rfl
  unfold event
  simp only [hp]
  by_cases hn : n - got.length > 0
  · have hlt : (got.length : Int) < n := by omega
    simp only [if_pos hn]
    by_cases he : s.cons.r = s.cons.w
    · simp only [if_pos he, Sys.turn, if_pos hn]
      refine ⟨hok, congrArg some (view_stay none ?_).symm⟩
      rw [hp]
      rfl
    · obtain ⟨hok', b, rest, hcomm, htake⟩ := take_refines (p := p) hok hn he
      have hstep : s.view.step (.take p) = some (s.view.take p n got b rest) := by
        simp only [Tty.step, hreader, hcomm, if_pos hlt]
      simp only [if_neg he]
      refine ⟨hok', Lib.run_cons_some.mpr ⟨_, hstep, congrArg some htake⟩⟩
  · have hlt : ¬((got.length : Int) < n) := by omega
    have hstep : s.view.step (.finish p) =
        some (s.view.set p s.view.lines.committed (.returned got)) := by
      simp only [Tty.step, hreader, if_neg hlt]
    simp only [if_neg hn, Sys.turn]
    refine ⟨hok, Lib.run_cons_some.mpr ⟨_, hstep, congrArg some ?_⟩⟩
    rw [view_finish]
    rfl

theorem step_refines {a : Act} (hok : s.cons.Ok) (h : step s a = some s') :
    s'.cons.Ok ∧ Lib.run Tty.step s.view (event s a).toList = some s'.view := by
  cases a with
  | intr c =>
    simp only [step] at h
    split at h
    · cases h
      obtain ⟨hok', hlines⟩ := Cons.lines_consoleintr c hok
      refine ⟨hok', ?_⟩
      refine Lib.run_cons_some.mpr ⟨_, rfl, congrArg some ?_⟩
      unfold Sys.view
      simp only [hlines]
      congr 1
      funext q
      split
      · exact (reader_wake _).symm
      · rfl
    · exact nomatch h
  | call p n =>
    simp only [step] at h
    have hidle : ∀ {x : Reader}, s.view.reader p = x → (x = .idle ∨ ∃ g, x = .returned g) →
        s' = s.goto p (.enter n) →
        s'.cons.Ok ∧ Lib.run Tty.step s.view (event s (.call p n)).toList = some s'.view := by
      intro x hx hcase hs'
      subst hs'
      refine ⟨hok, Lib.run_cons_some.mpr ⟨s.view.set p s.view.lines.committed (.reading n []), ?_, ?_⟩⟩
      · rcases hcase with rfl | ⟨g, rfl⟩ <;> simp only [Tty.step, hx]
      · rw [view_goto]
        rfl
    split at h
    · rename_i hc
      cases h
      exact hidle (x := .idle) (congrArg Ctl.reader hc) (.inl rfl) rfl
    · rename_i r g hc
      cases h
      exact hidle (x := .returned g) (congrArg Ctl.reader hc) (.inr ⟨g, rfl⟩) rfl
    · exact nomatch h
  | acquire p =>
    simp only [step] at h
    split at h
    · split at h
      · rename_i n hc
        cases h
        exact ⟨hok, congrArg some (view_stay (some p) (by rw [hc]; rfl)).symm⟩
      · rename_i n got hc
        cases h
        exact ⟨hok, congrArg some (view_stay (some p) (by rw [hc]; rfl)).symm⟩
      · exact nomatch h
    · exact nomatch h
  | turn p =>
    simp only [step] at h
    split at h
    · rename_i n got hc
      cases h
      exact turn_refines hok hc
    · exact nomatch h

/-- What `consoleread` returns is the number of bytes it has taken. -/
def Counted (s : Sys) : Prop := ∀ p ret got, s.ctl p = .returned ret got → ret = got.length

theorem returned_of_wake {c : Ctl} {ret : Int} (h : c.wake = .returned ret got) :
    c = .returned ret got := by
  cases c <;> first | exact h | exact nomatch h

theorem counted_update {k : Cons} {lock : Option Pid} {c : Ctl} (hs : Counted s)
    (hc : ∀ ret got, c = .returned ret got → ret = got.length) :
    Counted ⟨k, lock, update s.ctl p c⟩ := by
  intro q ret got hq
  by_cases h : q = p
  · subst h
    exact hc ret got ((update_self ..).symm.trans hq)
  · exact hs q ret got ((update_of_ne h ..).symm.trans hq)

theorem counted_finish (hs : Counted s) (k : Cons) :
    Counted (Sys.finish ⟨k, s.lock, s.ctl⟩ p got) := by
  refine counted_update hs ?_
  rintro ret got' ⟨⟩
  rfl

theorem counted_step {a : Act} (hs : Counted s) (h : step s a = some s') : Counted s' := by
  cases a with
  | intr c =>
    simp only [step] at h
    split at h
    · cases h
      intro q ret got hq
      refine hs q ret got ?_
      simp only at hq
      split at hq
      · exact returned_of_wake hq
      · exact hq
    · exact nomatch h
  | call p n =>
    simp only [step] at h
    split at h
    · cases h
      exact counted_update hs nofun
    · cases h
      exact counted_update hs nofun
    · exact nomatch h
  | acquire p =>
    simp only [step] at h
    split at h
    · split at h
      · cases h
        exact counted_update hs nofun
      · cases h
        exact counted_update hs nofun
      · exact nomatch h
    · exact nomatch h
  | turn p =>
    simp only [step] at h
    split at h
    · cases h
      unfold Sys.turn
      split
      · split
        · exact counted_update hs nofun
        · simp only
          split
          · split <;> exact counted_finish hs _
          · split
            · exact counted_finish hs _
            · exact counted_update hs nofun
      · exact counted_finish hs _
    · exact nomatch h

theorem run_refines {acts : List Act} (hok : s.cons.Ok) (h : Lib.run step s acts = some s') :
    s'.cons.Ok ∧ Lib.run Tty.step s.view (events s acts) = some s'.view := by
  induction acts generalizing s with
  | nil =>
    cases h
    exact ⟨hok, rfl⟩
  | cons a acts ih =>
    obtain ⟨t, ht, hrun⟩ := Lib.run_cons_some.mp h
    obtain ⟨hok', hstep⟩ := step_refines hok ht
    obtain ⟨hok'', hrest⟩ := ih hok' hrun
    refine ⟨hok'', ?_⟩
    simp only [events, ht]
    rw [Lib.run_append, hstep]
    exact hrest

end

theorem ok_init : init.cons.Ok := by
  have hlines : init.cons.lines = ⟨init.cons.lines.committed, []⟩ := Cons.lines_of_eq rfl
  refine ⟨by decide, by decide, ?_⟩
  rw [hlines]
  exact List.not_mem_nil

theorem counted_init : Counted init := nofun

/-- The ring with its three indices is the two lists, in every run of the handler and the
readers; every read returns the bytes it has taken; and the indices keep their order. -/
theorem console_refines_lines (acts : List Act) (s : Sys) (hrun : Lib.run step init acts = some s) :
    Lib.run Tty.step Tty.init (events init acts) = some s.view ∧
      (∀ p ret got, s.ctl p = .returned ret got → ret = got.length) ∧
      (s.cons.w - s.cons.r).toNat ≤ (s.cons.e - s.cons.r).toNat ∧
      (s.cons.e - s.cons.r).toNat ≤ INPUT_BUF_SIZE := by
  obtain ⟨hok, hview⟩ := run_refines ok_init hrun
  have hcount := Lib.run_invariant (fun _ _ _ => counted_step) counted_init hrun
  refine ⟨?_, hcount, hok.ordered, hok.fits⟩
  have hinit : init.view = Tty.init := by
    unfold Sys.view Tty.init
    rw [Cons.lines_of_eq (k := init.cons) rfl]
    rfl
  rwa [hinit] at hview

/-- The line `a`, typed with a mistake, and a reader that gets it. -/
def oneLine : List Act :=
  [.call 0 10, .acquire 0, .turn 0, .intr 0x61, .intr 0x62, .intr ctrlH, .intr carriageReturn,
    .acquire 0, .turn 0, .turn 0]

theorem console_refines_lines_oneLine :
    ∃ s, Lib.run step init oneLine = some s ∧ s.ctl 0 = .returned 2 [0x61, newline] ∧
      Lib.run Tty.step Tty.init (events init oneLine) = some s.view :=
  ⟨_, rfl, by decide, (console_refines_lines oneLine _ rfl).1⟩

/-- Editing in which every character without another meaning is appended, `^P` too. -/
def Lines.inputAny (l : Lines) (c : UInt8) : Lines :=
  if c = ctrlU then ⟨l.committed, []⟩
  else if c = ctrlH ∨ c = delete then ⟨l.committed, l.edit.dropLast⟩
  else if c ≠ 0 ∧ l.length < INPUT_BUF_SIZE then
    l.append (if c = carriageReturn then newline else c)
  else l

/-- `^P` prints the process list and is not input. -/
theorem ctrlP_not_appended :
    ∃ s, Lib.run step init [.intr ctrlP] = some s ∧ s.view.lines.edit = [] ∧
      (init.view.lines.inputAny ctrlP).edit = [ctrlP] :=
  ⟨_, rfl, by decide, by decide⟩

end Xv6.Console
