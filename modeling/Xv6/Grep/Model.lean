import Mathlib.Data.List.Basic

/-!
# `user/grep.c`

A `char *` is the list of the bytes from there to the end of the array it points into. Reading
past the end gives a NUL, so a string may also be given without its terminator.
-/
namespace Xv6.Grep

set_option autoImplicit false

abbrev Str := List UInt8

/-- `s[i]`. -/
def byte (s : Str) (i : Nat) : UInt8 := s.getD i 0

@[simp] theorem byte_nil (i : Nat) : byte [] i = 0 := rfl

@[simp] theorem byte_cons_zero (c : UInt8) (s : Str) : byte (c :: s) 0 = c := rfl

@[simp] theorem byte_cons_succ (c : UInt8) (s : Str) (i : Nat) :
    byte (c :: s) (i + 1) = byte s i := rfl

def star : UInt8 := 0x2a
def dollar : UInt8 := 0x24
def dot : UInt8 := 0x2e
def caret : UInt8 := 0x5e
def newline : UInt8 := 0x0a

theorem length_drop_lt {s : Str} {k : Nat} (h : byte s 0 ≠ 0) (hk : 0 < k) :
    (s.drop k).length < s.length := by
  cases s with
  | nil => exact absurd rfl h
  | cons b s =>
    rw [List.length_drop, List.length_cons]
    omega

mutual

/-- `matchhere`: search for `re` at the beginning of `text`. -/
def matchhere (re text : Str) : Bool :=
  if byte re 0 = 0 then true
  else if byte re 1 = star then matchstar (byte re 0) (re.drop 2) text
  else if byte re 0 = dollar ∧ byte re 1 = 0 then byte text 0 = 0
  else if byte text 0 ≠ 0 ∧ (byte re 0 = dot ∨ byte re 0 = byte text 0) then
    matchhere (re.drop 1) (text.drop 1)
  else false
termination_by (re.length, text.length, 0)
decreasing_by
  all_goals
    apply Prod.Lex.left
    apply length_drop_lt <;> first | assumption | decide

/-- `matchstar`: search for `c*re` at the beginning of `text`. -/
def matchstar (c : UInt8) (re text : Str) : Bool :=
  if matchhere re text then true
  else if byte text 0 ≠ 0 ∧ (byte text 0 = c ∨ c = dot) then matchstar c re (text.drop 1)
  else false
termination_by (re.length, text.length, 1)
decreasing_by
  · exact .right _ (.right _ (by decide))
  · rename_i h
    exact .right _ (.left _ _ (length_drop_lt h.1 (by decide)))

end

/-- The loop of `match`. -/
def matchany (re text : Str) : Bool :=
  if matchhere re text then true
  else if byte text 0 ≠ 0 then matchany re (text.drop 1)
  else false
termination_by text.length
decreasing_by
  rename_i h
  exact length_drop_lt h (by decide)

/-- `match`. -/
def isMatch (re text : Str) : Bool :=
  if byte re 0 = caret then matchhere (re.drop 1) text else matchany re text

/-- `strchr(s, c)`, as the distance from `s`. -/
def strchr (c : UInt8) : Str → Option Nat
  | [] => none
  | b :: s => if b = 0 then none else if b = c then some 0 else (strchr c s).map (· + 1)

theorem strchr_lt {c : UInt8} {s : Str} {d : Nat} (h : strchr c s = some d) : d < s.length := by
  induction s generalizing d with
  | nil => cases h
  | cons b s ih =>
    rw [strchr] at h
    split at h
    · cases h
    · split at h
      · cases h
        exact Nat.succ_pos _
      · obtain ⟨e, he, rfl⟩ := Option.map_eq_some_iff.mp h
        exact Nat.succ_lt_succ (ih he)

/-- `sizeof(buf)`. -/
def BUFSIZE : Nat := 1024

/-- The loop over the lines in `buf` from `p` on: `buf` and `p` after it, and what it writes. -/
def scan (pattern buf : Str) (p : Nat) : Str × Nat × Str :=
  match _hq : strchr newline (buf.drop p) with
  | none => (buf, p, [])
  | some d =>
    let q := p + d
    let cut := buf.set q 0
    if isMatch pattern (cut.drop p) then
      let buf := cut.set q newline
      let r := scan pattern buf (q + 1)
      (r.1, r.2.1, (buf.drop p).take (q + 1 - p) ++ r.2.2)
    else scan pattern cut (q + 1)
termination_by buf.length - p
decreasing_by
  all_goals
    have h := strchr_lt _hq
    simp only [List.length_drop, List.length_set] at h ⊢
    omega

/-- `read(fd, buf, n)` when `rest` is left of the input: as many bytes as the request, what is
left and the file's own choice `want` allow, and at least one if there can be one. -/
def read (want : Nat) (rest : Str) (n : Nat) : Str := rest.take (min n (max want 1))

/-- `grep(pattern, fd)`, from the head of its outer loop on, the `i`-th `read` from there being
limited by `want i`: what it leaves of the input and what it writes. -/
def grep (pattern : Str) (want : Nat → Nat) (rest buf : Str) (m : Nat) : Str × Str :=
  let got := read (want 0) rest (BUFSIZE - m - 1)
  if _hn : 0 < got.length then
    let n := m + got.length
    let filled := (buf.take m ++ got ++ buf.drop n).set n 0
    let r := scan pattern filled 0
    let p := r.2.1
    let k := if 0 < n then n - p else n
    let moved := if 0 < n then (r.1.drop p).take k ++ r.1.drop k else r.1
    let t := grep pattern (fun i => want (i + 1)) (rest.drop got.length) moved k
    (t.1, r.2.2 ++ t.2)
  else (rest, [])
termination_by rest.length
decreasing_by
  have h : got.length ≤ rest.length := List.length_take_le' _ _
  change (rest.drop got.length).length < rest.length
  rw [List.length_drop]
  omega

end Xv6.Grep
