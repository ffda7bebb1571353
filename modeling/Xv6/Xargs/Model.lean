import Mathlib.Data.List.Basic

/-!
# `main` of `user/xargs.c`

The program is run on the results of its reads. What it finds in memory that it has not stored
itself is given: the slots of `cmd` and the bytes of `rbuf` on its stack, and the bytes from each
address that `malloc` returns on, inside and behind the block. A store, a read or an index outside
an array ends the run with a fault.
-/
namespace Xv6.Xargs

open Function

set_option autoImplicit false

abbrev Str := List UInt8

def MAXARG : Nat := 32
def newline : UInt8 := 0x0a

/-- A string as C has it. -/
structure CStr where
  bytes : Str
  clean : 0 ∉ bytes

/-- A `char *` in `cmd`: an argument of `main`, what the `j`-th call of `malloc` returned, or whatever
the stack held. -/
inductive Ptr where
  | null
  | arg (i : Nat)
  | block (j : Nat)
  | wild (a : Nat)
  deriving DecidableEq

/-- What the program is started with. -/
structure Env where
  argv : List CStr
  cmd : Nat → Ptr
  rbuf : Nat → UInt8
  /-- the bytes from the address on that the `j`-th `malloc` returns -/
  heap : Nat → Nat → UInt8
  /-- the bytes at an address that the program does not know -/
  wild : Nat → Nat → UInt8

structure State where
  rbuf : Nat → UInt8
  /-- `p - rbuf` -/
  p : Nat
  n : Nat
  cmd : Nat → Ptr
  s : Int
  heap : Nat → Nat → UInt8
  /-- calls of `malloc` so far -/
  mallocs : Nat

inductive Fault where
  /-- `read` stores outside `rbuf` -/
  | store
  /-- `*(p-1)` is outside `rbuf` -/
  | byte
  /-- an index outside `cmd` -/
  | slot
  deriving DecidableEq

/-- These bytes, stored from `a` on. -/
def write (m : Nat → UInt8) (a : Nat) (t : Str) : Nat → UInt8 := fun i =>
  if a ≤ i ∧ i < a + t.length then t.getD (i - a) 0 else m i

/-- `memmove(q, rbuf, k)`, where `m` are the bytes at `q`. -/
def copy (rbuf : Nat → UInt8) (k : Nat) (m : Nat → UInt8) : Nat → UInt8 := fun i =>
  if i < k then rbuf i else m i

/-- The `for` loop, `k` times: `cmd[i-1] = argv[i]` for `i` from 1 on. -/
def setArgs (cmd : Nat → Ptr) : Nat → Except Fault (Nat → Ptr)
  | 0 => .ok cmd
  | k + 1 => do
    let cmd ← setArgs cmd k
    if k < MAXARG then .ok (update cmd k (.arg (k + 1))) else .error .slot

/-- The rest of the loop body, when the last byte read is a newline. -/
def State.line (st : State) : Except Fault State :=
  if 0 ≤ st.s ∧ st.s < MAXARG then
    let rbuf := update st.rbuf (st.p - 1) 0
    .ok {
      rbuf := fun i => if i < MAXARG then 0 else rbuf i
      p := 0
      n := 0
      cmd := update st.cmd st.s.toNat (.block st.mallocs)
      s := st.s + 1
      heap := update st.heap st.mallocs (copy rbuf (st.n - 1) (st.heap st.mallocs))
      mallocs := st.mallocs + 1 }
  else .error .slot

/-- One turn of the `while` loop, in which `read` delivers these bytes. The result says whether there
is another turn. -/
def turn (st : State) (piece : Str) : Except Fault (Bool × State) :=
  if st.p + piece.length ≤ MAXARG then
    let st := { st with rbuf := write st.rbuf st.p piece, n := st.n + piece.length }
    if st.n > 0 then
      let st := { st with p := st.n }
      if st.p - 1 < MAXARG then
        if st.rbuf (st.p - 1) ≠ newline then .ok (true, st)
        else st.line.map (true, ·)
      else .error .byte
    else .ok (false, st)
  else .error .store

/-- The `while` loop, as far as the results of these reads take it. -/
def loop (st : State) : List Str → Except Fault (Bool × State)
  | [] => .ok (true, st)
  | piece :: rest =>
    match turn st piece with
    | .ok (true, st) => loop st rest
    | r => r

/-- The first `k` results of `read`: the pieces of the input, then nothing for ever. -/
def results (pieces : List Str) (k : Nat) : List Str := (pieces ++ List.replicate k []).take k

/-- A way in which `read(0, p, MAXARG)` can split the input. -/
structure Splits (input : Str) (pieces : List Str) : Prop where
  flatten_eq : pieces.flatten = input
  ne_nil : ∀ p ∈ pieces, p ≠ []
  length_le : ∀ p ∈ pieces, p.length ≤ MAXARG

/-- `main` up to its `fork`, as far as the first `k` reads take it; `false` if the loop has ended. -/
def main (env : Env) (pieces : List Str) (k : Nat) : Except Fault (Bool × State) := do
  let cmd ← setArgs env.cmd (env.argv.length - 1)
  loop ⟨env.rbuf, 0, 0, cmd, env.argv.length - 1, env.heap, 0⟩ (results pieces k)

/-! ## What the command gets -/

/-- The bytes from here on are this string and its terminator. -/
def IsStr (m : Nat → UInt8) (t : Str) : Prop :=
  (∀ i < t.length, m i = t.getD i 0) ∧ 0 ∉ t ∧ m t.length = 0

/-- This pointer points to this string. -/
def PointsTo (env : Env) (st : State) (t : Str) : Ptr → Prop
  | .null => False
  | .arg i => env.argv[i]?.map CStr.bytes = some t
  | .block j => IsStr (st.heap j) t
  | .wild a => IsStr (env.wild a) t

/-- `exec(argv[1], cmd)` gets these strings and the null pointer behind them. -/
def Vector (env : Env) (st : State) (v : List Str) : Prop :=
  (∀ i < v.length, PointsTo env st (v.getD i []) (st.cmd i)) ∧ st.cmd v.length = .null

/-- The loop ends, and `exec` gets the arguments of `xargs` and then these lines. -/
def Executes (env : Env) (pieces : List Str) (lines : List Str) : Prop :=
  ∃ k st, main env pieces k = .ok (false, st) ∧
    Vector env st ((env.argv.map CStr.bytes).tail ++ lines)

end Xv6.Xargs
