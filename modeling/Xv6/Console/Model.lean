import Xv6.Lib.Run
import Xv6.Lib.Ring

/-!
# The console input of `kernel/console.c`

Any number of processes that call `consoleread`, and the interrupt handler `consoleintr`. A
step is one critical section of the handler, or one turn of the loop of `consoleread`, which
holds `cons.lock` from turn to turn until it sleeps or returns. All copies to the destination
succeed and nobody is killed; what is echoed is left out.
-/
namespace Xv6.Console

set_option autoImplicit false

def INPUT_BUF_SIZE : Nat := 128

instance : NeZero INPUT_BUF_SIZE := ⟨by decide⟩

/-- `C('P')`, `C('U')`, `C('H')`, `C('D')` and the delete key. -/
def ctrlP : UInt8 := 0x10
def ctrlU : UInt8 := 0x15
def ctrlH : UInt8 := 0x08
def ctrlD : UInt8 := 0x04
def delete : UInt8 := 0x7f

def newline : UInt8 := 0x0a
def carriageReturn : UInt8 := 0x0d

abbrev Pid := Nat

/-- `cons`, without its lock. -/
structure Cons where
  buf : Fin INPUT_BUF_SIZE → UInt8
  r : UInt32
  w : UInt32
  e : UInt32

namespace Cons

/-- `cons.buf[i % INPUT_BUF_SIZE]`. -/
def get (k : Cons) (i : UInt32) : UInt8 := k.buf (Fin.ofNat INPUT_BUF_SIZE i.toNat)

/-- The loop of `^U`, with at most `n` turns. -/
def killLine (k : Cons) : Nat → Cons
  | 0 => k
  | n + 1 =>
    if k.e ≠ k.w ∧ k.get (k.e - 1) ≠ newline then killLine { k with e := k.e - 1 } n else k

/-- `cons.buf[cons.e++ % INPUT_BUF_SIZE] = c`. -/
def push (k : Cons) (c : UInt8) : Cons :=
  { k with buf := Function.update k.buf (Fin.ofNat INPUT_BUF_SIZE k.e.toNat) c, e := k.e + 1 }

def commit (k : Cons) : Cons := { k with w := k.e }

/-- The end of `consoleintr`'s default case; whether it wakes the readers. -/
def ready (k : Cons) (c : UInt8) : Bool :=
  c = newline ∨ c = ctrlD ∨ (k.e - k.r).toNat = INPUT_BUF_SIZE

def store (k : Cons) (c : UInt8) : Cons × Bool :=
  let k := k.push c
  if k.ready c then (k.commit, true) else (k, false)

/-- `consoleintr`, and whether it calls `wakeup(&cons.r)`. There are never more than
`INPUT_BUF_SIZE` bytes to erase. -/
def consoleintr (k : Cons) (c : UInt8) : Cons × Bool :=
  if c = ctrlP then (k, false)
  else if c = ctrlU then (k.killLine INPUT_BUF_SIZE, false)
  else if c = ctrlH ∨ c = delete then
    if k.e ≠ k.w then ({ k with e := k.e - 1 }, false) else (k, false)
  else if c ≠ 0 ∧ (k.e - k.r).toNat < INPUT_BUF_SIZE then
    k.store (if c = carriageReturn then newline else c)
  else (k, false)

end Cons

/-- Where a process is in `consoleread`. `n` is the argument, `got` what has been copied out,
so that the source's `n` is the difference and `target` is the argument. -/
inductive Ctl where
  | idle
  | enter (n : Int)
  | loop (n : Int) (got : List UInt8)
  | asleep (n : Int) (got : List UInt8)
  | woken (n : Int) (got : List UInt8)
  | returned (ret : Int) (got : List UInt8)
  deriving DecidableEq

def Ctl.wake : Ctl → Ctl
  | asleep n got => woken n got
  | c => c

structure Sys where
  cons : Cons
  lock : Option Pid
  ctl : Pid → Ctl

def init : Sys := ⟨⟨fun _ => 0, 0, 0, 0⟩, none, fun _ => .idle⟩

inductive Act where
  | intr (c : UInt8)
  | call (p : Pid) (n : Int)
  | acquire (p : Pid)
  | turn (p : Pid)
  deriving DecidableEq

namespace Sys

def goto (s : Sys) (p : Pid) (c : Ctl) : Sys := { s with ctl := Function.update s.ctl p c }

def release (s : Sys) : Sys := { s with lock := none }

/-- `release(&cons.lock); return target - n;`. -/
def finish (s : Sys) (p : Pid) (got : List UInt8) : Sys :=
  (s.goto p (.returned got.length got)).release

/-- One turn of the loop of `consoleread`. -/
def turn (s : Sys) (p : Pid) (n : Int) (got : List UInt8) : Sys :=
  if n - got.length > 0 then
    if s.cons.r = s.cons.w then (s.goto p (.asleep n got)).release
    else
      let c := s.cons.get s.cons.r
      let s := { s with cons.r := s.cons.r + 1 }
      if c = ctrlD then
        if n - got.length < n then { s with cons.r := s.cons.r - 1 }.finish p got
        else s.finish p got
      else if c = newline then s.finish p (got ++ [c])
      else s.goto p (.loop n (got ++ [c]))
  else s.finish p got

end Sys

def step (s : Sys) : Act → Option Sys
  | .intr c =>
    if s.lock = none then
      let (k, wakes) := s.cons.consoleintr c
      some { s with cons := k, ctl := if wakes then fun p => (s.ctl p).wake else s.ctl }
    else none
  | .call p n =>
    match s.ctl p with
    | .idle | .returned _ _ => some (s.goto p (.enter n))
    | _ => none
  | .acquire p =>
    if s.lock = none then
      match s.ctl p with
      | .enter n => some { s.goto p (.loop n []) with lock := some p }
      | .woken n got => some { s.goto p (.loop n got) with lock := some p }
      | _ => none
    else none
  | .turn p =>
    match s.ctl p with
    | .loop n got => some (s.turn p n got)
    | _ => none

end Xv6.Console
