import Xv6.Lib.Run
import Xv6.Lib.Sieve

/-!
# The processes of `user/primes.c`

Process 0 is `main`; each call of `primes` runs in a process of its own. A pipe is a queue of whole
records with room for `cap` of them. `read` gives end-of-file when the queue is empty and no process
has the write end open, and waits when one has; `write` waits for room.
-/
namespace Xv6.Primes

set_option autoImplicit false

/-- A descriptor: an end of a pipe. -/
inductive Fd where
  | rd (pipe : Nat)
  | wr (pipe : Nat)
  deriving DecidableEq

/-- Where a process is: before the call named, with the values of `prime`, `n` and `i`. -/
inductive Pc where
  -- `main`
  | mainPipe
  | mainFork
  | mainClose
  | mainWrite (i : Nat)
  | mainWait
  -- the child of `primes`, before it calls `primes` itself
  | childClose
  -- `primes`
  | closeWrite
  | readPrime
  | closeAtEnd
  | pipe (prime : Nat)
  | fork (prime : Nat)
  | print (prime : Nat)
  | read (prime : Nat)
  | write (prime n : Nat)
  | closeIn
  | closeOutRead
  | closeOutWrite
  | wait
  | exited
  deriving DecidableEq

/-- A process, with the pipes in its variables `pip` and `pip1`. -/
structure Proc where
  pc : Pc
  pip : Nat
  pip1 : Nat
  fds : List Fd
  parent : Option Nat
  deriving DecidableEq

structure Sys where
  proc : Nat → Proc
  /-- The processes are `0 .. last`. -/
  last : Nat
  pipes : Nat
  queue : Nat → List Nat
  out : List Nat

namespace Sys

variable (s : Sys)

def put (i : Nat) (p : Proc) : Sys := { s with proc := Function.update s.proc i p }

def go (i : Nat) (pc : Pc) : Sys := s.put i { s.proc i with pc := pc }

/-- `close(fd)`. -/
def close (i : Nat) (fd : Fd) (pc : Pc) : Sys :=
  s.put i { s.proc i with pc := pc, fds := (s.proc i).fds.erase fd }

def setQueue (k : Nat) (xs : List Nat) : Sys := { s with queue := Function.update s.queue k xs }

/-- A new pipe, whose ends the process gets. -/
def newPipe (i : Nat) (p : Proc) : Sys :=
  { (s.setQueue s.pipes []).put i { p with fds := (s.proc i).fds ++ [.rd s.pipes, .wr s.pipes] } with
    pipes := s.pipes + 1 }

/-- A child of process `i`, which goes on at `pc` with what its parent has. -/
def newProc (i : Nat) (child parent : Pc) : Sys :=
  { (s.go i parent).put (s.last + 1) { s.proc i with pc := child, parent := some i } with
    last := s.last + 1 }

/-- No process has the write end of pipe `k` open. -/
def closed (k : Nat) : Bool := (List.range (s.last + 1)).all fun j => (s.proc j).fds.all (· ≠ .wr k)

/-- `read(pip[0], ..)`: what it gives, or `none` if it waits. -/
def input (k : Nat) : Option (Option Nat × Sys) :=
  match s.queue k with
  | x :: xs => some (some x, s.setQueue k xs)
  | [] => if s.closed k then some (none, s) else none

/-- A child of process `i` has exited. -/
def reap (i : Nat) : Bool := (List.range (s.last + 1)).any fun j =>
  (s.proc j).parent = some i ∧ (s.proc j).pc = .exited

end Sys

variable (N cap : Nat)

/-- The next call of process `i`, if it does not wait. -/
def next (s : Sys) (i : Nat) (p : Proc) : Option Sys :=
  match p.pc with
  | .mainPipe => some (s.newPipe i { p with pc := .mainFork, pip := s.pipes })
  | .mainFork => some (s.newProc i .closeWrite .mainClose)
  | .mainClose => some (s.close i (.rd p.pip) (.mainWrite 2))
  | .mainWrite n =>
    if n ≤ N then
      if (s.queue p.pip).length < cap then
        some ((s.setQueue p.pip (s.queue p.pip ++ [n])).go i (.mainWrite (n + 1)))
      else none
    else some (s.close i (.wr p.pip) .mainWait)
  | .mainWait => if s.reap i then some (s.go i .exited) else none
  | .childClose =>
    -- `primes(pip1)` starts with variables of its own
    some (s.put i { p with pc := .closeWrite, fds := p.fds.erase (.rd p.pip), pip := p.pip1, pip1 := 0 })
  | .closeWrite => some (s.close i (.wr p.pip) .readPrime)
  | .readPrime =>
    match s.input p.pip with
    | some (some prime, s) => some (s.go i (.pipe prime))
    | some (none, s) => some (s.go i .closeAtEnd)
    | none => none
  | .closeAtEnd => some (s.close i (.rd p.pip) .exited)
  | .pipe prime => some (s.newPipe i { p with pc := .fork prime, pip1 := s.pipes })
  | .fork prime => some (s.newProc i .childClose (.print prime))
  | .print prime => some { s.go i (.read prime) with out := s.out ++ [prime] }
  | .read prime =>
    match s.input p.pip with
    | some (some n, s) => some (s.go i (if n % prime ≠ 0 then .write prime n else .read prime))
    | some (none, s) => some (s.go i .closeIn)
    | none => none
  | .write prime n =>
    if (s.queue p.pip1).length < cap then
      some ((s.setQueue p.pip1 (s.queue p.pip1 ++ [n])).go i (.read prime))
    else none
  | .closeIn => some (s.close i (.rd p.pip) .closeOutRead)
  | .closeOutRead => some (s.close i (.rd p.pip1) .closeOutWrite)
  | .closeOutWrite => some (s.close i (.wr p.pip1) .wait)
  | .wait => if s.reap i then some (s.go i .exited) else none
  | .exited => none

def step (s : Sys) (i : Nat) : Option Sys := if i ≤ s.last then next N cap s i (s.proc i) else none

/-- `main` alone, before its first call. -/
def start : Sys := ⟨fun _ => ⟨.mainPipe, 0, 0, [], none⟩, 0, 0, fun _ => [], []⟩

end Xv6.Primes
