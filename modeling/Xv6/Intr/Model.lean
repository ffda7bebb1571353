import Xv6.Sched.Model

/-!
# `push_off`, `pop_off` and the interrupt flag

The interrupt part of `kernel/spinlock.c` and of the switching code in `kernel/proc.c`, for any
processors, processes and locks. A thread has a list of things still to do; between the calls that
are modelled it may make any of them. An interrupt can come before each operation at which the
interrupt flag is on, and the handler then makes calls of its own on the stack of the thread.
-/
namespace Xv6.Intr

set_option autoImplicit false

open Xv6.Sched (ProcState)

/-- `p->lock`, or any other spin-lock. -/
inductive Lock (P L : Type) where
  | proc (p : P)
  | other (l : L)
  deriving DecidableEq

/-- The thread that runs `scheduler` on a processor, or the kernel thread of a process. -/
inductive Thread (C P : Type) where
  | sched (c : C)
  | proc (p : P)
  deriving DecidableEq

inductive Panic where
  | acquire
  | release
  | popOffInterruptible
  | popOff
  | noProc
  /-- A jump through a context that has not been set up. -/
  | noContext
  | schedLock
  | schedLocks
  | schedRunning
  | schedInterruptible
  deriving DecidableEq

def Panic.inSched : Panic → Bool
  | .schedLock | .schedLocks | .schedRunning | .schedInterruptible => true
  | _ => false

/-- What a thread can do without being interrupted. -/
inductive Op (P L : Type) where
  /-- `int old = intr_get()` in `push_off`. -/
  | get
  /-- The rest of `push_off`. -/
  | off (old : Bool)
  /-- The test of `acquire`. -/
  | holding (l : Lock P L)
  | spin (l : Lock P L)
  /-- `release` up to its call of `pop_off`. -/
  | free (l : Lock P L)
  | popOff
  /-- `p->state = st`, for the process of the thread. -/
  | state (st : ProcState)
  /-- `sched` from its tests up to `swtch`. -/
  | swtch
  /-- `mycpu()->intena = intena` after `swtch`. -/
  | restore
  /-- The return from an interrupt handler. -/
  | iret
  /-- The test of `scheduler` with the lock of `p` held, `p->state = RUNNING` and `c->proc = p`. -/
  | dispatch (p : P)
  /-- `swtch(&c->context, &p->context)`, where `p` is still `c->proc`. -/
  | enter
  /-- `c->proc = 0`. -/
  | idle
  deriving DecidableEq

structure Cpu (C P : Type) where
  noff : Nat
  intena : Bool
  /-- Interrupts are enabled. -/
  sie : Bool
  proc : Option P
  /-- The thread that the processor runs. -/
  cur : Thread C P

structure Sys (C P L : Type) where
  cpu : C → Cpu C P
  /-- The processor in `lk->cpu`, if the lock is held. -/
  lock : Lock P L → Option C
  state : P → ProcState
  todo : Thread C P → List (Op P L)
  /-- The variable `intena` of a call of `sched`. -/
  saved : P → Option Bool
  /-- `p->context`: where the thread goes on, if `swtch` or `allocproc` has set it. -/
  context : P → Option (List (Op P L))
  panicked : Option Panic

section

variable {P L : Type}

def pushOff : List (Op P L) := [.get]
def acquire (l : Lock P L) : List (Op P L) := pushOff ++ [.holding l, .spin l]
def release (l : Lock P L) : List (Op P L) := [.free l, .popOff]
def myproc : List (Op P L) := pushOff ++ [.popOff]
def sched : List (Op P L) := myproc ++ [.swtch, .restore]
def yield (p : P) : List (Op P L) :=
  myproc ++ acquire (.proc p) ++ [.state .RUNNABLE] ++ sched ++ release (.proc p)
def sleep (p : P) (lk : Lock P L) : List (Op P L) :=
  myproc ++ acquire (.proc p) ++ release lk ++ [.state .SLEEPING] ++ sched ++ release (.proc p) ++
    acquire lk
/-- The end of `exit`, with `wait_lock` held. -/
def exit (p : P) (wait : Lock P L) : List (Op P L) :=
  acquire (.proc p) ++ [.state .ZOMBIE] ++ release wait ++ sched
def forkret (p : P) : List (Op P L) := myproc ++ release (.proc p)
/-- A turn of the loop of `scheduler`. -/
def turn (p : P) : List (Op P L) := acquire (.proc p) ++ [.dispatch p]

end

variable {C P L : Type} [DecidableEq C] [DecidableEq P] [DecidableEq L]

namespace Sys

variable (s : Sys C P L)

def setCpu (c : C) (k : Cpu C P) : Sys C P L := { s with cpu := Function.update s.cpu c k }
def setLock (l : Lock P L) (o : Option C) : Sys C P L := { s with lock := Function.update s.lock l o }
def setState (p : P) (st : ProcState) : Sys C P L := { s with state := Function.update s.state p st }
def setTodo (t : Thread C P) (r : List (Op P L)) : Sys C P L :=
  { s with todo := Function.update s.todo t r }
def setSaved (p : P) (x : Option Bool) : Sys C P L := { s with saved := Function.update s.saved p x }
def setContext (p : P) (r : List (Op P L)) : Sys C P L :=
  { s with context := Function.update s.context p (some r) }
def panic (m : Panic) : Sys C P L := { s with panicked := some m }

end Sys

/-- Thread `t` of processor `c` performs an operation and has `r` still to do. -/
def exec (s : Sys C P L) (c : C) (t : Thread C P) (r : List (Op P L)) : Op P L → Sys C P L
  | .get => s.setTodo t (.off (s.cpu c).sie :: r)
  | .off old =>
    (s.setCpu c { s.cpu c with
      sie := false
      intena := if (s.cpu c).noff = 0 then old else (s.cpu c).intena
      noff := (s.cpu c).noff + 1 }).setTodo t r
  | .holding l => if s.lock l = some c then s.panic .acquire else s.setTodo t r
  | .spin l => if s.lock l = none then (s.setLock l (some c)).setTodo t r else s
  | .free l => if s.lock l = some c then (s.setLock l none).setTodo t r else s.panic .release
  | .popOff =>
    if (s.cpu c).sie then s.panic .popOffInterruptible
    else if (s.cpu c).noff < 1 then s.panic .popOff
    else
      (s.setCpu c { s.cpu c with
        noff := (s.cpu c).noff - 1
        sie := decide ((s.cpu c).noff - 1 = 0) && (s.cpu c).intena }).setTodo t r
  | .state st =>
    match (s.cpu c).proc with
    | some p => (s.setState p st).setTodo t r
    | none => s.panic .noProc
  | .swtch =>
    match (s.cpu c).proc with
    | none => s.panic .noProc
    | some p =>
      if s.lock (.proc p) ≠ some c then s.panic .schedLock
      else if (s.cpu c).noff ≠ 1 then s.panic .schedLocks
      else if s.state p = .RUNNING then s.panic .schedRunning
      else if (s.cpu c).sie then s.panic .schedInterruptible
      else
        (((s.setSaved p (some (s.cpu c).intena)).setContext p r).setCpu c
          { s.cpu c with cur := .sched c }).setTodo t r
  | .restore =>
    match (s.cpu c).proc with
    | none => s.panic .noProc
    | some p =>
      ((s.setCpu c { s.cpu c with intena := (s.saved p).getD (s.cpu c).intena }).setSaved p
        none).setTodo t r
  | .iret => (s.setCpu c { s.cpu c with sie := true }).setTodo t r
  | .dispatch p =>
    if s.state p = .RUNNABLE then
      ((s.setState p .RUNNING).setCpu c { s.cpu c with proc := some p }).setTodo t
        (.enter :: .idle :: release (.proc p) ++ r)
    else s.setTodo t (release (.proc p) ++ r)
  | .enter =>
    match (s.cpu c).proc with
    | none => s.panic .noProc
    | some p =>
      match s.context p with
      | none => s.panic .noContext
      | some k => ((s.setCpu c { s.cpu c with cur := .proc p }).setTodo (.proc p) k).setTodo t r
  | .idle => (s.setCpu c { s.cpu c with proc := none }).setTodo t r

/-- What a thread can call between the operations it has to do. The calls of the second group are
made with the lock of the process held: `wakeup` and `kill` make it runnable, so does `fork` when it
is set up, and `wait` frees it. -/
inductive Call (P L : Type) where
  | pushOff
  | popOff
  | acquire (l : Lock P L)
  | release (l : Lock P L)
  | intr (on : Bool)
  | yield
  | sleep (lk : Lock P L)
  | exit (wait : Lock P L)
  | turn (p : P)
  | wakeup (p : P)
  | fork (p : P)
  | freeproc (p : P)
  | allocproc (p : P)

/-- A thread makes calls when it has nothing else to do, or in an interrupt handler. -/
def idling : List (Op P L) → Bool
  | [] | .iret :: _ => true
  | _ => false

/-- A call by thread `t` of processor `c`, if it may make it. The interrupt flag is set with `noff` 0;
`yield` is called with no lock held, `sleep` and `exit` with one. -/
def call (s : Sys C P L) (c : C) (t : Thread C P) : Call P L → Option (Sys C P L)
  | .pushOff => some (s.setTodo t (pushOff ++ s.todo t))
  | .popOff => some (s.setTodo t (.popOff :: s.todo t))
  | .acquire l => some (s.setTodo t (acquire l ++ s.todo t))
  | .release l => some (s.setTodo t (release l ++ s.todo t))
  | .intr on =>
    if s.todo t = [] ∧ (s.cpu c).noff = 0 then some (s.setCpu c { s.cpu c with sie := on }) else none
  | .yield =>
    match t with
    | .sched _ => none
    | .proc p =>
      if (s.cpu c).noff = 0 ∧ s.lock (.proc p) ≠ some c then
        some (s.setTodo t (yield p ++ s.todo t))
      else none
  | .sleep lk =>
    match t with
    | .sched _ => none
    | .proc p =>
      if (s.cpu c).noff = 1 ∧ s.lock lk = some c ∧ s.lock (.proc p) ≠ some c then
        some (s.setTodo t (sleep p lk ++ s.todo t))
      else none
  | .exit wait =>
    match t with
    | .sched _ => none
    | .proc p =>
      if (s.cpu c).noff = 1 ∧ s.lock wait = some c ∧ s.lock (.proc p) ≠ some c then
        some (s.setTodo t (exit p wait ++ s.todo t))
      else none
  | .turn p =>
    match t with
    | .proc _ => none
    | .sched _ =>
      if s.todo t = [] ∧ (s.cpu c).noff = 0 then some (s.setTodo t (turn p)) else none
  | .wakeup p =>
    if s.lock (.proc p) = some c ∧ s.state p = .SLEEPING then some (s.setState p .RUNNABLE) else none
  | .fork p =>
    if s.lock (.proc p) = some c ∧ s.state p = .USED then some (s.setState p .RUNNABLE) else none
  | .freeproc p =>
    if s.lock (.proc p) = some c ∧ (s.state p = .ZOMBIE ∨ s.state p = .USED) then
      some (s.setState p .UNUSED)
    else none
  | .allocproc p =>
    if s.lock (.proc p) = some c ∧ s.state p = .UNUSED then
      some ((((s.setState p .USED).setSaved p none).setContext p (forkret p)).setTodo (.proc p)
        (forkret p))
    else none

/-- What processor `c` can do next. -/
inductive Act (C P L : Type) where
  | go (c : C)
  | call (c : C) (f : Call P L)
  | interrupt (c : C)

def step (s : Sys C P L) : Act C P L → Option (Sys C P L)
  | .go c =>
    match s.panicked, s.todo (s.cpu c).cur with
    | none, m :: r =>
      -- a handler returns when its calls of `push_off` are matched
      if m = .iret ∧ (s.cpu c).noff ≠ 0 then none else some (exec s c (s.cpu c).cur r m)
    | _, _ => none
  | .call c f =>
    if s.panicked = none ∧ idling (s.todo (s.cpu c).cur) = true then call s c (s.cpu c).cur f
    else none
  | .interrupt c =>
    if s.panicked = none ∧ (s.cpu c).sie = true then
      some ((s.setCpu c { s.cpu c with sie := false }).setTodo (s.cpu c).cur
        (.iret :: s.todo (s.cpu c).cur))
    else none

/-! ## What has happened so far -/

/-- The calls of `push_off` and `pop_off` on each processor, how many calls of `push_off` a process
has still to match, and the interrupt flag before the outermost of these. A new process starts with
the `push_off` of the `scheduler` that runs it, before which it had no flag. -/
structure Hist (C P : Type) where
  pushes : C → Nat
  pops : C → Nat
  depth : P → Nat
  before : P → Option Bool

namespace Hist

variable (h : Hist C P)

/-- Thread `t` of processor `c` calls `push_off`. -/
def push (c : C) (sie : Bool) (t : Thread C P) : Hist C P where
  pushes d := if d = c then h.pushes d + 1 else h.pushes d
  pops := h.pops
  depth p := if t = .proc p then h.depth p + 1 else h.depth p
  before p := if t = .proc p ∧ h.depth p = 0 then some sie else h.before p

def pop (c : C) (t : Thread C P) : Hist C P where
  pushes := h.pushes
  pops d := if d = c then h.pops d + 1 else h.pops d
  depth p := if t = .proc p then h.depth p - 1 else h.depth p
  before := h.before

def fresh (q : P) : Hist C P where
  pushes := h.pushes
  pops := h.pops
  depth p := if p = q then 1 else h.depth p
  before p := if p = q then none else h.before p

end Hist

/-- What an action adds to the history. -/
def note (s : Sys C P L) (h : Hist C P) : Act C P L → Hist C P
  | .go c =>
    match s.todo (s.cpu c).cur with
    | .off _ :: _ => h.push c (s.cpu c).sie (s.cpu c).cur
    | .popOff :: _ =>
      if (s.cpu c).sie = false ∧ 0 < (s.cpu c).noff then h.pop c (s.cpu c).cur else h
    | _ => h
  | .call _ (.allocproc p) => h.fresh p
  | _ => h

def track (x : Sys C P L × Hist C P) (a : Act C P L) : Option (Sys C P L × Hist C P) :=
  (step x.1 a).map fun s => (s, note x.1 x.2 a)

/-- Every processor is about to run `scheduler`, and there is no process. -/
def start (sie intena : C → Bool) : Sys C P L × Hist C P :=
  (⟨fun c => ⟨0, intena c, sie c, none, .sched c⟩, fun _ => none, fun _ => .UNUSED, fun _ => [],
      fun _ => none, fun _ => none, none⟩,
    ⟨fun _ => 0, fun _ => 0, fun _ => 0, fun _ => none⟩)

end Xv6.Intr
