import Xv6.Lib.Run
import Xv6.Lib.Ring

/-!
# The pipe of `kernel/pipe.c`

One pipe and any number of processes that call `pipewrite`, `piperead` and
`pipeclose` on it or are killed. A step is one turn of a loop of the source or
one lock operation; `pi->lock` is explicit, so a state between two steps may
have the lock taken. `sleep` gives up the lock and the CPU in one step, and
`wakeup` is one step of its caller, which holds `pi->lock` throughout.

Which process moves, which bytes `copyin` finds and whether `copyin` and
`copyout` succeed is up to the label. `written` and `reported` record what went
in and what the calls of `piperead` have claimed to deliver; no branch reads
them.
-/
namespace Xv6.Pipes

open Function

set_option autoImplicit false

def PIPESIZE : Nat := 512

instance : NeZero PIPESIZE := ⟨by decide⟩

abbrev Pid := Nat

/-- `struct pipe`, without its lock. -/
structure Pipe where
  data : Fin PIPESIZE → UInt8
  nread : UInt32
  nwrite : UInt32
  readopen : Bool
  writeopen : Bool

namespace Pipe

def empty (pi : Pipe) : Bool := pi.nread == pi.nwrite

/-- The test of `pipewrite` for a full ring, in `uint` arithmetic. -/
def full (pi : Pipe) : Bool := pi.nwrite == pi.nread + UInt32.ofNat PIPESIZE

/-- `pi->data[pi->nwrite++ % PIPESIZE] = ch`. -/
def push (pi : Pipe) (ch : UInt8) : Pipe :=
  { pi with
    data := update pi.data (Fin.ofNat PIPESIZE pi.nwrite.toNat) ch
    nwrite := pi.nwrite + 1 }

/-- `pi->data[pi->nread % PIPESIZE]`. -/
def front (pi : Pipe) : UInt8 := pi.data (Fin.ofNat PIPESIZE pi.nread.toNat)

/-- `pi->nread++`. -/
def pop (pi : Pipe) : Pipe := { pi with nread := pi.nread + 1 }

/-- What the ring still holds, oldest byte first. -/
def held (pi : Pipe) : List UInt8 :=
  Lib.Ring.contents (2 ^ 32) pi.data pi.nread.toNat pi.nwrite.toNat

end Pipe

/-- The two channels a process can sleep on, `&pi->nread` and `&pi->nwrite`. -/
inductive Chan where
  | nread
  | nwrite
  deriving DecidableEq

/-- Where a process is in the code of `pipe.c`. The `i0` of `writeLoop` is the
value of `i` when the call last took `pi->lock`; `got` is what `piperead` has
copied to its caller so far, so that `i` is its length. -/
inductive Ctl where
  | idle
  | returned (ret : Int)
  | writeEnter (n : Int)
  | writeLoop (n : Int) (i i0 : Nat)
  | writeAsleep (n : Int) (i : Nat)
  | writeWoken (n : Int) (i : Nat)
  | readEnter (n : Int)
  | readWait (n : Int)
  | readAsleep (n : Int)
  | readWoken (n : Int)
  | readCopy (n : Int) (got : List UInt8)
  | closeEnter (writable : Bool)
  | closeHeld (writable : Bool)
  deriving DecidableEq

namespace Ctl

/-- The channel of a `SLEEPING` process. -/
def chan : Ctl → Option Chan
  | writeAsleep _ _ => some .nwrite
  | readAsleep _ => some .nread
  | _ => none

/-- The process is inside its critical section. -/
def holds : Ctl → Bool
  | writeLoop _ _ _ | readWait _ | readCopy _ _ | closeHeld _ => true
  | _ => false

/-- `SLEEPING` becomes `RUNNABLE`. -/
def wake : Ctl → Ctl
  | writeAsleep n i => writeWoken n i
  | readAsleep n => readWoken n
  | c => c

/-- Where a process that wants `pi->lock` goes on once it has it. -/
def locked : Ctl → Option Ctl
  | writeEnter n => some (writeLoop n 0 0)
  | writeWoken n i => some (writeLoop n i i)
  | readEnter n | readWoken n => some (readWait n)
  | closeEnter w => some (closeHeld w)
  | _ => none

end Ctl

structure Sys where
  pi : Pipe
  lock : Option Pid
  freed : Bool
  ctl : Pid → Ctl
  killed : Pid → Bool
  written : List UInt8
  reported : List UInt8

/-- The state `pipealloc` leaves, on a page with arbitrary contents. -/
def init (data : Fin PIPESIZE → UInt8) : Sys where
  pi := ⟨data, 0, 0, true, true⟩
  lock := none
  freed := false
  ctl := fun _ => .idle
  killed := fun _ => false
  written := []
  reported := []

inductive Call where
  | pipewrite (n : Int)
  | piperead (n : Int)
  | pipeclose (writable : Bool)

/-- `write` and `read` are the turns of the two loops that move a byte, with the
outcome of the copy; `writeTest`, `waitTest` and `readEnd` are the turns that do
not. -/
inductive Act where
  | call (p : Pid) (c : Call)
  | acquire (p : Pid)
  | write (p : Pid) (ch : Option UInt8)
  | writeTest (p : Pid)
  | waitTest (p : Pid)
  | read (p : Pid) (copied : Bool)
  | readEnd (p : Pid)
  | close (p : Pid)
  | kill (p : Pid)

/-- `wakeup(chan)`: every process asleep on `chan` becomes runnable. -/
def wakeup (ch : Chan) (ctl : Pid → Ctl) : Pid → Ctl :=
  fun p => if (ctl p).chan = some ch then (ctl p).wake else ctl p

namespace Sys

def goto (s : Sys) (p : Pid) (c : Ctl) : Sys := { s with ctl := update s.ctl p c }

def wakeup (s : Sys) (ch : Chan) : Sys := { s with ctl := Pipes.wakeup ch s.ctl }

def hold (s : Sys) (p : Pid) : Sys := { s with lock := some p }

def release (s : Sys) : Sys := { s with lock := none }

def push (s : Sys) (ch : UInt8) : Sys :=
  { s with pi := s.pi.push ch, written := s.written ++ [ch] }

def pop (s : Sys) : Sys := { s with pi := s.pi.pop }

end Sys

def enter : Call → Ctl
  | .pipewrite n => .writeEnter n
  | .piperead n => .readEnter n
  | .pipeclose w => .closeEnter w

/-- The common end of `pipewrite`: wake the readers, unlock, return `i`. -/
def writeDone (s : Sys) (p : Pid) (i : Nat) : Sys :=
  ((s.wakeup .nread).goto p (.returned i)).release

/-- The common end of `piperead`: wake the writers, unlock, return `i`. -/
def readDone (s : Sys) (p : Pid) (got : List UInt8) : Sys :=
  { ((s.wakeup .nwrite).goto p (.returned got.length)).release with
    reported := s.reported ++ got }

/-- The body of `pipeclose` and its unlock; the page goes back to the allocator
once both sides are closed. -/
def closeBody (s : Sys) (p : Pid) (writable : Bool) : Sys :=
  let s := if writable then { s with pi.writeopen := false }.wakeup .nread
    else { s with pi.readopen := false }.wakeup .nwrite
  { (s.goto p (.returned 0)).release with freed := !s.pi.readopen && !s.pi.writeopen }

/-- `kill(p)`: set the flag, and make a sleeping victim runnable. -/
def killBody (s : Sys) (p : Pid) : Sys :=
  { s.goto p (s.ctl p).wake with killed := update s.killed p true }

def step (s : Sys) : Act → Option Sys
  | .call p c =>
    match s.ctl p with
    | .idle | .returned _ => some (s.goto p (enter c))
    | _ => none
  | .acquire p =>
    -- a freed pipe has no open end left through which it could be reached
    if s.lock = none ∧ s.freed = false then
      (s.ctl p).locked.map fun c => (s.goto p c).hold p
    else none
  | .write p ch =>
    match s.ctl p with
    | .writeLoop n i i0 =>
      if i < n ∧ s.pi.readopen ∧ ¬ s.killed p ∧ ¬ s.pi.full then
        match ch with
        | none => some (writeDone s p i)
        | some c => some ((s.goto p (.writeLoop n (i + 1) i0)).push c)
      else none
    | _ => none
  | .writeTest p =>
    match s.ctl p with
    | .writeLoop n i _ =>
      if i < n then
        if ¬ s.pi.readopen ∨ s.killed p then some (s.goto p (.returned (-1))).release
        else if s.pi.full then
          some ((s.wakeup .nread).goto p (.writeAsleep n i)).release
        else none
      else some (writeDone s p i)
    | _ => none
  | .waitTest p =>
    match s.ctl p with
    | .readWait n =>
      if s.pi.empty ∧ s.pi.writeopen then
        if s.killed p then some (s.goto p (.returned (-1))).release
        else some (s.goto p (.readAsleep n)).release
      else some (s.goto p (.readCopy n []))
    | _ => none
  | .read p copied =>
    match s.ctl p with
    | .readCopy n got =>
      if got.length < n ∧ ¬ s.pi.empty then
        -- `nread` has moved on before the outcome of `copyout` is known
        if copied then some (s.goto p (.readCopy n (got ++ [s.pi.front]))).pop
        else some (readDone s p got).pop
      else none
    | _ => none
  | .readEnd p =>
    match s.ctl p with
    | .readCopy n got =>
      if got.length < n ∧ ¬ s.pi.empty then none else some (readDone s p got)
    | _ => none
  | .close p =>
    match s.ctl p with
    | .closeHeld w => some (closeBody s p w)
    | _ => none
  | .kill p => some (killBody s p)

@[simp] theorem goto_ctl (s : Sys) (p : Pid) (c : Ctl) :
    (s.goto p c).ctl = update s.ctl p c := rfl
@[simp] theorem goto_lock (s : Sys) (p : Pid) (c : Ctl) : (s.goto p c).lock = s.lock := rfl
@[simp] theorem goto_pi (s : Sys) (p : Pid) (c : Ctl) : (s.goto p c).pi = s.pi := rfl
@[simp] theorem goto_killed (s : Sys) (p : Pid) (c : Ctl) : (s.goto p c).killed = s.killed := rfl
@[simp] theorem wakeup_ctl (s : Sys) (ch : Chan) : (s.wakeup ch).ctl = wakeup ch s.ctl := rfl
@[simp] theorem wakeup_lock (s : Sys) (ch : Chan) : (s.wakeup ch).lock = s.lock := rfl
@[simp] theorem wakeup_pi (s : Sys) (ch : Chan) : (s.wakeup ch).pi = s.pi := rfl
@[simp] theorem release_ctl (s : Sys) : s.release.ctl = s.ctl := rfl
@[simp] theorem release_lock (s : Sys) : s.release.lock = none := rfl
@[simp] theorem release_pi (s : Sys) : s.release.pi = s.pi := rfl
@[simp] theorem hold_ctl (s : Sys) (p : Pid) : (s.hold p).ctl = s.ctl := rfl
@[simp] theorem hold_lock (s : Sys) (p : Pid) : (s.hold p).lock = some p := rfl

theorem holds_wake (c : Ctl) : c.wake.holds = c.holds := by cases c <;> rfl

theorem holds_wakeup (ch : Chan) (ctl : Pid → Ctl) (p : Pid) :
    (wakeup ch ctl p).holds = (ctl p).holds := by
  unfold wakeup
  split
  · exact holds_wake _
  · rfl

/-- `pi->lock` is held by the process inside its critical section, if any. -/
def Locked (s : Sys) : Prop := ∀ p, (s.ctl p).holds = true ↔ s.lock = some p

theorem locked_init (data : Fin PIPESIZE → UInt8) : Locked (init data) := by
  intro p
  simp [init, Ctl.holds]

/-- One process moves inside its critical section, or outside of any. -/
theorem locked_update {s : Sys} (hs : Locked s) (p : Pid) {c : Ctl}
    (hc : c.holds = (s.ctl p).holds) (q : Pid) :
    (update s.ctl p c q).holds = true ↔ s.lock = some q := by
  by_cases hq : q = p
  · subst hq; rw [update_self, hc]; exact hs q
  · rw [update_of_ne hq]; exact hs q

/-- The holder leaves its critical section. -/
theorem locked_leave {s : Sys} (hs : Locked s) {p : Pid} (hp : (s.ctl p).holds = true)
    {c : Ctl} (hc : c.holds = false) {ctl : Pid → Ctl}
    (hw : ∀ q, (ctl q).holds = (s.ctl q).holds) (q : Pid) :
    (update ctl p c q).holds = true ↔ none = some q := by
  have hl := (hs p).mp hp
  by_cases hq : q = p
  · subst hq; simp [hc]
  · rw [update_of_ne hq, hw, hs q, hl]
    simp [Ne.symm hq]

/-- Everything one step can do, guards included. -/
inductive Moves (s : Sys) : Act → Sys → Prop
  | call (p : Pid) (c : Call) (h : s.ctl p = .idle ∨ ∃ r, s.ctl p = .returned r) :
      Moves s (.call p c) (s.goto p (enter c))
  | acquire (p : Pid) (c : Ctl) (hl : s.lock = none) (hf : s.freed = false)
      (h : (s.ctl p).locked = some c) : Moves s (.acquire p) ((s.goto p c).hold p)
  | writeFault (p : Pid) (n : Int) (i i0 : Nat) (h : s.ctl p = .writeLoop n i i0) :
      Moves s (.write p none) (writeDone s p i)
  | writeByte (p : Pid) (n : Int) (i i0 : Nat) (c : UInt8) (h : s.ctl p = .writeLoop n i i0)
      (hr : s.pi.readopen = true) (hk : s.killed p = false) (hf : s.pi.full = false)
      (hi : i < n) : Moves s (.write p (some c)) ((s.goto p (.writeLoop n (i + 1) i0)).push c)
  | writeAbort (p : Pid) (n : Int) (i i0 : Nat) (h : s.ctl p = .writeLoop n i i0) (hi : i < n)
      (ha : s.pi.readopen = false ∨ s.killed p = true) :
      Moves s (.writeTest p) (s.goto p (.returned (-1))).release
  | writeSleep (p : Pid) (n : Int) (i i0 : Nat) (h : s.ctl p = .writeLoop n i i0)
      (hr : s.pi.readopen = true) (hf : s.pi.full = true) (hi : i < n) :
      Moves s (.writeTest p) ((s.wakeup .nread).goto p (.writeAsleep n i)).release
  | writeDone (p : Pid) (n : Int) (i i0 : Nat) (h : s.ctl p = .writeLoop n i i0) (hi : ¬i < n) :
      Moves s (.writeTest p) (writeDone s p i)
  | waitAbort (p : Pid) (n : Int) (h : s.ctl p = .readWait n) (hk : s.killed p = true) :
      Moves s (.waitTest p) (s.goto p (.returned (-1))).release
  | waitSleep (p : Pid) (n : Int) (h : s.ctl p = .readWait n) (he : s.pi.empty = true)
      (hw : s.pi.writeopen = true) : Moves s (.waitTest p) (s.goto p (.readAsleep n)).release
  | waitDone (p : Pid) (n : Int) (h : s.ctl p = .readWait n)
      (hg : s.pi.empty = true → s.pi.writeopen = false) :
      Moves s (.waitTest p) (s.goto p (.readCopy n []))
  | readByte (p : Pid) (n : Int) (got : List UInt8) (h : s.ctl p = .readCopy n got)
      (he : s.pi.empty = false) (hn : got.length < n) :
      Moves s (.read p true) (s.goto p (.readCopy n (got ++ [s.pi.front]))).pop
  | readFault (p : Pid) (n : Int) (got : List UInt8) (h : s.ctl p = .readCopy n got)
      (he : s.pi.empty = false) :
      Moves s (.read p false) (readDone s p got).pop
  | readEnd (p : Pid) (n : Int) (got : List UInt8) (h : s.ctl p = .readCopy n got)
      (hg : got.length < n → s.pi.empty = true) :
      Moves s (.readEnd p) (readDone s p got)
  | close (p : Pid) (w : Bool) (h : s.ctl p = .closeHeld w) : Moves s (.close p) (closeBody s p w)
  | kill (p : Pid) : Moves s (.kill p) (killBody s p)

theorem moves_of_step {s s' : Sys} {a : Act} (h : step s a = some s') : Moves s a s' := by
  cases a with
  | call p c =>
    simp only [step] at h
    split at h
    · cases h; exact .call p c (.inl ‹_›)
    · cases h; exact .call p c (.inr ⟨_, ‹_›⟩)
    · cases h
  | acquire p =>
    simp only [step] at h
    split at h
    · obtain ⟨c, hc, rfl⟩ := Option.map_eq_some_iff.mp h
      rename_i hl
      exact .acquire p c hl.1 hl.2 hc
    · cases h
  | write p ch =>
    simp only [step] at h
    split at h
    · split at h
      · rename_i n i i0 hc hg
        cases ch with
        | none => cases h; exact .writeFault p n i i0 hc
        | some c =>
          cases h
          exact .writeByte p n i i0 c hc hg.2.1 (by simpa using hg.2.2.1) (by simpa using hg.2.2.2)
            hg.1
      · cases h
    · cases h
  | writeTest p =>
    simp only [step] at h
    split at h
    · rename_i n i i0 hc
      split at h
      · rename_i hi
        split at h
        · rename_i ha
          cases h
          exact .writeAbort p n i i0 hc hi (by simpa using ha)
        · rename_i ha
          simp only [not_or, Bool.not_eq_true, Bool.not_eq_false] at ha
          split at h
          · cases h; exact .writeSleep p n i i0 hc ha.1 ‹_› hi
          · cases h
      · cases h; exact .writeDone p n i i0 hc ‹_›
    · cases h
  | waitTest p =>
    simp only [step] at h
    split at h
    · rename_i n hc
      split at h
      · rename_i hg
        split at h
        · cases h; exact .waitAbort p n hc ‹_›
        · cases h; exact .waitSleep p n hc hg.1 hg.2
      · rename_i hg; cases h; exact .waitDone p n hc (by simpa using hg)
    · cases h
  | read p copied =>
    simp only [step] at h
    split at h
    · rename_i n got hc
      split at h
      · rename_i hg
        have he : s.pi.empty = false := by simpa using hg.2
        cases copied with
        | true => cases h; exact .readByte p n got hc he hg.1
        | false => cases h; exact .readFault p n got hc he
      · cases h
    · cases h
  | readEnd p =>
    simp only [step] at h
    split at h
    · rename_i n got hc
      split at h
      · cases h
      · rename_i hg; cases h; exact .readEnd p n got hc (by simpa using hg)
    · cases h
  | close p =>
    simp only [step] at h
    split at h
    · cases h; exact .close p _ ‹_›
    · cases h
  | kill p => cases h; exact .kill p

theorem locked_moves {s s' : Sys} {a : Act} (hs : Locked s) (h : Moves s a s') : Locked s' := by
  have hwake : ∀ ch q, (wakeup ch s.ctl q).holds = (s.ctl q).holds := fun ch => holds_wakeup ch s.ctl
  cases h with
  | call p c h =>
    refine locked_update hs p ?_
    rcases h with h | ⟨r, h⟩ <;> cases c <;> simp [h, enter, Ctl.holds]
  | acquire p c hl hf h =>
    intro q
    by_cases hq : q = p
    · subst hq
      have hc : c.holds = true := by
        cases he : s.ctl q <;> simp only [he, Ctl.locked, reduceCtorEq, Option.some.injEq] at h <;>
          subst h <;> rfl
      simp [hc]
    · have hn : ¬ (s.ctl q).holds = true := by rw [hs q, hl]; simp
      simp only [hold_ctl, hold_lock, goto_ctl, update_of_ne hq, Option.some.injEq]
      exact iff_of_false hn (Ne.symm hq)
  | writeFault p n i i0 h => exact locked_leave hs (by simp [h, Ctl.holds]) rfl (hwake .nread)
  | writeByte p n i i0 c h => exact locked_update hs p (by simp [h, Ctl.holds])
  | writeAbort p n i i0 h => exact locked_leave hs (by simp [h, Ctl.holds]) rfl (fun _ => rfl)
  | writeSleep p n i i0 h => exact locked_leave hs (by simp [h, Ctl.holds]) rfl (hwake .nread)
  | writeDone p n i i0 h => exact locked_leave hs (by simp [h, Ctl.holds]) rfl (hwake .nread)
  | waitAbort p n h => exact locked_leave hs (by simp [h, Ctl.holds]) rfl (fun _ => rfl)
  | waitSleep p n h => exact locked_leave hs (by simp [h, Ctl.holds]) rfl (fun _ => rfl)
  | waitDone p n h => exact locked_update hs p (by simp [h, Ctl.holds])
  | readByte p n got h => exact locked_update hs p (by simp [h, Ctl.holds])
  | readFault p n got h => exact locked_leave hs (by simp [h, Ctl.holds]) rfl (hwake .nwrite)
  | readEnd p n got h => exact locked_leave hs (by simp [h, Ctl.holds]) rfl (hwake .nwrite)
  | close p w h =>
    have hp : (s.ctl p).holds = true := by simp [h, Ctl.holds]
    cases w
    · exact locked_leave hs hp rfl (hwake .nwrite)
    · exact locked_leave hs hp rfl (hwake .nread)
  | kill p => exact locked_update hs p (holds_wake _)

end Xv6.Pipes
