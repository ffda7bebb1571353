import Xv6.Param
import Xv6.Lib.Run
import Mathlib.Data.List.GetD

/-!
# The log layer of `kernel/log.c`

Any number of processes run operations: `begin_op`, any `log_write`s, `end_op`.
The last `end_op` commits, one disk block write per step; a crash may fall
between any two steps and is followed by `recover_from_log`, which may itself be
cut short by further crashes. Critical sections of `log.lock` are single steps.

Below the log is the buffer cache: `bread` returns the cached copy of a block or
reads it, `bwrite` writes through, and a buffer that is not pinned may be dropped
at any time. A `log_write` stores the caller's contents into the buffer, which its
caller holds locked, and logs it.

`inst`, `current`, `groups` and `dropped` record which writes were made by which
operation and which groups of writes got their header on disk; no branch reads
them.
-/
namespace Xv6.Log

open Function

set_option autoImplicit false

abbrev Pid := Nat

/-- `log.start` and `log.size`, as `initlog` takes them from the superblock; the log
has at least its header block. -/
structure Conf where
  start : Nat
  size : Nat
  pos : 0 < size

def mkfsConf : Conf := ⟨mkfsSb.logstart, mkfsSb.nlog, by decide⟩

/-- The log area: the header block and the blocks that follow it. -/
def Conf.inLog (c : Conf) (b : Nat) : Prop := c.start ≤ b ∧ b < c.start + c.size

instance (c : Conf) (b : Nat) : Decidable (c.inLog b) := by unfold Conf.inLog; infer_instance

/-- Lay a `struct logheader` over a block; entries beyond `n` keep their bytes. -/
def putHeader (b : Block) (lh : List Nat) : Block := (b.put 0 4 lh.length).putWords 4 lh

def getHeader (b : Block) : List Nat := (List.range (b.get 0 4)).map fun i => b.get (4 + 4 * i) 4

inductive Phase where
  | writeLog (tail : Nat)
  | install (tail : Nat)
  | finish
  deriving DecidableEq

/-- Where a process is. `inOp` carries the number of the operation and the distinct
blocks it has logged. -/
inductive Ctl where
  | idle
  | asleep
  | woken
  | inOp (inst : Nat) (blocks : List Nat)
  | commit (ph : Phase)
  deriving DecidableEq

/-- `recovering none` is before `read_head`. -/
inductive Mode where
  | running
  | recovering (tail : Option Nat)
  deriving DecidableEq

inductive Panic where
  | tooBig
  | outsideTrans
  | committing
  deriving DecidableEq

structure Write where
  inst : Nat
  block : Nat
  data : Block

structure Sys where
  disk : Nat → Block
  cache : Nat → Option Block
  pin : Nat → Nat
  outstanding : Nat
  committing : Bool
  lh : List Nat
  ctl : Pid → Ctl
  mode : Mode
  panicked : Option Panic
  inst : Nat
  current : List Write
  groups : List (List Write)
  dropped : List (List Write)

/-- A running system on `disk`, with nothing cached and nothing logged. -/
def init (disk : Nat → Block) : Sys where
  disk := disk
  cache := fun _ => none
  pin := fun _ => 0
  outstanding := 0
  committing := false
  lh := []
  ctl := fun _ => .idle
  mode := .running
  panicked := none
  inst := 0
  current := []
  groups := []
  dropped := []

namespace Sys

/-- What `bread` returns for a block. -/
def view (s : Sys) (b : Nat) : Block := (s.cache b).getD (s.disk b)

def bread (s : Sys) (b : Nat) : Sys :=
  { s with cache := update s.cache b (some (s.view b)) }

def bwrite (s : Sys) (b : Nat) (x : Block) : Sys :=
  { s with disk := update s.disk b x, cache := update s.cache b (some x) }

def goto (s : Sys) (p : Pid) (c : Ctl) : Sys := { s with ctl := update s.ctl p c }

/-- `wakeup(&log)`. -/
def wakeup (s : Sys) : Sys :=
  { s with ctl := fun p => if s.ctl p = .asleep then .woken else s.ctl p }

def panic (s : Sys) (m : Panic) : Sys := { s with panicked := some m }

end Sys

variable (c : Conf)

def writeHead (s : Sys) : Sys := s.bwrite c.start (putHeader (s.view c.start) s.lh)

def readHead (s : Sys) : Sys :=
  { s.bread c.start with lh := getHeader (s.view c.start) }

/-- One turn of the loop of `write_log`. -/
def writeLogBlock (s : Sys) (tail : Nat) : Sys :=
  (s.bread (s.lh.getD tail 0)).bwrite (c.start + tail + 1) (s.view (s.lh.getD tail 0))

/-- One turn of the loop of `install_trans`. -/
def installBlock (s : Sys) (recovering : Bool) (tail : Nat) : Sys :=
  let dst := s.lh.getD tail 0
  let t := (s.bread (c.start + tail + 1)).bwrite dst (s.view (c.start + tail + 1))
  if recovering then t else { t with pin := update t.pin dst (t.pin dst - 1) }

/-- `log.lh.n = 0; write_head();`. -/
def eraseHead (s : Sys) : Sys := writeHead c { s with lh := [] }

/-- The test of `begin_op` that lets an operation in. -/
def admits (s : Sys) : Prop :=
  s.committing = false ∧ s.lh.length + (s.outstanding + 1) * MAXOPBLOCKS ≤ LOGSIZE

instance (s : Sys) : Decidable (admits s) := by unfold admits; infer_instance

def beginOp (s : Sys) (p : Pid) : Sys :=
  if admits s then
    { s.goto p (.inOp s.inst []) with outstanding := s.outstanding + 1, inst := s.inst + 1 }
  else s.goto p .asleep

/-- Add a block to the in-memory header, unless it is there already. -/
def absorb (s : Sys) (b : Nat) : Sys :=
  if b ∈ s.lh then s
  else { s with lh := s.lh ++ [b], pin := update s.pin b (s.pin b + 1) }

/-- The buffer of block `b` gets the contents `x` and is passed to `log_write`. -/
def logWrite (s : Sys) (p : Pid) (inst : Nat) (blocks : List Nat) (b : Nat) (x : Block) : Sys :=
  if LOGSIZE ≤ s.lh.length ∨ c.size - 1 ≤ s.lh.length then s.panic .tooBig
  else if s.outstanding < 1 then s.panic .outsideTrans
  else
    absorb { s.goto p (.inOp inst (if b ∈ blocks then blocks else blocks ++ [b])) with
      cache := update s.cache b (some x)
      current := s.current ++ [⟨inst, b, x⟩] } b

def endOp (s : Sys) (p : Pid) : Sys :=
  let s := { s with outstanding := s.outstanding - 1 }
  if s.committing then s.panic .committing
  else if s.outstanding = 0 then
    { s.goto p (.commit (if s.lh = [] then .finish else .writeLog 0)) with committing := true }
  else (s.goto p .idle).wakeup

/-- The rest of `end_op` up to and including the next disk write. The header write
that ends `write_log` is the commit point. -/
def commitStep (s : Sys) (p : Pid) : Phase → Sys
  | .writeLog tail =>
    if tail < s.lh.length then (writeLogBlock c s tail).goto p (.commit (.writeLog (tail + 1)))
    else
      { (writeHead c s).goto p (.commit (.install 0)) with
        groups := s.groups ++ [s.current], current := [] }
  | .install tail =>
    if tail < s.lh.length then (installBlock c s false tail).goto p (.commit (.install (tail + 1)))
    else (eraseHead c s).goto p (.commit .finish)
  | .finish => { (s.goto p .idle).wakeup with committing := false }

/-- Everything but the disk is lost. -/
def crash (s : Sys) : Sys :=
  { init s.disk with
    mode := .recovering none
    inst := s.inst
    groups := s.groups
    dropped := s.dropped ++ [s.current] }

/-- `recover_from_log`, up to and including the next disk write. -/
def recoverStep (s : Sys) : Option Nat → Sys
  | none => { readHead c s with mode := .recovering (some 0) }
  | some tail =>
    if tail < s.lh.length then
      { installBlock c s true tail with mode := .recovering (some (tail + 1)) }
    else { eraseHead c s with mode := .running }

inductive Act where
  | beginOp (p : Pid)
  | logWrite (p : Pid) (b : Nat) (x : Block)
  | endOp (p : Pid)
  | commitStep (p : Pid)
  | load (b : Nat)
  | evict (b : Nat)
  | crash
  | recoverStep

/-- A panic stops the kernel; all that can follow is a reboot. -/
def step (s : Sys) : Act → Option Sys
  | .beginOp p =>
    if s.panicked = none ∧ s.mode = .running ∧ (s.ctl p = .idle ∨ s.ctl p = .woken) then
      some (beginOp s p)
    else none
  | .logWrite p b x =>
    match s.ctl p with
    | .inOp inst blocks =>
      -- block numbers are 32-bit, and the callers of the log never write its own blocks
      if s.panicked = none ∧ b < 2 ^ 32 ∧ ¬ c.inLog b then some (logWrite c s p inst blocks b x)
      else none
    | _ => none
  | .endOp p =>
    match s.ctl p with
    | .inOp _ _ => if s.panicked = none then some (endOp s p) else none
    | _ => none
  | .commitStep p =>
    match s.ctl p with
    | .commit ph => if s.panicked = none then some (commitStep c s p ph) else none
    | _ => none
  | .load b => some (s.bread b)
  | .evict b => if s.pin b = 0 then some { s with cache := update s.cache b none } else none
  | .crash => some (crash s)
  | .recoverStep =>
    match s.mode with
    | .recovering tail => some (recoverStep c s tail)
    | .running => none

/-- What the labels do, with what holds where they are enabled. -/
inductive Moves (s : Sys) : Act → Sys → Prop
  | beginOp (p : Pid) (hm : s.mode = .running) (h : s.ctl p = .idle ∨ s.ctl p = .woken) :
      Moves s (.beginOp p) (beginOp s p)
  | logWrite (p : Pid) (b : Nat) (x : Block) (i : Nat) (bl : List Nat) (h : s.ctl p = .inOp i bl)
      (hp : s.panicked = none) (hb : b < 2 ^ 32) (hl : ¬ c.inLog b) :
      Moves s (.logWrite p b x) (logWrite c s p i bl b x)
  | endOp (p : Pid) (i : Nat) (bl : List Nat) (h : s.ctl p = .inOp i bl) :
      Moves s (.endOp p) (endOp s p)
  | commitStep (p : Pid) (ph : Phase) (h : s.ctl p = .commit ph) :
      Moves s (.commitStep p) (commitStep c s p ph)
  | load (b : Nat) : Moves s (.load b) (s.bread b)
  | evict (b : Nat) (h : s.pin b = 0) :
      Moves s (.evict b) { s with cache := update s.cache b none }
  | crash : Moves s .crash (crash s)
  | recoverStep (tail : Option Nat) (h : s.mode = .recovering tail) :
      Moves s .recoverStep (recoverStep c s tail)

variable {c}

theorem moves_of_step {s s' : Sys} {a : Act} (h : step c s a = some s') : Moves c s a s' := by
  cases a with
  | beginOp p =>
    obtain ⟨hg, he⟩ := Option.ite_none_right_eq_some.mp h
    cases he
    exact .beginOp p hg.2.1 hg.2.2
  | logWrite p b x =>
    simp only [step] at h
    split at h
    · obtain ⟨hg, he⟩ := Option.ite_none_right_eq_some.mp h
      cases he
      exact .logWrite p b x _ _ ‹_› hg.1 hg.2.1 hg.2.2
    · cases h
  | endOp p =>
    simp only [step] at h
    split at h
    · obtain ⟨-, he⟩ := Option.ite_none_right_eq_some.mp h
      cases he
      exact .endOp p _ _ ‹_›
    · cases h
  | commitStep p =>
    simp only [step] at h
    split at h
    · obtain ⟨-, he⟩ := Option.ite_none_right_eq_some.mp h
      cases he
      exact .commitStep p _ ‹_›
    · cases h
  | load b => cases h; exact .load b
  | evict b =>
    obtain ⟨hg, he⟩ := Option.ite_none_right_eq_some.mp h
    cases he
    exact .evict b hg
  | crash => cases h; exact .crash
  | recoverStep =>
    simp only [step] at h
    split at h
    · cases h; exact .recoverStep _ ‹_›
    · cases h

theorem absorb_of_mem {s : Sys} {b : Nat} (h : b ∈ s.lh) : absorb s b = s := if_pos h

theorem absorb_of_not_mem {s : Sys} {b : Nat} (h : b ∉ s.lh) :
    absorb s b = { s with lh := s.lh ++ [b], pin := update s.pin b (s.pin b + 1) } :=
  if_neg h

/-- The effect of a `log_write` that finds room. -/
structure Logged (s : Sys) (p : Pid) (w : Write) (s' : Sys) : Prop where
  disk : s'.disk = s.disk
  cache : s'.cache = update s.cache w.block (some w.data)
  pin : s'.pin = if w.block ∈ s.lh then s.pin
    else update s.pin w.block (s.pin w.block + 1)
  outstanding : s'.outstanding = s.outstanding
  committing : s'.committing = s.committing
  lh : s'.lh = if w.block ∈ s.lh then s.lh else s.lh ++ [w.block]
  ctl : ∃ blocks, s'.ctl = update s.ctl p (.inOp w.inst blocks)
  mode : s'.mode = s.mode
  panicked : s'.panicked = s.panicked
  inst : s'.inst = s.inst
  current : s'.current = s.current ++ [w]
  groups : s'.groups = s.groups
  dropped : s'.dropped = s.dropped

theorem logWrite_cases (c : Conf) (s : Sys) (p : Pid) (i : Nat) (bl : List Nat) (b : Nat)
    (x : Block) :
    (LOGSIZE ≤ s.lh.length ∨ c.size - 1 ≤ s.lh.length) ∧
        logWrite c s p i bl b x = s.panic .tooBig ∨
      (s.lh.length < LOGSIZE ∧ s.lh.length < c.size - 1) ∧
        (s.outstanding < 1 ∧ logWrite c s p i bl b x = s.panic .outsideTrans ∨
          Logged s p ⟨i, b, x⟩ (logWrite c s p i bl b x)) := by
  unfold logWrite
  split
  · exact .inl ⟨‹_›, rfl⟩
  rename_i hroom
  rw [not_or, Nat.not_le, Nat.not_le] at hroom
  refine .inr ⟨hroom, ?_⟩
  split
  · exact .inl ⟨‹_›, rfl⟩
  right
  by_cases hb : b ∈ s.lh
  · rw [absorb_of_mem]
    · exact ⟨rfl, rfl, (if_pos hb).symm, rfl, rfl, (if_pos hb).symm, ⟨_, rfl⟩, rfl, rfl, rfl, rfl,
        rfl, rfl⟩
    · exact hb
  · rw [absorb_of_not_mem]
    · exact ⟨rfl, rfl, (if_neg hb).symm, rfl, rfl, (if_neg hb).symm, ⟨_, rfl⟩, rfl, rfl, rfl, rfl,
        rfl, rfl⟩
    · exact hb

end Xv6.Log
