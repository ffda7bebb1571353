import Mathlib.Algebra.Ring.Nat
import Mathlib.Data.List.FinRange

/-!
# The process table, `kernel/proc.h`
-/
namespace Xv6.Sched

set_option autoImplicit false

def NPROC : Nat := 64

/-- A pointer into the table `proc`. -/
abbrev Slot := Fin NPROC

instance : NeZero NPROC := ⟨by decide⟩

/-- The slot of the first process. -/
def initproc : Slot := 0

def slots : List Slot := List.finRange NPROC

inductive ProcState where
  | UNUSED | USED | SLEEPING | RUNNABLE | RUNNING | ZOMBIE
  deriving DecidableEq, Repr

/-- Addresses that processes sleep on. -/
inductive Chan where
  | proc (p : Slot)
  | sleep (k : Nat)
  | other (n : Nat)
  deriving DecidableEq, Repr

/-- `struct proc`, without its lock and its context; null pointers are `none`. -/
structure Proc where
  state : ProcState
  chan : Option Chan
  killed : Bool
  xstate : Int
  pid : Int
  parent : Option Slot
  deriving DecidableEq, Repr

def Proc.unused : Proc := ⟨.UNUSED, none, false, 0, 0, none⟩

end Xv6.Sched
