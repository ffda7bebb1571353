import Xv6.Fs.Blocks
import Xv6.Lib.Run
import Mathlib.Data.List.FinRange
import Mathlib.Data.Finset.Basic

/-!
# The table of in-memory inodes, `kernel/fs.c`

Any number of processes run `iget`, `idup`, `ilock`, `iunlock`, `iput`, `ialloc` and
`iupdate` on one table. The routines are programs over single operations: taking and
giving up `itable.lock` and the sleep-locks of inodes, reads and writes of a table entry,
and reads and writes of an inode on disk, which are single operations since they hold the
buffer of its block. A process performs one operation at a time.

`refs` records who owns the references that `ip->ref` counts: the processes that share an
open file own its reference together. `dirty` records the inodes whose metadata has been
changed since it was read from disk or written to it. No routine reads either; they say
which calls the rest of the kernel makes.
-/
namespace Xv6.Itable

open Function

set_option autoImplicit false

open Xv6.Lib (Prog)
open Xv6.Fs (Dinode)

def NINODE : Nat := 50

instance : NeZero NINODE := ⟨by decide⟩

/-- A pointer into `itable.inode`. -/
abbrev Id := Fin NINODE

abbrev Pid := Nat

def ids : List Id := List.finRange NINODE

structure Key where
  dev : Nat
  inum : Nat
  deriving DecidableEq, Repr

/-- `struct inode`, without its sleep-lock. -/
structure Inode where
  key : Key
  ref : Nat
  valid : Bool
  din : Dinode

inductive Panic where
  | acquire | release | noInodes | ilock | noType | iunlock
  deriving DecidableEq, Repr

/-! ## Operations -/

/-- `check` is the read of an entry with which `iput` decides whether to free the inode;
`claim` is the turn of the loop of `ialloc` that looks at one inode. -/
inductive Op where
  | acquire
  | release
  | inode (i : Id)
  | check (i : Id)
  | addRef (i : Id)
  | subRef (i : Id)
  | recycle (i : Id) (k : Key)
  | acquiresleep (i : Id)
  | releasesleep (i : Id)
  | holdingsleep (i : Id)
  | dinode (i : Id)
  | setDin (i : Id) (d : Dinode)
  | setValid (i : Id) (v : Bool)
  | iupdate (i : Id)
  | claim (k : Key) (type : Nat)
  | panic (m : Panic)

abbrev Op.Ans : Op → Type
  | .inode _ => Inode
  | .check _ => Inode
  | .holdingsleep _ => Bool
  | .dinode _ => Dinode
  | .claim _ _ => Bool
  | .panic _ => Empty
  | _ => Unit

abbrev Code (α : Type) := Prog Op Op.Ans α

def acquire : Code Unit := .op .acquire .ret
def release : Code Unit := .op .release .ret
def inode (ip : Id) : Code Inode := .op (.inode ip) .ret
def check (ip : Id) : Code Inode := .op (.check ip) .ret
def addRef (ip : Id) : Code Unit := .op (.addRef ip) .ret
def subRef (ip : Id) : Code Unit := .op (.subRef ip) .ret
def recycle (ip : Id) (k : Key) : Code Unit := .op (.recycle ip k) .ret
def acquiresleep (ip : Id) : Code Unit := .op (.acquiresleep ip) .ret
def releasesleep (ip : Id) : Code Unit := .op (.releasesleep ip) .ret
def holdingsleep (ip : Id) : Code Bool := .op (.holdingsleep ip) .ret
def dinode (ip : Id) : Code Dinode := .op (.dinode ip) .ret
def setDin (ip : Id) (d : Dinode) : Code Unit := .op (.setDin ip d) .ret
def setValid (ip : Id) (v : Bool) : Code Unit := .op (.setValid ip v) .ret
def iupdate (ip : Id) : Code Unit := .op (.iupdate ip) .ret
def claim (k : Key) (type : Nat) : Code Bool := .op (.claim k type) .ret
def panic {α : Type} (m : Panic) : Code α := .op (.panic m) Empty.elim

/-! ## The routines -/

/-- The loop of `iget`, which remembers an empty slot. -/
def igetLoop (k : Key) : Option Id → List Id → Code Unit
  | none, [] => panic .noInodes
  | some ip, [] => do
    recycle ip k
    release
  | empty, ip :: ips => do
    let e ← inode ip
    if 0 < e.ref ∧ e.key = k then
      addRef ip
      release
    else igetLoop k (if empty = none ∧ e.ref = 0 then some ip else empty) ips

def iget (k : Key) : Code Unit := do
  acquire
  igetLoop k none ids

def idup (ip : Id) : Code Unit := do
  acquire
  addRef ip
  release

def ilock (ip : Id) : Code Unit := do
  let e ← inode ip
  if e.ref < 1 then panic .ilock
  else
    acquiresleep ip
    let e ← inode ip
    if e.valid then pure ()
    else
      let d ← dinode ip
      setDin ip d
      setValid ip true
      let e ← inode ip
      if e.din.type = 0 then panic .noType else pure ()

def iunlock (ip : Id) : Code Unit := do
  let h ← holdingsleep ip
  let e ← inode ip
  if h = false ∨ e.ref < 1 then panic .iunlock
  else releasesleep ip

/-- What `itrunc` leaves of the metadata. -/
def truncated (d : Dinode) : Dinode := { d with size := 0, addrs := fun _ => 0 }

def iput (ip : Id) : Code Unit := do
  acquire
  let e ← check ip
  if e.ref = 1 ∧ e.valid = true ∧ e.din.nlink = 0 then
    acquiresleep ip
    release
    setDin ip (truncated e.din)
    iupdate ip
    setDin ip { truncated e.din with type := 0 }
    iupdate ip
    setValid ip false
    releasesleep ip
    acquire
    subRef ip
    release
  else
    subRef ip
    release

/-- The loop of `ialloc`, with `n` inodes to go from `inum` on. -/
def iallocLoop (dev type : Nat) : Nat → Nat → Code Unit
  | 0, _ => pure ()
  | n + 1, inum => do
    let free ← claim ⟨dev, inum⟩ type
    if free then iget ⟨dev, inum⟩ else iallocLoop dev type n (inum + 1)

/-! ## The machine -/

inductive Call where
  | iget (k : Key)
  | idup (ip : Id)
  | ilock (ip : Id)
  | iunlock (ip : Id)
  | iput (ip : Id)
  | iupdate (ip : Id)
  | ialloc (dev type ninodes : Nat)
  deriving DecidableEq, Repr

def Call.body : Call → Code Unit
  | .iget k => Itable.iget k
  | .idup ip => Itable.idup ip
  | .ilock ip => Itable.ilock ip
  | .iunlock ip => Itable.iunlock ip
  | .iput ip => Itable.iput ip
  | .iupdate ip => Itable.iupdate ip
  | .ialloc dev type ninodes => iallocLoop dev type (ninodes - 1) 1

/-- A reference to an entry, with the processes that own it. -/
abbrev Ref := Id × Finset Pid

structure Sys where
  itable : Id → Inode
  /-- The holder of `itable.lock`. -/
  table : Option Pid
  /-- The holder of `ip->lock`. -/
  lock : Id → Option Pid
  disk : Key → Dinode
  prog : Pid → Code Unit
  call : Pid → Option Call
  refs : Multiset Ref
  dirty : Id → Bool
  panicked : Option Panic

namespace Sys

variable (s : Sys) (p : Pid) (ip : Id)

def goto (r : Code Unit) : Sys := { s with prog := update s.prog p r }

def setInode (e : Inode) : Sys := { s with itable := update s.itable ip e }

def setDirty (b : Bool) : Sys := { s with dirty := update s.dirty ip b }

def panic (m : Panic) : Sys := { s with panicked := some m }

end Sys

/-- Process `p` owns one of the references `rs` to the entry, maybe with others. -/
def Owns (rs : Multiset Ref) (p : Pid) (ip : Id) : Prop := ∃ r ∈ rs, r.1 = ip ∧ p ∈ r.2

instance (rs : Multiset Ref) (p : Pid) (ip : Id) : Decidable (Owns rs p ip) :=
  Multiset.decidableExistsMultiset

/-- One operation of process `p`. The reference that `iput` drops is one that `p` owns
alone. -/
def perform (s : Sys) (p : Pid) : (e : Op) → (e.Ans → Code Unit) → Option Sys
  | .acquire, k =>
    match s.table with
    | none => some { s.goto p (k ()) with table := some p }
    | some q => if q = p then some (s.panic .acquire) else none
  | .release, k =>
    if s.table = some p then some { s.goto p (k ()) with table := none }
    else some (s.panic .release)
  | .inode i, k => some (s.goto p (k (s.itable i)))
  | .check i, k => some (s.goto p (k (s.itable i)))
  | .addRef i, k =>
    some { (s.setInode i { s.itable i with ref := (s.itable i).ref + 1 }).goto p (k ()) with
      refs := (i, {p}) ::ₘ s.refs }
  | .subRef i, k =>
    some { (s.setInode i { s.itable i with ref := (s.itable i).ref - 1 }).goto p (k ()) with
      refs := s.refs.erase (i, {p}) }
  | .recycle i key, k =>
    some { (s.setInode i { s.itable i with key := key, ref := 1, valid := false }).goto p (k ()) with
      refs := (i, {p}) ::ₘ s.refs }
  | .acquiresleep i, k =>
    match s.lock i with
    | none => some { s.goto p (k ()) with lock := update s.lock i (some p) }
    | some _ => none
  | .releasesleep i, k => some { s.goto p (k ()) with lock := update s.lock i none }
  | .holdingsleep i, k => some (s.goto p (k (decide (s.lock i = some p))))
  | .dinode i, k => some (s.goto p (k (s.disk (s.itable i).key)))
  | .setDin i d, k =>
    some (((s.setInode i { s.itable i with din := d }).setDirty i true).goto p (k ()))
  | .setValid i v, k =>
    some (((s.setInode i { s.itable i with valid := v }).setDirty i false).goto p (k ()))
  | .iupdate i, k =>
    some { (s.setDirty i false).goto p (k ()) with
      disk := update s.disk (s.itable i).key (s.itable i).din }
  | .claim key type, k =>
    if (s.disk key).type = 0 then
      some { s.goto p (k true) with disk := update s.disk key (.fresh type) }
    else some (s.goto p (k false))
  | .panic m, _ => some (s.panic m)

/-- The calls that process `p` makes: it locks, dups, puts and updates only what it owns
a reference to, does not lock what it has locked, does not put its only reference to an
inode that it has locked, and saves its changes before it unlocks. -/
def Call.allowed (s : Sys) (p : Pid) : Call → Prop
  | .iget _ => True
  | .idup ip => Owns s.refs p ip
  | .ilock ip => Owns s.refs p ip ∧ s.lock ip ≠ some p
  | .iunlock ip => s.lock ip = some p ∧ s.dirty ip = false
  | .iput ip => (ip, {p}) ∈ s.refs ∧ (s.lock ip = some p → Owns (s.refs.erase (ip, {p})) p ip)
  | .iupdate ip => s.lock ip = some p
  | .ialloc _ _ _ => True

instance (s : Sys) (p : Pid) (f : Call) : Decidable (f.allowed s p) := by
  cases f <;> unfold Call.allowed <;> infer_instance

/-- `edit` changes the metadata of a locked inode; only `iput` and `ialloc` write its type.
`share` and `drop` are what `fork` and `close` do with a reference that an open file has. -/
inductive Act where
  | go (p : Pid)
  | call (p : Pid) (f : Call)
  | edit (p : Pid) (ip : Id) (d : Dinode)
  | share (p q : Pid) (r : Ref)
  | drop (p : Pid) (r : Ref)

def step (s : Sys) (a : Act) : Option Sys :=
  if s.panicked ≠ none then none
  else
    match a with
    | .go p =>
      match s.prog p with
      | .op e k => perform s p e k
      | .ret _ => none
    | .call p f =>
      match s.prog p with
      | .ret _ =>
        if f.allowed s p then
          some { s.goto p f.body with call := update s.call p (some f) }
        else none
      | _ => none
    | .edit p ip d =>
      match s.prog p with
      | .ret _ =>
        if s.lock ip = some p ∧ d.type = (s.itable ip).din.type then
          some { (s.setInode ip { s.itable ip with din := d }).setDirty ip true with
            call := update s.call p none }
        else none
      | _ => none
    | .share p q r =>
      match s.prog p with
      | .ret _ =>
        if r ∈ s.refs ∧ p ∈ r.2 then
          some { s with refs := (r.1, insert q r.2) ::ₘ s.refs.erase r }
        else none
      | _ => none
    | .drop p r =>
      match s.prog p with
      | .ret _ =>
        if r ∈ s.refs ∧ p ∈ r.2 ∧ r.2.erase p ≠ ∅ ∧
            (s.lock r.1 = some p → Owns (s.refs.erase r) p r.1) then
          some { s with refs := (r.1, r.2.erase p) ::ₘ s.refs.erase r }
        else none
      | _ => none

/-- After `iinit`, with any inodes on disk. -/
def init (disk : Key → Dinode) : Sys where
  itable := fun _ => ⟨⟨0, 0⟩, 0, false, .fresh 0⟩
  table := none
  lock := fun _ => none
  disk := disk
  prog := fun _ => .ret ()
  call := fun _ => none
  refs := 0
  dirty := fun _ => false
  panicked := none

end Xv6.Itable
