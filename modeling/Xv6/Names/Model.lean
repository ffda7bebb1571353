import Xv6.Lib.Hoare
import Mathlib.Data.List.FinRange

/-!
# Inodes and names

The routines of `kernel/fs.c` on the table of in-memory inodes, on directories and on paths, and
`create` of `sysfile.c`. They run one after the other.

An inode is one record. The copy in the table is the one on disk as soon as a call has ended, since
every change to it is followed by `iupdate`; `valid` says whether it has been read. The contents of
a directory are its entries. Sleep-locks are left out: between two calls they are free.
-/
namespace Xv6.Names

set_option autoImplicit false

def NINODE : Nat := 50
def NFILE : Nat := 100
def NOFILE : Nat := 16
def NPROC : Nat := 64
def NDEV : Int := 10
def ROOTINO : Nat := 1
def DIRSIZ : Nat := 14

/-- The number of entries in a block. -/
def EPB : Nat := 64

/-- The number of entries that a directory of `MAXFILE` blocks has. -/
def MAXENTRIES : Nat := 268 * EPB

def O_CREATE : Nat := 0x200
def O_TRUNC : Nat := 0x400

/-- A pointer into `itable.inode`. -/
abbrev Id := Fin NINODE

/-- A pointer into `ftable.file`. -/
abbrev FileId := Fin NFILE

/-- A pointer into `proc`. -/
abbrev Pid := Fin NPROC

/-- `struct dirent`; the entry is free if `inum` is 0. The name is `DIRSIZ` bytes. -/
structure Dirent where
  inum : UInt16
  name : List UInt8
  deriving DecidableEq

/-- The type of an inode; 0 is `free`. -/
inductive Ty where
  | free
  | dir
  | file
  | device
  deriving DecidableEq

/-- The conversion of a number to `short`. -/
def short (n : Int) : Int := n.bmod 0x10000

structure Inode where
  type : Ty
  major : Int
  minor : Int
  nlink : Int
  entries : List Dirent
  data : List UInt8
  deriving DecidableEq

/-- After `memset` and an assignment to its type. -/
def Inode.fresh (type : Ty) : Inode := ⟨type, 0, 0, 0, [], []⟩

/-- After `itrunc`. -/
def Inode.truncated (i : Inode) : Inode := { i with entries := [], data := [] }

/-- An entry of `itable`. -/
structure Entry where
  inum : Nat
  ref : Nat
  valid : Bool
  deriving DecidableEq

/-- `f->type` with what the type says the file has. -/
inductive Kind where
  | none
  | pipe (pi : Nat) (writable : Bool)
  | inode (ip : Id)
  | device (ip : Id) (major : Int)
  deriving DecidableEq

structure File where
  ref : Nat
  kind : Kind
  deriving DecidableEq

inductive State where
  | unused
  | live
  | zombie
  deriving DecidableEq

structure Proc where
  state : State
  cwd : Option Id
  ofile : Fin NOFILE → Option FileId

/-- `struct pipe`, without its bytes. -/
structure Pipe where
  readopen : Bool
  writeopen : Bool
  deriving DecidableEq

structure World where
  inode : Nat → Inode
  itable : Id → Entry
  ftable : FileId → File
  proc : Pid → Proc
  /-- The pipe in a page; the pages are numbered in the order in which `kalloc` returns them. -/
  pipe : Nat → Option Pipe
  npipe : Nat
  /-- `sb.ninodes` -/
  ninodes : Nat

/-- What a call finds besides the tables: whether its `i`-th new entry gets a block on disk, and
what its `i`-th name buffer holds at first. -/
structure Env where
  block : Nat → Bool
  buf : Nat → List UInt8

inductive Panic where
  | noInodes
  | ilock
  | noType
  | dirlookup
  | nlink
  | filedup
  | fileclose
  | initExiting
  | noCwd
  | fuel
  deriving DecidableEq

abbrev Kernel (α : Type) := StateT World (Except Panic) α

/-- The panic in which a routine ends. -/
def panicOf {α : Type} : Except Panic α → Option Panic
  | .ok _ => none
  | .error e => some e

/-! ## Strings

A string is the list of its bytes; behind its end stand zeros. -/

/-- `strncmp(p, q, n)` -/
def strncmp (p q : List UInt8) : Nat → Int
  | 0 => 0
  | n + 1 =>
    if p.headD 0 ≠ 0 ∧ p.headD 0 = q.headD 0 then strncmp p.tail q.tail n
    else (p.headD 0).toNat - (q.headD 0).toNat

/-- The `n` bytes that `strncpy(s, t, n)` writes to `s`. -/
def strncpy (t : List UInt8) : Nat → List UInt8
  | 0 => []
  | n + 1 => if t.headD 0 ≠ 0 then t.headD 0 :: strncpy t.tail n else List.replicate (n + 1) 0

def namecmp (s t : List UInt8) : Int := strncmp s t DIRSIZ

/-! ## Inodes -/

def setInode (inum : Nat) (i : Inode) : Kernel PUnit :=
  modify fun w => { w with inode := Function.update w.inode inum i }

def setEntry (ip : Id) (e : Entry) : Kernel PUnit :=
  modify fun w => { w with itable := Function.update w.itable ip e }

/-- The loop of `iget`: the entry of the inode, or the first empty slot. -/
def igetScan (t : Id → Entry) (inum : Nat) : Option Id → List Id → Id ⊕ Option Id
  | empty, [] => .inr empty
  | empty, ip :: ips =>
    if 0 < (t ip).ref ∧ (t ip).inum = inum then .inl ip
    else igetScan t inum (if empty = none ∧ (t ip).ref = 0 then some ip else empty) ips

def iget (inum : Nat) : Kernel Id := do
  let w ← get
  match igetScan w.itable inum none (List.finRange NINODE) with
  | .inl ip =>
    setEntry ip { w.itable ip with ref := (w.itable ip).ref + 1 }
    pure ip
  | .inr none => throw .noInodes
  | .inr (some ip) =>
    setEntry ip ⟨inum, 1, false⟩
    pure ip

def idup (ip : Id) : Kernel Id := do
  let w ← get
  setEntry ip { w.itable ip with ref := (w.itable ip).ref + 1 }
  pure ip

/-- `ilock`: the inode, as it has been read from disk. -/
def ilock (ip : Id) : Kernel Inode := do
  let w ← get
  let e := w.itable ip
  if e.ref < 1 then throw .ilock
  else if e.valid then pure (w.inode e.inum)
  else
    setEntry ip { e with valid := true }
    if (w.inode e.inum).type = .free then throw .noType else pure (w.inode e.inum)

/-- `iput`; the inode is freed on disk with its last reference if it has no names. -/
def iput (ip : Id) : Kernel PUnit := do
  let w ← get
  let e := w.itable ip
  if e.ref = 1 ∧ e.valid ∧ (w.inode e.inum).nlink = 0 then
    setInode e.inum { (w.inode e.inum).truncated with type := .free }
    setEntry ip { e with ref := e.ref - 1, valid := false }
  else setEntry ip { e with ref := e.ref - 1 }

/-- `ialloc`, over the numbers that are left. -/
def ialloc (type : Ty) : List Nat → Kernel (Option Id)
  | [] => pure none
  | inum :: rest => do
    let w ← get
    if (w.inode inum).type = .free then
      setInode inum (.fresh type)
      let ip ← iget inum
      pure (some ip)
    else ialloc type rest

/-! ## Directories -/

/-- The position of the first live entry with the given name. -/
def findEntry (name : List UInt8) : List Dirent → Option Nat
  | [] => none
  | de :: des =>
    if de.inum ≠ 0 ∧ namecmp name de.name = 0 then some 0 else (findEntry name des).map (· + 1)

/-- `dirlookup`: the inode and the position of its entry. -/
def dirlookup (dp : Id) (name : List UInt8) : Kernel (Option (Id × Nat)) := do
  let w ← get
  let d := w.inode (w.itable dp).inum
  if d.type ≠ .dir then throw .dirlookup
  else
    match findEntry name d.entries with
    | none => pure none
    | some off => do
      let ip ← iget (d.entries.getD off ⟨0, []⟩).inum.toNat
      pure (some (ip, off))

/-- The position that `dirlink` writes: the first free entry, or the end. -/
def freeEntry : List Dirent → Nat
  | [] => 0
  | de :: des => if de.inum = 0 then 0 else freeEntry des + 1

/-- Write an entry at a position up to the end. -/
def putEntry (de : Dirent) (off : Nat) (des : List Dirent) : List Dirent :=
  if off < des.length then des.set off de else des ++ [de]

/-- `dirlink`; `block` says whether a block is found if the directory needs a new one. -/
def dirlink (dp : Id) (name : List UInt8) (inum : Nat) (block : Bool) : Kernel Bool := do
  match ← dirlookup dp name with
  | some (ip, _) => do
    iput ip
    pure false
  | none => do
    let w ← get
    let d := w.inode (w.itable dp).inum
    let off := freeEntry d.entries
    if off < d.entries.length ∨ (off < MAXENTRIES ∧ (off % EPB ≠ 0 ∨ block)) then
      setInode (w.itable dp).inum
        { d with entries := putEntry ⟨.ofNat inum, strncpy name DIRSIZ⟩ off d.entries }
      pure true
    else pure false

/-! ## Paths -/

def slash : UInt8 := 47

/-- The buffer `name` after `memmove(name, s, s.length)`. -/
def overwrite (s name : List UInt8) : List UInt8 := s ++ name.drop s.length

/-- `skipelem`: what follows the next element of the path, and the buffer with that element. -/
def skipelem (path name : List UInt8) : Option (List UInt8 × List UInt8) :=
  let s := path.dropWhile (· = slash)
  if s = [] then none
  else
    let elem := s.takeWhile (· ≠ slash)
    some ((s.dropWhile (· ≠ slash)).dropWhile (· = slash),
      if DIRSIZ ≤ elem.length then overwrite (elem.take DIRSIZ) name else overwrite (elem ++ [0]) name)

/-- The loop of `namex`; every turn consumes a byte of the path. The answer is the inode with the
buffer. -/
def namexLoop (parent : Bool) :
    Nat → Id → List UInt8 → List UInt8 → Kernel (Option (Id × List UInt8))
  | 0, _, _, _ => throw .fuel
  | n + 1, ip, path, name =>
    match skipelem path name with
    | none =>
      if parent then do
        iput ip
        pure none
      else pure (some (ip, name))
    | some (path, name) => do
      let i ← ilock ip
      if i.type ≠ .dir then
        iput ip
        pure none
      else if parent ∧ path = [] then pure (some (ip, name))
      else
        match ← dirlookup ip name with
        | none => do
          iput ip
          pure none
        | some (next, _) => do
          iput ip
          namexLoop parent n next path name

/-- The inode at which `namex` starts, for process `p`. -/
def namexStart (p : Pid) (path : List UInt8) : Kernel Id := do
  if path.head? = some slash then iget ROOTINO
  else
    let w ← get
    match (w.proc p).cwd with
    | some cwd => idup cwd
    | none => throw .noCwd

def namex (p : Pid) (path : List UInt8) (parent : Bool) (name : List UInt8) :
    Kernel (Option (Id × List UInt8)) := do
  let ip ← namexStart p path
  namexLoop parent (path.length + 1) ip path name

def namei (p : Pid) (path buf : List UInt8) : Kernel (Option (Id × List UInt8)) :=
  namex p path false buf

def nameiparent (p : Pid) (path name : List UInt8) : Kernel (Option (Id × List UInt8)) :=
  namex p path true name

def dot : List UInt8 := [46]
def dotdot : List UInt8 := [46, 46]

/-- The end of `create` when an entry could not be written. -/
def createFail (dp ip : Id) : Kernel (Option Id) := do
  let w ← get
  let inum := (w.itable ip).inum
  setInode inum { w.inode inum with nlink := 0 }
  iput ip
  iput dp
  pure none

/-- The entries that `create` makes for a new inode. -/
def createLinks (dp ip : Id) (name : List UInt8) (type : Ty) (env : Env) : Kernel Bool := do
  let w ← get
  let inum := (w.itable ip).inum
  let own ←
    if type = .dir then do
      if ← dirlink ip dot inum (env.block 0) then dirlink ip dotdot (w.itable dp).inum (env.block 1)
      else pure false
    else pure true
  if own then dirlink dp name inum (env.block 2) else pure false

def create (p : Pid) (path : List UInt8) (type : Ty) (major minor : Int) (env : Env) :
    Kernel (Option Id) := do
  match ← nameiparent p path (env.buf 0) with
  | none => pure none
  | some (dp, name) => do
    let _ ← ilock dp
    match ← dirlookup dp name with
    | some (ip, _) => do
      iput dp
      let i ← ilock ip
      if type = .file ∧ (i.type = .file ∨ i.type = .device) then pure (some ip)
      else
        iput ip
        pure none
    | none => do
      let w ← get
      match ← ialloc type ((List.range w.ninodes).drop 1) with
      | none => do
        iput dp
        pure none
      | some ip => do
        let i ← ilock ip
        let w ← get
        setInode (w.itable ip).inum { i with major := major, minor := minor, nlink := 1 }
        if ← createLinks dp ip name type env then
          if type = .dir then
            let w ← get
            let d := w.inode (w.itable dp).inum
            setInode (w.itable dp).inum { d with nlink := short (d.nlink + 1) }
          iput dp
          pure (some ip)
        else createFail dp ip

end Xv6.Names
