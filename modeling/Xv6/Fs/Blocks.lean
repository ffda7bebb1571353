import Xv6.Param
import Xv6.Lib.Prog

/-!
# The block and inode routines of `kernel/fs.c`

The routines between the buffer cache and the system calls, as programs over the
operations of `kernel/bio.c` and `kernel/log.c` that they use. A program is
polymorphic in the type `H` of buffer pointers. The in-memory inode that a routine
works on is passed to it and handed back, since its caller holds the inode's lock.
-/
namespace Xv6.Fs

set_option autoImplicit false

open Xv6.Lib (Prog)

def NDIRECT : Nat := 12
def NINDIRECT : Nat := BSIZE / 4
def MAXFILE : Nat := NDIRECT + NINDIRECT
/-- Inodes per block, of 64 bytes each. -/
def IPB : Nat := BSIZE / 64
/-- Bitmap bits per block. -/
def BPB : Nat := BSIZE * 8

inductive Panic where
  | freeingFreeBlock
  | bmapOutOfRange
  deriving DecidableEq, Repr

/-- What a routine can do. `copyin` copies up to `n` bytes of user memory into the
buffer at `off` and says whether it copied all of them; `copyout` copies to user
memory; `bwrite`, `bunpin`, `header` and `clear` (`log.lh.n = 0`) are for the log. -/
inductive Op (H : Type) where
  | bread (b : Nat)
  | load (bp : H)
  | store (bp : H) (x : Block)
  | copyin (bp : H) (off n : Nat)
  | copyout (n : Nat)
  | logWrite (bp : H)
  | bwrite (bp : H)
  | bunpin (bp : H)
  | brelse (bp : H)
  | header
  | clear
  | panic (m : Panic)

abbrev Op.Ans {H : Type} : Op H → Type
  | .bread _ => H
  | .load _ => Block
  | .copyin _ _ _ => Bool
  | .copyout _ => Bool
  | .header => List Nat
  | .panic _ => Empty
  | _ => Unit

/-- A routine that returns an `α`. -/
abbrev Routine (H : Type) (α : Type) := Prog (Op H) Op.Ans α

variable {H : Type}

def bread (b : Nat) : Routine H H := .op (.bread b) .ret
def load (bp : H) : Routine H Block := .op (.load bp) .ret
def store (bp : H) (x : Block) : Routine H Unit := .op (.store bp x) .ret
def logWrite (bp : H) : Routine H Unit := .op (.logWrite bp) .ret
def bwrite (bp : H) : Routine H Unit := .op (.bwrite bp) .ret
def bunpin (bp : H) : Routine H Unit := .op (.bunpin bp) .ret
def brelse (bp : H) : Routine H Unit := .op (.brelse bp) .ret
def header : Routine H (List Nat) := .op .header .ret
def clear : Routine H Unit := .op .clear .ret
def panic {α : Type} (m : Panic) : Routine H α := .op (.panic m) Empty.elim

/-! ## Bitmap blocks -/

def getBit (x : Block) (bi : Nat) : Bool := (x.mem (bi / 8)).toNat.testBit (bi % 8)

/-- `data[bi/8] |= m`. -/
def setBit (x : Block) (bi : Nat) : Block := fun i =>
  if i.val = bi / 8 then x i ||| ((1 : UInt8) <<< UInt8.ofNat (bi % 8)) else x i

/-- `data[bi/8] &= ~m`. -/
def clearBit (x : Block) (bi : Nat) : Block := fun i =>
  if i.val = bi / 8 then x i &&& ~~~((1 : UInt8) <<< UInt8.ofNat (bi % 8)) else x i

variable (sb : Superblock)

/-- The bitmap block with the bit of block `b`. -/
def BBLOCK (b : Nat) : Nat := b / BPB + sb.bmapstart

/-- The block with inode `i`. -/
def IBLOCK (i : Nat) : Nat := i / IPB + sb.inodestart

def bzero (bno : Nat) : Routine H Unit := do
  let bp ← bread bno
  store bp fun _ => 0
  logWrite bp
  brelse bp

/-- The first clear bit of the bitmap block that starts with block `b`. -/
def freeBit (b : Nat) (x : Block) : Option Nat :=
  (List.range (min BPB (sb.size - b))).find? fun bi => !getBit x bi

/-- The loop of `balloc`, with `n` bitmap blocks to go from block `b` on. -/
def ballocLoop : Nat → Nat → Routine H Nat
  | 0, _ => pure 0
  | n + 1, b => do
    let bp ← bread (BBLOCK sb b)
    let x ← load bp
    match freeBit sb b x with
    | some bi =>
      store bp (setBit x bi)
      logWrite bp
      brelse bp
      bzero (b + bi)
      pure (b + bi)
    | none =>
      brelse bp
      ballocLoop n (b + BPB)

def balloc : Routine H Nat := ballocLoop sb ((sb.size + BPB - 1) / BPB) 0

def bfree (b : Nat) : Routine H Unit := do
  let bp ← bread (BBLOCK sb b)
  let x ← load bp
  if getBit x (b % BPB) = false then panic .freeingFreeBlock
  else
    store bp (clearBit x (b % BPB))
    logWrite bp
    brelse bp

/-! ## Inodes -/

/-- `struct dinode`, and the part of `struct inode` that mirrors it. The `short`
fields are kept modulo `2^16`. -/
@[ext] structure Dinode where
  type : Nat
  major : Nat
  minor : Nat
  nlink : Nat
  size : Nat
  addrs : Fin (NDIRECT + 1) → Nat

namespace Dinode

def addr (d : Dinode) (i : Nat) : Nat := if h : i < NDIRECT + 1 then d.addrs ⟨i, h⟩ else 0

def setAddr (d : Dinode) (i a : Nat) : Dinode :=
  { d with addrs := fun j => if j.val = i then a else d.addrs j }

/-- A free inode that has just got its type. -/
def fresh (type : Nat) : Dinode := ⟨type, 0, 0, 0, 0, fun _ => 0⟩

end Dinode

/-- The inode in slot `i` of a block. -/
def getDinode (x : Block) (i : Nat) : Dinode where
  type := x.get (64 * i) 2
  major := x.get (64 * i + 2) 2
  minor := x.get (64 * i + 4) 2
  nlink := x.get (64 * i + 6) 2
  size := x.get (64 * i + 8) 4
  addrs := fun j => x.get (64 * i + 12 + 4 * j) 4

def putDinode (x : Block) (i : Nat) (d : Dinode) : Block :=
  (((((x.put (64 * i) 2 d.type).put (64 * i + 2) 2 d.major).put (64 * i + 4) 2 d.minor).put
    (64 * i + 6) 2 d.nlink).put (64 * i + 8) 4 d.size).putWords (64 * i + 12) (List.ofFn d.addrs)

/-- The loop of `ialloc`, with `n` inodes to go from `inum` on. -/
def iallocLoop (type : Nat) : Nat → Nat → Routine H (Option Nat)
  | 0, _ => pure none
  | n + 1, inum => do
    let bp ← bread (IBLOCK sb inum)
    let x ← load bp
    if (getDinode x (inum % IPB)).type = 0 then
      store bp (putDinode x (inum % IPB) (.fresh type))
      logWrite bp
      brelse bp
      pure (some inum)
    else
      brelse bp
      iallocLoop type n (inum + 1)

/-- `ialloc` up to its call of `iget`. -/
def ialloc (type : Nat) : Routine H (Option Nat) := iallocLoop sb type (sb.ninodes - 1) 1

def iupdate (inum : Nat) (ip : Dinode) : Routine H Unit := do
  let bp ← bread (IBLOCK sb inum)
  let x ← load bp
  store bp (putDinode x (inum % IPB) ip)
  logWrite bp
  brelse bp

/-- The part of `ilock` that reads the inode from disk. -/
def readInode (inum : Nat) : Routine H Dinode := do
  let bp ← bread (IBLOCK sb inum)
  let x ← load bp
  brelse bp
  pure (getDinode x (inum % IPB))

/-! ## Inode content -/

/-- Entry `j` of an indirect block. -/
@[irreducible] def entry (x : Block) (j : Nat) : Nat := x.get (4 * j) 4

/-- The block at address `i` of the inode, allocated if there is none. -/
def bmapAddr (ip : Dinode) (i : Nat) : Routine H (Dinode × Nat) :=
  if ip.addr i = 0 then do
    let addr ← balloc sb
    if addr = 0 then pure (ip, 0) else pure (ip.setAddr i addr, addr)
  else pure (ip, ip.addr i)

/-- The block at entry `j` of the indirect block `ind`, allocated if there is none. -/
def bmapEntry (ind j : Nat) : Routine H Nat := do
  let bp ← bread ind
  let a ← load bp
  if entry a j = 0 then
    let addr ← balloc sb
    if addr ≠ 0 then
      store bp (a.put (4 * j) 4 addr)
      logWrite bp
      brelse bp
      pure addr
    else
      brelse bp
      pure addr
  else
    brelse bp
    pure (entry a j)

def bmap (ip : Dinode) (bn : Nat) : Routine H (Dinode × Nat) :=
  if bn < NDIRECT then bmapAddr sb ip bn
  else if bn - NDIRECT < NINDIRECT then do
    let (ip, ind) ← bmapAddr sb ip NDIRECT
    if ind = 0 then pure (ip, 0)
    else
      let addr ← bmapEntry sb ind (bn - NDIRECT)
      pure (ip, addr)
  else panic .bmapOutOfRange

/-- The first loop of `itrunc`, from direct address `i` on with `n` to go. -/
def itruncDirect : Nat → Nat → Dinode → Routine H Dinode
  | 0, _, ip => pure ip
  | n + 1, i, ip =>
    if ip.addr i ≠ 0 then do
      bfree sb (ip.addr i)
      itruncDirect n (i + 1) (ip.setAddr i 0)
    else itruncDirect n (i + 1) ip

/-- The second loop of `itrunc`, over the entries of the indirect block. -/
def freeEntries : List Nat → Routine H Unit
  | [] => pure ()
  | a :: as =>
    if a ≠ 0 then do
      bfree sb a
      freeEntries as
    else freeEntries as

def itruncIndirect (ip : Dinode) : Routine H Dinode :=
  if ip.addr NDIRECT ≠ 0 then do
    let bp ← bread (ip.addr NDIRECT)
    let a ← load bp
    freeEntries sb ((List.range NINDIRECT).map (entry a))
    brelse bp
    bfree sb (ip.addr NDIRECT)
    pure (ip.setAddr NDIRECT 0)
  else pure ip

def itrunc (inum : Nat) (ip : Dinode) : Routine H Dinode := do
  let ip ← itruncDirect sb NDIRECT 0 ip
  let ip ← itruncIndirect sb ip
  iupdate sb inum { ip with size := 0 }
  pure { ip with size := 0 }

/-- `n` bytes of a block from `off` on. -/
def bytesAt (x : Block) (off n : Nat) : List UInt8 := (List.range n).map fun i => x.mem (off + i)

/-- Bytes `bs` stored into a block at `off`. -/
def putBytes (x : Block) (off : Nat) (bs : List UInt8) : Block := fun i =>
  if off ≤ i.val ∧ i.val < off + bs.length then bs.getD (i.val - off) 0 else x i

/-- Where `writei` takes its bytes from. -/
inductive Src where
  | user
  | kernel (bytes : List UInt8)

/-- `either_copyout`; a copy to kernel memory always succeeds. -/
def eitherCopyout (user : Bool) (n : Nat) : Routine H Bool :=
  if user then .op (.copyout n) .ret else pure true

/-- `either_copyin` of bytes `tot ..` of the source into the buffer. -/
def eitherCopyin (bp : H) (off : Nat) (src : Src) (tot n : Nat) : Routine H Bool :=
  match src with
  | .user => .op (.copyin bp off n) .ret
  | .kernel bytes => do
    let x ← load bp
    store bp (putBytes x off ((bytes.drop tot).take n))
    pure true

/-- The loop of `readi`; `acc` is what has been copied out. -/
def readiLoop (user : Bool) (n : Nat) :
    Nat → Dinode → Nat → Nat → List UInt8 → Routine H (Dinode × Int × List UInt8)
  | 0, ip, tot, _, acc => pure (ip, tot, acc)
  | fuel + 1, ip, tot, off, acc =>
    if tot < n then do
      let (ip, addr) ← bmap sb ip (off / BSIZE)
      if addr = 0 then pure (ip, tot, acc)
      else
        let bp ← bread addr
        let m := min (n - tot) (BSIZE - off % BSIZE)
        let x ← load bp
        let ok ← eitherCopyout user m
        brelse bp
        if ok then readiLoop user n fuel ip (tot + m) (off + m) (acc ++ bytesAt x (off % BSIZE) m)
        else pure (ip, -1, acc)
    else pure (ip, tot, acc)

/-- Every turn of the loop moves at least one byte, so `n` turns are enough. -/
def readi (ip : Dinode) (user : Bool) (off n : Nat) : Routine H (Dinode × Int × List UInt8) :=
  if ip.size < off ∨ (off + n) % 2 ^ 32 < off then pure (ip, 0, [])
  else
    let n := if ip.size < off + n then ip.size - off else n
    readiLoop sb user n n ip 0 off []

/-- The loop of `writei`; returns the inode, `tot` and `off`. -/
def writeiLoop (src : Src) (n : Nat) : Nat → Dinode → Nat → Nat → Routine H (Dinode × Nat × Nat)
  | 0, ip, tot, off => pure (ip, tot, off)
  | fuel + 1, ip, tot, off =>
    if tot < n then do
      let (ip, addr) ← bmap sb ip (off / BSIZE)
      if addr = 0 then pure (ip, tot, off)
      else
        let bp ← bread addr
        let m := min (n - tot) (BSIZE - off % BSIZE)
        let ok ← eitherCopyin bp (off % BSIZE) src tot m
        if ok then
          logWrite bp
          brelse bp
          writeiLoop src n fuel ip (tot + m) (off + m)
        else
          brelse bp
          pure (ip, tot, off)
    else pure (ip, tot, off)

def writei (inum : Nat) (ip : Dinode) (src : Src) (off n : Nat) : Routine H (Dinode × Int) :=
  if ip.size < off ∨ (off + n) % 2 ^ 32 < off then pure (ip, -1)
  else if MAXFILE * BSIZE < off + n then pure (ip, -1)
  else do
    let (ip, tot, off) ← writeiLoop sb src n n ip 0 off
    let ip := if ip.size < off then { ip with size := off } else ip
    iupdate sb inum ip
    pure (ip, tot)

end Xv6.Fs
