import Xv6.Fs.Content
import Xv6.Lib.Run
import Mathlib.Data.Finset.Union

/-!
# The offset of an open file

`fileread` and `filewrite` of `kernel/file.c` on one `struct file` of type `FD_INODE`. The
offset is read and advanced under the lock of the inode, so that a call is a sequence of
critical sections, and the calls of several processes interleave at those. What others do to
the inode and to the disk between two sections is left open.
-/
namespace Xv6.Fs

set_option autoImplicit false

open Xv6.Lib Xv6.Lib.Prog Function

/-- The open file: its offset, its inode in memory, and the disk. -/
structure OpenFile where
  io : Io
  ip : Dinode
  off : Nat

/-- `if(r > 0) f->off += r`. -/
def advance (off : Nat) (r : Int) : Nat := if 0 < r then (off + r.toNat) % 2 ^ 32 else off

section Model

variable (sb : Superblock) (inum : Nat)

abbrev Writer := Nat

/-- Where a process is: outside of `filewrite`, or in its loop with `i` of `n` bytes done. -/
inductive Progress where
  | idle
  | writing (n : Int) (i : Nat)

structure Shared where
  file : OpenFile
  ctl : Writer → Progress
  /-- The ranges that the critical sections reported, as offset and positive count. -/
  ranges : List (Nat × Nat)

namespace Shared

/-- The open file as process `p` finds it, with what its copies will do. -/
def enter (s : Shared) (copies : List (List UInt8 × Bool)) : OpenFile :=
  { s.file with io := { s.file.io with user := copies } }

end Shared

end Model

/-! ## What the sections report -/

section Bounds

variable {sb : Superblock} {s : Io} {ip : Dinode}

end Bounds

/-! ## Interleavings -/

/-- The ranges follow one another from `a` to `b`. -/
def Consecutive : Nat → List (Nat × Nat) → Nat → Prop
  | a, [], b => a = b
  | a, (lo, n) :: l, b => lo = a ∧ Consecutive (a + n) l b

theorem Consecutive.snoc {a b : Nat} {l : List (Nat × Nat)} (h : Consecutive a l b) (n : Nat) :
    Consecutive a (l ++ [(b, n)]) (b + n) := by
  induction l generalizing a with
  | nil =>
    obtain rfl : a = b := h
    exact ⟨rfl, rfl⟩
  | cons x l ih => exact ⟨h.1, ih h.2⟩

section Runs

variable {sb : Superblock} {inum : Nat} {s s' : Shared} {off : Nat}

end Runs

/-! ## One writer -/

section Single

variable {sb : Superblock} {inum : Nat}

/-- The inode in memory is the one on disk, the bitmap is exact, and there is room for the
slots in `S`. -/
structure Ready (sb : Superblock) (inum : Nat) (S : Finset Slot) (f : OpenFile) : Prop where
  clean : f.ip = (view sb f.io.disk).din inum
  type : f.ip.type ≠ 0
  bitmap : Bitmap sb (view sb f.io.disk)
  room : (view sb f.io.disk).missing inum S ≤ (view sb f.io.disk).free sb

end Single

/-! ## The result -/

/-- An image with an empty file, inode 2. -/
def oneFile : Disk := fun b =>
  if b = 45 then fun j => if j.val < 5 then 255 else if j.val = 5 then 63 else 0
  else if b = 32 then putDinode (fun _ => 0) 2 { Dinode.fresh 2 with nlink := 1 }
  else fun _ => 0

/-- The file is open with the given offset. -/
def opened (off : Nat) : OpenFile := ⟨⟨oneFile, [], false, []⟩, { Dinode.fresh 2 with nlink := 1 }, off⟩

end Xv6.Fs
