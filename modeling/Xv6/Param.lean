import Xv6.Lib.Bytes

/-!
# Constants and the disk block

The constants of `kernel/param.h` and `kernel/fs.h` that the models use, the
superblock, and a disk block as its `BSIZE` bytes. A structure the C code lays
over a block is read and written field by field with `Block.get` and `Block.put`.
-/
namespace Xv6

set_option autoImplicit false

def MAXOPBLOCKS : Nat := 10
def LOGSIZE : Nat := MAXOPBLOCKS * 3
def BSIZE : Nat := 1024

/-- `struct superblock`, after its magic number has been checked. -/
structure Superblock where
  size : Nat
  nblocks : Nat
  ninodes : Nat
  nlog : Nat
  logstart : Nat
  inodestart : Nat
  bmapstart : Nat
  deriving DecidableEq, Repr

/-- The superblock that `mkfs` writes, for `FSSIZE` 2000 and `NINODES` 200. -/
def mkfsSb : Superblock := ⟨2000, 1954, 200, LOGSIZE, 2, 32, 45⟩

abbrev Block := Fin BSIZE → UInt8

namespace Block

open Lib.Bytes

/-- The bytes of a block as a memory; nothing is there beyond its end. -/
def mem (b : Block) : Mem := fun i => if h : i < BSIZE then b ⟨i, h⟩ else 0

def ofMem (m : Mem) : Block := fun i => m i

/-- The unsigned field of `k` bytes at `off`. -/
def get (b : Block) (off k : Nat) : Nat := getLE b.mem off k

def put (b : Block) (off k v : Nat) : Block := ofMem (putLE b.mem off k v)

/-- The `uint`s `xs` at `off`, one after the other. -/
def putWords (b : Block) (off : Nat) : List Nat → Block
  | [] => b
  | x :: xs => putWords (b.put off 4 x) (off + 4) xs

theorem mem_ofMem {m : Mem} {i : Nat} (h : i < BSIZE) : (ofMem m).mem i = m i := by
  simp [mem, ofMem, h]

theorem mem_of_le {b : Block} {i : Nat} (h : BSIZE ≤ i) : b.mem i = 0 := by
  simp [mem, Nat.not_lt.mpr h]

theorem get_lt (b : Block) (off k : Nat) : b.get off k < 256 ^ k := getLE_lt _ _ _

theorem get_put_same {b : Block} {off k v : Nat} (h : off + k ≤ BSIZE) (hv : v < 256 ^ k) :
    (b.put off k v).get off k = v := by
  unfold get put
  rw [getLE_congr fun x _ h2 => mem_ofMem (by omega)]
  exact getLE_putLE_of_lt hv

theorem get_put_disjoint (b : Block) {off k v off' j : Nat} (h : off + k ≤ off' ∨ off' + j ≤ off) :
    (b.put off k v).get off' j = b.get off' j := by
  unfold get put
  refine getLE_congr fun x h1 h2 => ?_
  by_cases hx : x < BSIZE
  · rw [mem_ofMem hx]
    exact putLE_outside (by omega)
  · rw [mem_of_le (Nat.not_lt.mp hx), mem_of_le (Nat.not_lt.mp hx)]

theorem get_putWords_before {xs : List Nat} {b : Block} {start off k : Nat} (h : off + k ≤ start) :
    (b.putWords start xs).get off k = b.get off k := by
  induction xs generalizing b start with
  | nil => rfl
  | cons x xs ih =>
    rw [putWords, ih (by omega)]
    exact get_put_disjoint b (Or.inr h)

theorem get_putWords {xs : List Nat} {b : Block} {off j : Nat} (hj : j < xs.length)
    (hfit : off + 4 * xs.length ≤ BSIZE) (hx : ∀ x ∈ xs, x < 2 ^ 32) :
    (b.putWords off xs).get (off + 4 * j) 4 = xs.getD j 0 := by
  induction xs generalizing b off j with
  | nil => exact absurd hj (Nat.not_lt_zero j)
  | cons x xs ih =>
    rw [List.length_cons] at hfit hj
    cases j with
    | zero =>
      have h0 : x < 256 ^ 4 := hx x List.mem_cons_self
      rw [putWords, Nat.mul_zero, Nat.add_zero, get_putWords_before (by omega), List.getD_cons_zero]
      exact get_put_same (by omega) h0
    | succ j =>
      rw [putWords, show off + 4 * (j + 1) = off + 4 + 4 * j by omega, List.getD_cons_succ]
      exact ih (by omega) (by omega) fun y hy => hx y (List.mem_cons_of_mem _ hy)

end Block

end Xv6
