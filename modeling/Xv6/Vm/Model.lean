import Xv6.Fs.Blocks

/-!
# The page allocator and the page tables

`kernel/kalloc.c` and `kernel/vm.c` over a flat physical memory of bytes. The
free list is linked through the free pages themselves and the page tables are
arrays of 64-bit entries in memory, as in the source. A function that panics ends
the computation with that panic.

`Kmem.oom` lets `kalloc` run out at any call: each call takes the next entry of
the list, and finds no page where that is `true`.
-/
namespace Xv6.Vm

open Lib.Bytes

set_option autoImplicit false

/-! ## Addresses and page-table entries -/

def PGSIZE : Nat := 4096

/-- `PGROUNDUP`, in 64-bit arithmetic. -/
def PGROUNDUP (sz : Nat) : Nat := (sz + PGSIZE - 1) % 2 ^ 64 / PGSIZE * PGSIZE

def PGROUNDDOWN (a : Nat) : Nat := a / PGSIZE * PGSIZE

def PTE_V : Nat := 1
def PTE_R : Nat := 2
def PTE_W : Nat := 4
def PTE_X : Nat := 8
def PTE_U : Nat := 16

def PA2PTE (pa : Nat) : Nat := (pa >>> 12) <<< 10

def PTE2PA (pte : Nat) : Nat := (pte >>> 10) <<< 12

def PTE_FLAGS (pte : Nat) : Nat := pte &&& 0x3FF

def PX (level va : Nat) : Nat := (va >>> (12 + 9 * level)) &&& 0x1FF

def MAXVA : Nat := 1 <<< 38
def TRAMPOLINE : Nat := MAXVA - PGSIZE
def TRAPFRAME : Nat := TRAMPOLINE - PGSIZE

def KERNBASE : Nat := 0x80000000

/-- Where the kernel ends (`end`), where its memory ends (`PHYSTOP`) and where its
trampoline page lies. Physical addresses have 56 bits. -/
structure Layout where
  kend : Nat
  phystop : Nat
  trampoline : Nat
  kernbase_le : KERNBASE ≤ kend
  kend_le : kend ≤ phystop
  phystop_le : phystop ≤ 2 ^ 56
  trampoline_lt : trampoline < 2 ^ 56
  trampoline_aligned : trampoline % PGSIZE = 0

/-- How many pages `freerange` hands to the allocator. -/
def Layout.npages (L : Layout) : Nat := (L.phystop - PGROUNDUP L.kend) / PGSIZE

/-! ## The memory and its primitives -/

inductive Panic where
  | walk | mappagesSize | remap | notAligned | unmapWalk | notMapped | notALeaf | freewalkLeaf
  | pteShouldExist | pageNotPresent | uvmclear | loadseg | kfree | uvmfirst | kalloc
  | filedup | fileclose | initExiting | ilock | iunlock
  /-- `freewalk` calls itself more often than a page table has levels. -/
  | freewalkDepth
  /-- The kernel uses the page at address 0 that a failed `kalloc` returned. -/
  | nullPage
  /-- The kernel uses a null pointer to an inode. -/
  | nullInode
  deriving DecidableEq, Repr

/-- The physical memory with the allocator's state. -/
structure Kmem where
  mem : Mem
  freelist : Nat
  oom : List Bool

abbrev M := StateT Kmem (Except Panic)

def panic {α : Type} (p : Panic) : M α := throw p

/-- An `if` without `else`. -/
def ifDo (c : Prop) [Decidable c] (f : M Unit) : M Unit := if c then f else pure ()

/-- The unsigned field of `k` bytes at `a`. -/
def load (a k : Nat) : M Nat := fun s => .ok (getLE s.mem a k, s)

def store (a k v : Nat) : M Unit := fun s => .ok ((), { s with mem := putLE s.mem a k v })

def memset (a v n : Nat) : M Unit := fun s =>
  .ok ((), { s with mem := fun x => if a ≤ x ∧ x < a + n then UInt8.ofNat v else s.mem x })

def memmove (dst src n : Nat) : M Unit := fun s =>
  .ok ((), { s with mem := blit s.mem dst s.mem src n })

/-- The `n` bytes at `a`, read into a variable of the kernel. -/
def fetch (a n : Nat) : M (List UInt8) := fun s =>
  .ok ((List.range n).map fun i => s.mem (a + i), s)

/-- Write a variable of the kernel to memory. -/
def put (a : Nat) (bytes : List UInt8) : M Unit := fun s =>
  .ok ((), { s with mem := blit s.mem a (fun i => bytes.getD i 0) 0 bytes.length })

/-! ## `kalloc.c` -/

/-- Whether this call of `kalloc` finds nothing, whatever is on the list. -/
def starved : M Bool := fun s => .ok (s.oom.headD false, { s with oom := s.oom.tail })

def getFreelist : M Nat := fun s => .ok (s.freelist, s)

def setFreelist (r : Nat) : M Unit := fun s => .ok ((), { s with freelist := r })

def kalloc : M Nat := do
  let denied ← starved
  let r ← getFreelist
  if denied ∨ r = 0 then pure 0
  else do
    let next ← load r 8
    setFreelist next
    memset r 5 PGSIZE
    pure r

variable (L : Layout)

def kfree (pa : Nat) : M Unit :=
  if pa % PGSIZE ≠ 0 ∨ pa < L.kend ∨ L.phystop ≤ pa then panic .kfree
  else do
    memset pa 1 PGSIZE
    let r ← getFreelist
    store pa 8 r
    setFreelist pa

/-- `kfree` of `n` pages from `p` on. -/
def freerange : Nat → Nat → M Unit
  | 0, _ => pure ()
  | n + 1, p => do
    kfree L p
    freerange n (p + PGSIZE)

def kinit : M Unit := freerange L L.npages (PGROUNDUP L.kend)

/-! ## `walk` and `mappages` -/

/-- The loop of `walk`, from `level` down. -/
def walkLoop (va : Nat) (alloc : Bool) : Nat → Nat → M Nat
  | 0, pagetable => pure (pagetable + 8 * PX 0 va)
  | level + 1, pagetable => do
    let pte ← load (pagetable + 8 * PX (level + 1) va) 8
    if pte &&& PTE_V ≠ 0 then walkLoop va alloc level (PTE2PA pte)
    else if alloc = false then pure 0
    else do
      let page ← kalloc
      if page = 0 then pure 0
      else do
        memset page 0 PGSIZE
        store (pagetable + 8 * PX (level + 1) va) 8 (PA2PTE page ||| PTE_V)
        walkLoop va alloc level page

/-- The address of the entry for `va`, or 0. -/
def walk (pagetable va : Nat) (alloc : Bool) : M Nat :=
  if MAXVA ≤ va then panic .walk else walkLoop va alloc 2 pagetable

def walkaddr (pagetable va : Nat) : M Nat :=
  if MAXVA ≤ va then pure 0
  else do
    let pte ← walk pagetable va false
    if pte = 0 then pure 0
    else do
      let e ← load pte 8
      if e &&& PTE_V = 0 then pure 0
      else if e &&& PTE_U = 0 then pure 0
      else pure (PTE2PA e)

/-- The loop of `mappages`, with `n` pages to go after this one. -/
def mappagesLoop (pagetable perm : Nat) : Nat → Nat → Nat → M Int
  | n, a, pa => do
    let pte ← walk pagetable a true
    if pte = 0 then pure (-1)
    else do
      let e ← load pte 8
      if e &&& PTE_V ≠ 0 then panic .remap
      else do
        store pte 8 (PA2PTE pa ||| perm ||| PTE_V)
        match n with
        | 0 => pure 0
        | n + 1 => mappagesLoop pagetable perm n (a + PGSIZE) (pa + PGSIZE)

def mappages (pagetable va size pa perm : Nat) : M Int :=
  if size = 0 then panic .mappagesSize
  else
    mappagesLoop pagetable perm ((PGROUNDDOWN (va + size - 1) - PGROUNDDOWN va) / PGSIZE)
      (PGROUNDDOWN va) pa

/-! ## User memory -/

/-- The loop of `uvmunmap`: `n` pages from `a` on. -/
def uvmunmapLoop (pagetable : Nat) (do_free : Bool) : Nat → Nat → M Unit
  | 0, _ => pure ()
  | n + 1, a => do
    let pte ← walk pagetable a false
    if pte = 0 then panic .unmapWalk
    else do
      let e ← load pte 8
      if e &&& PTE_V = 0 then panic .notMapped
      else if PTE_FLAGS e = PTE_V then panic .notALeaf
      else do
        ifDo do_free (kfree L (PTE2PA e))
        store pte 8 0
        uvmunmapLoop pagetable do_free n (a + PGSIZE)

def uvmunmap (pagetable va npages : Nat) (do_free : Bool) : M Unit :=
  if va % PGSIZE ≠ 0 then panic .notAligned
  else uvmunmapLoop L pagetable do_free npages va

def uvmcreate : M Nat := do
  let pagetable ← kalloc
  if pagetable = 0 then pure 0
  else do
    memset pagetable 0 PGSIZE
    pure pagetable

/-- The value of `(uint64)(int)x`. -/
def ofInt32 (x : Nat) : Nat :=
  if x % 2 ^ 32 < 2 ^ 31 then x % 2 ^ 32 else x % 2 ^ 32 + (2 ^ 64 - 2 ^ 32)

def uvmdealloc (pagetable oldsz newsz : Nat) : M Nat :=
  if oldsz ≤ newsz then pure oldsz
  else if PGROUNDUP newsz < PGROUNDUP oldsz then do
    uvmunmap L pagetable (PGROUNDUP newsz)
      (ofInt32 ((PGROUNDUP oldsz - PGROUNDUP newsz) / PGSIZE)) true
    pure newsz
  else pure newsz

/-- The loop of `uvmalloc`: `n` pages from `a` on. -/
def uvmallocLoop (pagetable oldsz newsz xperm : Nat) : Nat → Nat → M Nat
  | 0, _ => pure newsz
  | n + 1, a => do
    let mem ← kalloc
    if mem = 0 then do
      let _ ← uvmdealloc L pagetable a oldsz
      pure 0
    else do
      memset mem 0 PGSIZE
      let r ← mappages pagetable a PGSIZE mem (PTE_R ||| PTE_U ||| xperm)
      if r ≠ 0 then do
        kfree L mem
        let _ ← uvmdealloc L pagetable a oldsz
        pure 0
      else uvmallocLoop pagetable oldsz newsz xperm n (a + PGSIZE)

/-- How often `for(a = from; a < to; a += PGSIZE)` goes round. -/
def pagesBetween (lo hi : Nat) : Nat := (hi - lo + PGSIZE - 1) / PGSIZE

def uvmalloc (pagetable oldsz newsz xperm : Nat) : M Nat :=
  if newsz < oldsz then pure oldsz
  else
    uvmallocLoop L pagetable (PGROUNDUP oldsz) newsz xperm
      (pagesBetween (PGROUNDUP oldsz) newsz) (PGROUNDUP oldsz)

/-- The loop of `freewalk` over `n` entries from `i` on; `child` is its call of itself. -/
def freewalkLoop (child : Nat → M Unit) (pagetable : Nat) : Nat → Nat → M Unit
  | 0, _ => pure ()
  | n + 1, i => do
    let pte ← load (pagetable + 8 * i) 8
    if pte &&& PTE_V ≠ 0 ∧ pte &&& (PTE_R ||| PTE_W ||| PTE_X) = 0 then do
      child (PTE2PA pte)
      store (pagetable + 8 * i) 8 0
      freewalkLoop child pagetable n (i + 1)
    else if pte &&& PTE_V ≠ 0 then panic .freewalkLeaf
    else freewalkLoop child pagetable n (i + 1)

/-- `freewalk`, with the number of times it may call itself. -/
def freewalk : Nat → Nat → M Unit
  | 0, _ => panic .freewalkDepth
  | depth + 1, pagetable => do
    freewalkLoop (freewalk depth) pagetable 512 0
    kfree L pagetable

def uvmfree (pagetable sz : Nat) : M Unit := do
  ifDo (0 < sz) (uvmunmap L pagetable 0 (PGROUNDUP sz / PGSIZE) true)
  freewalk L 3 pagetable

/-- The loop of `uvmcopy`: `n` pages from `i` on. -/
def uvmcopyLoop (old new : Nat) : Nat → Nat → M Int
  | 0, _ => pure 0
  | n + 1, i => do
    let pte ← walk old i false
    if pte = 0 then panic .pteShouldExist
    else do
      let e ← load pte 8
      if e &&& PTE_V = 0 then panic .pageNotPresent
      else do
        let mem ← kalloc
        if mem = 0 then do
          uvmunmap L new 0 (i / PGSIZE) true
          pure (-1)
        else do
          memmove mem (PTE2PA e) PGSIZE
          let r ← mappages new i PGSIZE mem (PTE_FLAGS e)
          if r ≠ 0 then do
            kfree L mem
            uvmunmap L new 0 (i / PGSIZE) true
            pure (-1)
          else uvmcopyLoop old new n (i + PGSIZE)

def uvmcopy (old new sz : Nat) : M Int := uvmcopyLoop L old new (pagesBetween 0 sz) 0

/-- `*pte &= ~PTE_U` for the entry of `va`. -/
def uvmclear (pagetable va : Nat) : M Unit := do
  let pte ← walk pagetable va false
  if pte = 0 then panic .uvmclear
  else do
    let e ← load pte 8
    store pte 8 (e &&& (2 ^ 64 - 1 - PTE_U))

/-! ## Copies between the kernel and a process -/

/-- The loop of `copyout`; a round copies at least one byte, so that `len` rounds are
enough. -/
def copyoutLoop (pagetable : Nat) : Nat → Nat → List UInt8 → M Int
  | 0, _, _ => pure 0
  | fuel + 1, dstva, src =>
    if src = [] then pure 0
    else do
      let va0 := PGROUNDDOWN dstva
      let pa0 ← walkaddr pagetable va0
      if pa0 = 0 then pure (-1)
      else do
        let n := min (PGSIZE - (dstva - va0)) src.length
        put (pa0 + (dstva - va0)) (src.take n)
        copyoutLoop pagetable fuel ((va0 + PGSIZE) % 2 ^ 64) (src.drop n)

def copyout (pagetable dstva : Nat) (src : List UInt8) : M Int :=
  copyoutLoop pagetable src.length dstva src

/-- The loop of `copyin`, with the bytes copied so far; `false` for the source's `-1`. -/
def copyinLoop (pagetable : Nat) : Nat → Nat → Nat → List UInt8 → M (Bool × List UInt8)
  | 0, _, _, dst => pure (true, dst)
  | fuel + 1, srcva, len, dst =>
    if len = 0 then pure (true, dst)
    else do
      let va0 := PGROUNDDOWN srcva
      let pa0 ← walkaddr pagetable va0
      if pa0 = 0 then pure (false, dst)
      else do
        let n := min (PGSIZE - (srcva - va0)) len
        let bytes ← fetch (pa0 + (srcva - va0)) n
        copyinLoop pagetable fuel ((va0 + PGSIZE) % 2 ^ 64) (len - n) (dst ++ bytes)

/-- Whether all of the `len` bytes at `srcva` could be copied, and what was written to the
destination. -/
def copyin (pagetable srcva len : Nat) : M (Bool × List UInt8) :=
  copyinLoop pagetable len srcva len []

/-- The loop of `copyinstr`, with the bytes copied so far; `true` if the last one is the
terminating zero. -/
def copyinstrLoop (pagetable : Nat) :
    Nat → Nat → Nat → List UInt8 → M (Bool × List UInt8)
  | 0, _, _, dst => pure (false, dst)
  | fuel + 1, srcva, max, dst =>
    if max = 0 then pure (false, dst)
    else do
      let va0 := PGROUNDDOWN srcva
      let pa0 ← walkaddr pagetable va0
      if pa0 = 0 then pure (false, dst)
      else do
        let n := min (PGSIZE - (srcva - va0)) max
        let bytes ← fetch (pa0 + (srcva - va0)) n
        if 0 ∈ bytes then pure (true, dst ++ bytes.takeWhile (· ≠ 0) ++ [0])
        else copyinstrLoop pagetable fuel ((va0 + PGSIZE) % 2 ^ 64) (max - n) (dst ++ bytes)

/-- Whether a string of at most `max` bytes with its zero was found at `srcva`, and what
was written to the destination. -/
def copyinstr (pagetable srcva max : Nat) : M (Bool × List UInt8) :=
  copyinstrLoop pagetable max srcva max []

end Xv6.Vm
