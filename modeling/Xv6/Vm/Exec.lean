import Xv6.Vm.Model

/-!
# `exec`

The page table of a process (`kernel/proc.c`), the parts of `kernel/exec.c` that build the
new address space, and the part of `sys_exec` that fetches the arguments. The file is given
by what `readi` can read of it.
-/
namespace Xv6.Vm

open Lib.Bytes

set_option autoImplicit false

variable (L : Layout)

/-! ## Page tables of processes -/

def proc_pagetable (trapframe : Nat) : M Nat := do
  let pagetable ← uvmcreate
  if pagetable = 0 then pure 0
  else do
    let r ← mappages pagetable TRAMPOLINE PGSIZE L.trampoline (PTE_R ||| PTE_X)
    if r < 0 then do
      uvmfree L pagetable 0
      pure 0
    else do
      let r ← mappages pagetable TRAPFRAME PGSIZE trapframe (PTE_R ||| PTE_W)
      if r < 0 then do
        uvmunmap L pagetable TRAMPOLINE 1 false
        uvmfree L pagetable 0
        pure 0
      else pure pagetable

def proc_freepagetable (pagetable sz : Nat) : M Unit := do
  uvmunmap L pagetable TRAMPOLINE 1 false
  uvmunmap L pagetable TRAPFRAME 1 false
  uvmfree L pagetable sz

/-! ## The file -/

/-- An inode as `readi` sees it: its size and its blocks by index, `none` where `bmap`
has no block to give. -/
structure Image where
  size : Nat
  block : Nat → Option Block
  size_le : size ≤ Fs.MAXFILE * BSIZE

/-- The loop of `readi`, with the bytes read so far. -/
def Image.readiLoop (ip : Image) : Nat → Nat → Nat → List UInt8 → List UInt8
  | 0, _, _, dst => dst
  | fuel + 1, n, off, dst =>
    if n = 0 then dst
    else
      match ip.block (off / BSIZE) with
      | none => dst
      | some data =>
        let m := min n (BSIZE - off % BSIZE)
        ip.readiLoop fuel (n - m) (off + m)
          (dst ++ (List.range m).map fun i => data.mem (off % BSIZE + i))

/-- The bytes that `readi` delivers to the kernel; it returns their number. -/
def Image.readi (ip : Image) (off n : Nat) : List UInt8 :=
  if ip.size < off ∨ (off + n) % 2 ^ 32 < off then []
  else
    let n := if ip.size < off + n then ip.size - off else n
    ip.readiLoop n n off []

/-- A field of a structure that was read from a file. -/
def field (bytes : List UInt8) (off k : Nat) : Nat := getLE (fun i => bytes.getD i 0) off k

/-! ## Loading the program -/

def ELF_MAGIC : Nat := 0x464C457F
def ELF_PROG_LOAD : Nat := 1
def MAXARG : Nat := 32
def MAXPATH : Nat := 128

/-- `sizeof(struct elfhdr)` and `sizeof(struct proghdr)`. -/
def ELFHDR : Nat := 64
def PROGHDR : Nat := 56

def flags2perm (flags : Nat) : Nat :=
  (if flags &&& 1 ≠ 0 then PTE_X else 0) ||| (if flags &&& 2 ≠ 0 then PTE_W else 0)

/-- The loop of `loadseg`: `k` pages from `i` on. A file is far shorter than `2^32`
bytes, so that `readi` comes short before `i` can wrap. -/
def loadsegLoop (pagetable va : Nat) (ip : Image) (offset sz : Nat) : Nat → Nat → M Int
  | 0, _ => pure 0
  | k + 1, i => do
    let pa ← walkaddr pagetable ((va + i) % 2 ^ 64)
    if pa = 0 then panic .loadseg
    else do
      let n := if sz - i < PGSIZE then sz - i else PGSIZE
      let bytes := ip.readi ((offset + i) % 2 ^ 32) n
      put pa bytes
      if bytes.length ≠ n then pure (-1)
      else loadsegLoop pagetable va ip offset sz k (i + PGSIZE)

def loadseg (pagetable va : Nat) (ip : Image) (offset sz : Nat) : M Int :=
  loadsegLoop pagetable va ip offset sz (pagesBetween 0 sz) 0

/-- The loop of `exec` over `k` program headers at `off`, with the size so far; `false`
for its `goto bad`. -/
def loadLoop (pagetable : Nat) (ip : Image) : Nat → Nat → Nat → M (Bool × Nat)
  | 0, _, sz => pure (true, sz)
  | k + 1, off, sz =>
    let ph := ip.readi (off % 2 ^ 32) PROGHDR
    let vaddr := field ph 16 8
    let filesz := field ph 32 8
    let memsz := field ph 40 8
    if ph.length ≠ PROGHDR then pure (false, sz)
    else if field ph 0 4 ≠ ELF_PROG_LOAD then loadLoop pagetable ip k (off + PROGHDR) sz
    else if memsz < filesz then pure (false, sz)
    else if (vaddr + memsz) % 2 ^ 64 < vaddr then pure (false, sz)
    else if vaddr % PGSIZE ≠ 0 then pure (false, sz)
    else do
      let sz1 ← uvmalloc L pagetable sz ((vaddr + memsz) % 2 ^ 64) (flags2perm (field ph 4 4))
      if sz1 = 0 then pure (false, sz)
      else do
        let r ← loadseg pagetable vaddr ip (field ph 8 8 % 2 ^ 32) (filesz % 2 ^ 32)
        if r < 0 then pure (false, sz1)
        else loadLoop pagetable ip k (off + PROGHDR) sz1

/-! ## The arguments -/

/-- `strlen` of a string in one page. -/
def strlen (a : Nat) : M Nat := do
  let bytes ← fetch a PGSIZE
  pure (bytes.takeWhile (· ≠ 0)).length

/-- `sp -= n`, then down to a multiple of 16. -/
def push (sp n : Nat) : Nat := (sp + 2 ^ 64 - n) % 2 ^ 64 / 16 * 16

/-- The loop of `exec` that copies the argument strings to the stack: the stack pointer
and the addresses of the strings, or `none` for its `goto bad`. -/
def pushArgs (pagetable stackbase : Nat) : List Nat → Nat → List Nat → M (Option (Nat × List Nat))
  | [], sp, ustack => pure (some (sp, ustack))
  | arg :: argv, sp, ustack =>
    if MAXARG ≤ ustack.length then pure none
    else do
      let len ← strlen arg
      let bytes ← fetch arg (len + 1)
      let sp := push sp (len + 1)
      if sp < stackbase then pure none
      else do
        let r ← copyout pagetable sp bytes
        if r < 0 then pure none
        else pushArgs pagetable stackbase argv sp (ustack ++ [sp])

/-- The bytes of an array of 64-bit words. -/
def wordBytes (ws : List Nat) : List UInt8 :=
  ws.flatMap fun w => (List.range 8).map fun i => UInt8.ofNat (w / 256 ^ i)

/-- The offsets of `epc`, `sp` and `a1` in `struct trapframe`. -/
def TF_EPC : Nat := 24
def TF_SP : Nat := 48
def TF_A0 : Nat := 112
def TF_A1 : Nat := 120

/-- `bad:` in `exec`, where there is a page table. -/
def execBad (pagetable sz : Nat) : M (Option (Nat × Nat × Nat)) := do
  proc_freepagetable L pagetable sz
  pure none

/-- `exec` from the user stack on, when the program is loaded up to `sz`. -/
def execStack (tf old oldsz entry : Nat) (argv : List Nat) (pagetable sz : Nat) :
    M (Option (Nat × Nat × Nat)) := do
  let sz1 ← uvmalloc L pagetable sz ((sz + 2 * PGSIZE) % 2 ^ 64) PTE_W
  if sz1 = 0 then execBad L pagetable sz
  else do
    uvmclear pagetable (sz1 - 2 * PGSIZE)
    let args ← pushArgs pagetable (sz1 - PGSIZE) argv sz1 []
    match args with
    | none => execBad L pagetable sz1
    | some (sp, ustack) =>
      let sp := push sp ((ustack.length + 1) * 8)
      if sp < sz1 - PGSIZE then execBad L pagetable sz1
      else do
        let r ← copyout pagetable sp (wordBytes (ustack ++ [0]))
        if r < 0 then execBad L pagetable sz1
        else do
          store (tf + TF_A1) 8 sp
          store (tf + TF_EPC) 8 entry
          store (tf + TF_SP) 8 sp
          proc_freepagetable L old oldsz
          pure (some (pagetable, sz1, ustack.length))

/-- `exec` while the file is locked: the header is checked and the program loaded. Its results are
whether that went well, the page table, if there is one, its size and the entry point. -/
def execFile (tf : Nat) (ip : Image) : M (Bool × Nat × Nat × Nat) :=
  let elf := ip.readi 0 ELFHDR
  if elf.length ≠ ELFHDR then pure (false, 0, 0, 0)
  else if field elf 0 4 ≠ ELF_MAGIC then pure (false, 0, 0, 0)
  else do
    let pagetable ← proc_pagetable L tf
    if pagetable = 0 then pure (false, 0, 0, 0)
    else do
      let (ok, sz) ← loadLoop L pagetable ip (field elf 56 2) (field elf 32 8) 0
      pure (ok, pagetable, sz, field elf 24 8)

/-! ## The arguments of `sys_exec` -/

def fetchaddr (pagetable sz addr : Nat) : M (Option Nat) :=
  if sz ≤ addr ∨ sz < (addr + 8) % 2 ^ 64 then pure none
  else do
    let (ok, bytes) ← copyin pagetable addr 8
    pure (if ok then some (field bytes 0 8) else none)

/-- The loop of `sys_exec` with `k` entries of `argv` left: whether the list was ended by
a zero, and the pages in `argv`. -/
def argvLoop (pagetable sz uargv : Nat) : Nat → List Nat → M (Bool × List Nat)
  | 0, argv => pure (false, argv)
  | k + 1, argv => do
    let uarg ← fetchaddr pagetable sz ((uargv + 8 * argv.length) % 2 ^ 64)
    match uarg with
    | none => pure (false, argv)
    | some 0 => pure (true, argv)
    | some (uarg + 1) => do
      let page ← kalloc
      if page = 0 then pure (false, argv)
      else do
        let (ok, bytes) ← copyinstr pagetable (uarg + 1) PGSIZE
        put page bytes
        if ok = false then pure (false, argv ++ [page])
        else argvLoop pagetable sz uargv k (argv ++ [page])

def freeArgs : List Nat → M Unit
  | [] => pure ()
  | arg :: argv => do
    kfree L arg
    freeArgs argv

end Xv6.Vm
