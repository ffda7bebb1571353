import Xv6.Vm.Exec
import Mathlib.Data.Fintype.Basic

/-!
# Processes, open files and their system calls

`kernel/proc.c`, `kernel/file.c`, `kernel/pipe.c` and the system calls that take and
give back pages: `fork`, `exec`, `sbrk`, `exit`, `wait`, `pipe`, `dup` and `close`. A
system call runs to its end before the next one starts; what other processors do to
the allocator meanwhile is in `Kmem.oom`. Of the file system there are the references to
inodes, their locks and the number of operations that are in the log; what a path leads to
is given with the call. `boot` takes the pages of the kernel's page
table, its stacks and the disk driver as a number, and then makes the first process.
-/
namespace Xv6.Vm

open Lib.Bytes Function

set_option autoImplicit false

def NPROC : Nat := 64
def NOFILE : Nat := 16
def NFILE : Nat := 100
def NINODE : Nat := 50

inductive ProcState where
  | UNUSED | USED | RUNNABLE | ZOMBIE
  deriving DecidableEq, Repr

/-- `struct proc`. `SLEEPING` and `RUNNING` count as `RUNNABLE`; a null `parent` or file
is `none`, and so is a null `cwd`. -/
structure Proc where
  state : ProcState
  pid : Nat
  parent : Option (Fin NPROC)
  xstate : Nat
  sz : Nat
  pagetable : Nat
  trapframe : Nat
  ofile : Fin NOFILE → Option (Fin NFILE)
  cwd : Option (Fin NINODE)
  name : List UInt8

inductive FileType where
  | FD_NONE | FD_PIPE
  deriving DecidableEq, Repr

/-- `struct file`. -/
structure File where
  type : FileType
  ref : Nat
  readable : Bool
  writable : Bool
  pipe : Nat
  deriving DecidableEq, Repr

/-- An entry of the inode table, as far as system calls outside of the file system use it. -/
structure Inode where
  ref : Nat
  locked : Bool
  deriving DecidableEq, Repr

/-- The kernel's tables. `fixed` lists the pages that the kernel took at boot, `outstanding` is the
log's count of the operations that have begun. -/
structure Tables where
  proc : Fin NPROC → Proc
  file : Fin NFILE → File
  inode : Fin NINODE → Inode
  outstanding : Int
  nextpid : Nat
  initproc : Fin NPROC
  fixed : List Nat

/-- Kernel code that uses the tables besides the memory. -/
abbrev S := StateT Tables M

/-- Run a function of `kalloc.c` or `vm.c`. -/
def vm {α : Type} (f : M α) : S α := fun s k =>
  match f k with
  | .ok (a, k) => .ok ((a, s), k)
  | .error e => .error e

def tables : S Tables := fun s k => .ok ((s, s), k)

def setTables (t : Tables) : S Unit := fun _ k => .ok (((), t), k)

def stop {α : Type} (p : Panic) : S α := fun _ _ => .error p

def Tables.setProc (s : Tables) (i : Fin NPROC) (p : Proc) : Tables :=
  { s with proc := update s.proc i p }

def Proc.setFd (p : Proc) (fd : Fin NOFILE) (f : Option (Fin NFILE)) : Proc :=
  { p with ofile := update p.ofile fd f }

def Tables.setFd (s : Tables) (i : Fin NPROC) (fd : Fin NOFILE) (f : Option (Fin NFILE)) : Tables :=
  s.setProc i ((s.proc i).setFd fd f)

def Tables.setFile (s : Tables) (f : Fin NFILE) (x : File) : Tables :=
  { s with file := update s.file f x }

def Tables.setInode (s : Tables) (ip : Fin NINODE) (x : Inode) : Tables :=
  { s with inode := update s.inode ip x }

def setProc (i : Fin NPROC) (p : Proc) : S Unit := fun s k => .ok (((), s.setProc i p), k)

def setFd (i : Fin NPROC) (fd : Fin NOFILE) (f : Option (Fin NFILE)) : S Unit := fun s k =>
  .ok (((), s.setFd i fd f), k)

def setFile (f : Fin NFILE) (x : File) : S Unit := fun s k => .ok (((), s.setFile f x), k)

def myproc (i : Fin NPROC) : S Proc := fun s k => .ok ((s.proc i, s), k)

def getFile (f : Fin NFILE) : S File := fun s k => .ok ((s.file f, s), k)

def getInode (ip : Fin NINODE) : S Inode := fun s k => .ok ((s.inode ip, s), k)

def setInode (ip : Fin NINODE) (x : Inode) : S Unit := fun s k => .ok (((), s.setInode ip x), k)

variable (L : Layout)

/-! ## `pipe.c` and `file.c` -/

/-- The offsets of the fields of `struct pipe`. -/
def PIPE_NREAD : Nat := 536
def PIPE_NWRITE : Nat := 540
def PIPE_READOPEN : Nat := 544
def PIPE_WRITEOPEN : Nat := 548

def pipeclose (pi : Nat) (writable : Bool) : M Unit := do
  store (pi + if writable then PIPE_WRITEOPEN else PIPE_READOPEN) 4 0
  let readopen ← load (pi + PIPE_READOPEN) 4
  let writeopen ← load (pi + PIPE_WRITEOPEN) 4
  ifDo (readopen = 0 ∧ writeopen = 0) (kfree L pi)

/-- The first file with no references, now with one. -/
def filealloc : S (Option (Fin NFILE)) := do
  let s ← tables
  match (List.finRange NFILE).find? fun f => (s.file f).ref = 0 with
  | none => pure none
  | some f => do
    setFile f { s.file f with ref := 1 }
    pure (some f)

def filedup (f : Fin NFILE) : S Unit := do
  let x ← getFile f
  if x.ref < 1 then stop .filedup else setFile f { x with ref := x.ref + 1 }

def fileclose (f : Fin NFILE) : S Unit := do
  let x ← getFile f
  if x.ref < 1 then stop .fileclose
  else if 0 < x.ref - 1 then setFile f { x with ref := x.ref - 1 }
  else do
    setFile f { x with ref := 0, type := .FD_NONE }
    if x.type = .FD_PIPE then vm (pipeclose L x.pipe x.writable) else pure ()

/-- The fields of a new pipe. -/
def initPipe (pi : Nat) : M Unit := do
  store (pi + PIPE_READOPEN) 4 1
  store (pi + PIPE_WRITEOPEN) 4 1
  store (pi + PIPE_NWRITE) 4 0
  store (pi + PIPE_NREAD) 4 0

/-- `pipealloc` once both files were had: the pipe and its two ends. -/
def pipeEnds (f0 f1 : Fin NFILE) : S (Option (Fin NFILE × Fin NFILE)) := do
  let pi ← vm kalloc
  if pi = 0 then do
    fileclose L f0
    fileclose L f1
    pure none
  else do
    vm (initPipe pi)
    let x0 ← getFile f0
    setFile f0 { x0 with type := .FD_PIPE, readable := true, writable := false, pipe := pi }
    let x1 ← getFile f1
    setFile f1 { x1 with type := .FD_PIPE, readable := false, writable := true, pipe := pi }
    pure (some (f0, f1))

def pipealloc : S (Option (Fin NFILE × Fin NFILE)) := do
  let f0 ← filealloc
  match f0 with
  | none => pure none
  | some f0 => do
    let f1 ← filealloc
    match f1 with
    | none => do
      fileclose L f0
      pure none
    | some f1 => pipeEnds L f0 f1

/-- The first free descriptor, now for the file `f`. -/
def fdalloc (i : Fin NPROC) (f : Fin NFILE) : S (Option (Fin NOFILE)) := do
  let p ← myproc i
  match (List.finRange NOFILE).find? fun fd => p.ofile fd = none with
  | none => pure none
  | some fd => do
    setFd i fd (some f)
    pure (some fd)

def sys_dup (i : Fin NPROC) (fd : Fin NOFILE) : S Int := do
  let p ← myproc i
  match p.ofile fd with
  | none => pure (-1)
  | some f => do
    let r ← fdalloc i f
    match r with
    | none => pure (-1)
    | some fd => do
      filedup f
      pure fd.val

def sys_close (i : Fin NPROC) (fd : Fin NOFILE) : S Int := do
  let p ← myproc i
  match p.ofile fd with
  | none => pure (-1)
  | some f => do
    setFd i fd none
    fileclose L f
    pure 0

/-- Close both ends of a pipe that could not be handed over. -/
def closeBoth (rf wf : Fin NFILE) : S Int := do
  fileclose L rf
  fileclose L wf
  pure (-1)

/-- The bytes of an `int`. -/
def intBytes (n : Nat) : List UInt8 := (List.range 4).map fun k => UInt8.ofNat (n / 256 ^ k)

/-- `sys_pipe` once both descriptors were had: tell the process, or undo everything. -/
def pipeTell (i : Fin NPROC) (fdarray : Nat) (rf wf : Fin NFILE) (fd0 fd1 : Fin NOFILE) : S Int := do
  let p ← myproc i
  let r0 ← vm (copyout p.pagetable fdarray (intBytes fd0))
  if r0 < 0 then do
    setFd i fd0 none
    setFd i fd1 none
    closeBoth L rf wf
  else do
    let r1 ← vm (copyout p.pagetable ((fdarray + 4) % 2 ^ 64) (intBytes fd1))
    if r1 < 0 then do
      setFd i fd0 none
      setFd i fd1 none
      closeBoth L rf wf
    else pure 0

def sys_pipe (i : Fin NPROC) (fdarray : Nat) : S Int := do
  let r ← pipealloc L
  match r with
  | none => pure (-1)
  | some (rf, wf) => do
    let fd0 ← fdalloc i rf
    match fd0 with
    | none => closeBoth L rf wf
    | some fd0 => do
      let fd1 ← fdalloc i wf
      match fd1 with
      | none => do
        setFd i fd0 none
        closeBoth L rf wf
      | some fd1 => pipeTell L i fdarray rf wf fd0 fd1

/-! ## Inodes and the log -/

def begin_op : S Unit := do
  let s ← tables
  setTables { s with outstanding := s.outstanding + 1 }

def end_op : S Unit := do
  let s ← tables
  setTables { s with outstanding := s.outstanding - 1 }

def idup (ip : Fin NINODE) : S Unit := do
  let x ← getInode ip
  setInode ip { x with ref := x.ref + 1 }

/-- `iput`; that it frees the blocks of a file without links is left to the file system. -/
def iput (ip : Fin NINODE) : S Unit := do
  let x ← getInode ip
  setInode ip { x with ref := x.ref - 1 }

/-- `ilock`, when nobody else has the lock any more. -/
def ilock (ip : Fin NINODE) : S Unit := do
  let x ← getInode ip
  if x.ref < 1 then stop .ilock else setInode ip { x with locked := true }

def iunlock (ip : Fin NINODE) : S Unit := do
  let x ← getInode ip
  if x.locked = false ∨ x.ref < 1 then stop .iunlock else setInode ip { x with locked := false }

def iunlockput (ip : Fin NINODE) : S Unit := do
  iunlock ip
  iput ip

/-- What the directories say about paths: the entry of the inode table for the file and its
content. -/
abbrev Directory := List UInt8 → Option (Fin NINODE × Image)

/-- `namei` takes a reference to the inode it finds. -/
def namei (dir : Directory) (path : List UInt8) : S (Option (Fin NINODE × Image)) :=
  match dir path with
  | none => pure none
  | some (ip, image) => do
    idup ip
    pure (some (ip, image))

/-! ## `proc.c` -/

/-- `safestrcpy` to an array of `n` bytes. -/
def safestrcpy (n : Nat) (t : List UInt8) : List UInt8 := (t.takeWhile (· ≠ 0)).take (n - 1)

/-- The size of `name` in `struct proc`. -/
def NAMESIZE : Nat := 16

def freeproc (i : Fin NPROC) : S Unit := do
  let p ← myproc i
  vm (ifDo (p.trapframe ≠ 0) (kfree L p.trapframe))
  vm (ifDo (p.pagetable ≠ 0) (proc_freepagetable L p.pagetable p.sz))
  setProc i { p with trapframe := 0, pagetable := 0, sz := 0, pid := 0, parent := none,
                     name := [], xstate := 0, state := .UNUSED }

/-- `allocproc` for the unused process `i`. -/
def initProc (i : Fin NPROC) : S (Option (Fin NPROC)) := do
  let s ← tables
  setTables { s with nextpid := s.nextpid + 1 }
  let trapframe ← vm kalloc
  let p ← myproc i
  setProc i { p with pid := s.nextpid, state := .USED, trapframe := trapframe }
  if trapframe = 0 then do
    freeproc L i
    pure none
  else do
    let pagetable ← vm (proc_pagetable L trapframe)
    let p ← myproc i
    setProc i { p with pagetable := pagetable }
    if pagetable = 0 then do
      freeproc L i
      pure none
    else pure (some i)

def allocproc : S (Option (Fin NPROC)) := do
  let s ← tables
  match (List.finRange NPROC).find? fun i => (s.proc i).state = .UNUSED with
  | none => pure none
  | some i => initProc L i

def growproc (i : Fin NPROC) (n : Int) : S Int := do
  let p ← myproc i
  if 0 < n then do
    let sz ← vm (uvmalloc L p.pagetable p.sz ((p.sz + n) % 2 ^ 64).toNat PTE_W)
    if sz = 0 then pure (-1)
    else do
      setProc i { p with sz := sz }
      pure 0
  else if n < 0 then do
    let sz ← vm (uvmdealloc L p.pagetable p.sz ((p.sz + n) % 2 ^ 64).toNat)
    setProc i { p with sz := sz }
    pure 0
  else pure 0

/-- The value of `sys_sbrk` is the old size. -/
def sys_sbrk (i : Fin NPROC) (n : Int32) : S Int := do
  let p ← myproc i
  let r ← growproc L i n.toInt
  if r < 0 then pure (-1) else pure p.sz

/-- The loop of `fork` over the open files: the child `j` gets those of `i`. -/
def dupFiles (i j : Fin NPROC) : List (Fin NOFILE) → S Unit
  | [] => pure ()
  | fd :: fds => do
    let p ← myproc i
    match p.ofile fd with
    | none => dupFiles i j fds
    | some f => do
      filedup f
      setFd j fd (some f)
      dupFiles i j fds

/-- `sizeof(struct trapframe)`. -/
def TRAPFRAMESIZE : Nat := 288

/-- The end of `fork`: the working directory, the name and the parent of the child. -/
def startChild (i j : Fin NPROC) : S Int := do
  let p ← myproc i
  match p.cwd with
  | none => stop .nullInode
  | some ip => do
    idup ip
    let np ← myproc j
    setProc j { np with cwd := some ip, name := safestrcpy NAMESIZE p.name, parent := some i,
                        state := .RUNNABLE }
    pure np.pid

/-- `fork` once there is a process `j` for the child. -/
def forkInto (i j : Fin NPROC) : S Int := do
  let p ← myproc i
  let np ← myproc j
  let r ← vm (uvmcopy L p.pagetable np.pagetable p.sz)
  if r < 0 then do
    freeproc L j
    pure (-1)
  else do
    setProc j { np with sz := p.sz }
    vm (memmove np.trapframe p.trapframe TRAPFRAMESIZE)
    vm (store (np.trapframe + TF_A0) 8 0)
    dupFiles i j (List.finRange NOFILE)
    startChild i j

def fork (i : Fin NPROC) : S Int := do
  let r ← allocproc L
  match r with
  | none => pure (-1)
  | some j => forkInto L i j

/-- The loop of `exit` over the open files. -/
def closeFiles (i : Fin NPROC) : List (Fin NOFILE) → S Unit
  | [] => pure ()
  | fd :: fds => do
    let p ← myproc i
    match p.ofile fd with
    | none => closeFiles i fds
    | some f => do
      fileclose L f
      setFd i fd none
      closeFiles i fds

/-- The children of `i` go to `init`. -/
def Tables.reparent (s : Tables) (i : Fin NPROC) : Tables :=
  { s with proc := fun j =>
      let p := s.proc j
      if p.parent = some i then { p with parent := some s.initproc } else p }

/-- `exit` gives its working directory up. -/
def leaveCwd (i : Fin NPROC) : S Unit := do
  let p ← myproc i
  match p.cwd with
  | none => stop .nullInode
  | some ip => do
    begin_op
    iput ip
    end_op
    setProc i { p with cwd := none }

def exit (i : Fin NPROC) (status : Nat) : S Unit := do
  let s ← tables
  if i = s.initproc then stop .initExiting
  else do
    closeFiles L i (List.finRange NOFILE)
    leaveCwd i
    let s ← tables
    setTables (s.reparent i)
    let p ← myproc i
    setProc i { p with xstate := status, state := .ZOMBIE }

/-- `wait` once the dead child `j` was found. -/
def reap (i : Fin NPROC) (addr : Nat) (j : Fin NPROC) : S Int := do
  let p ← myproc i
  let c ← myproc j
  if addr = 0 then do
    freeproc L j
    pure c.pid
  else do
    let r ← vm (copyout p.pagetable addr (intBytes c.xstate))
    if r < 0 then pure (-1)
    else do
      freeproc L j
      pure c.pid

/-- A round of `wait` over the process table; `none` where the process goes to sleep. -/
def wait (i : Fin NPROC) (addr : Nat) : S (Option Int) := do
  let s ← tables
  match (List.finRange NPROC).find? fun j =>
      (s.proc j).parent = some i ∧ (s.proc j).state = .ZOMBIE with
  | some j => do
    let pid ← reap L i addr j
    pure (some pid)
  | none => if ∃ j, (s.proc j).parent = some i then pure none else pure (some (-1))

/-! ## `exec` -/

/-- The part of a path after its last slash. -/
def lastPart (path : List UInt8) : List UInt8 :=
  ((path.takeWhile (· ≠ 0)).reverse.takeWhile (· ≠ 47)).reverse

/-- `exec` from the user stack on, when the file is released; `entry` and the program up to `sz`
come from it. -/
def execImage (i : Fin NPROC) (path : List UInt8) (argv : List Nat) (pagetable sz entry : Nat) :
    S Int := do
  let p ← myproc i
  let r ← vm (execStack L p.trapframe p.pagetable p.sz entry argv pagetable (PGROUNDUP sz))
  match r with
  | none => pure (-1)
  | some (pagetable, sz, argc) => do
    setProc i { p with pagetable := pagetable, sz := sz, name := safestrcpy NAMESIZE (lastPart path) }
    pure argc

/-- `exec` once the file is found. -/
def execFound (i : Fin NPROC) (path : List UInt8) (argv : List Nat) (ip : Fin NINODE) (image : Image) :
    S Int := do
  ilock ip
  let p ← myproc i
  let (ok, pagetable, sz, entry) ← vm (execFile L p.trapframe image)
  if ok = false then do
    vm (ifDo (pagetable ≠ 0) (proc_freepagetable L pagetable sz))
    iunlockput ip
    end_op
    pure (-1)
  else do
    iunlockput ip
    end_op
    execImage L i path argv pagetable sz entry

def exec (i : Fin NPROC) (dir : Directory) (path : List UInt8) (argv : List Nat) : S Int := do
  begin_op
  let found ← namei dir path
  match found with
  | none => do
    end_op
    pure (-1)
  | some (ip, image) => execFound L i path argv ip image

/-- `sys_exec` with its two user addresses. -/
def sys_exec (i : Fin NPROC) (upath uargv : Nat) (dir : Directory) : S Int := do
  let p ← myproc i
  let (ok, path) ← vm (copyinstr p.pagetable upath MAXPATH)
  if ok = false then pure (-1)
  else do
    let (ok, argv) ← vm (argvLoop p.pagetable p.sz uargv MAXARG [])
    if ok = false then do
      vm (freeArgs L argv)
      pure (-1)
    else do
      let ret ← exec L i dir path argv
      vm (freeArgs L argv)
      pure ret

/-! ## The system -/

inductive Call where
  | fork
  | exec (upath uargv : Nat) (dir : Directory)
  | sbrk (n : Int32)
  | exit (status : Nat)
  | wait (addr : Nat)
  | pipe (fdarray : Nat)
  | dup (fd : Fin NOFILE)
  | close (fd : Fin NOFILE)
  /-- Not a system call: the process writes to its memory. -/
  | poke (va : Nat) (bytes : List UInt8)

def poke (i : Fin NPROC) (va : Nat) (bytes : List UInt8) : S Int := do
  let p ← myproc i
  vm (copyout p.pagetable va bytes)

/-- Run a call whose result nobody asks for. -/
def discard {α : Type} (f : S α) : S Unit := do
  let _ ← f
  pure ()

def Call.run (i : Fin NPROC) : Call → S Unit
  | .fork => discard (Vm.fork L i)
  | .exec upath uargv dir => discard (sys_exec L i upath uargv dir)
  | .sbrk n => discard (sys_sbrk L i n)
  | .exit status => Vm.exit L i status
  | .wait addr => discard (Vm.wait L i addr)
  | .pipe fdarray => discard (sys_pipe L i fdarray)
  | .dup fd => discard (sys_dup i fd)
  | .close fd => discard (sys_close L i fd)
  | .poke va bytes => discard (Vm.poke i va bytes)

/-- A system call of the process `caller`, with the calls of `kalloc` that find nothing. -/
structure Label where
  caller : Fin NPROC
  call : Call
  oom : List Bool

structure Sys where
  tab : Tables
  kmem : Kmem

/-- The state that a piece of kernel code leaves behind. -/
def Sys.exec (s : Sys) (f : S Unit) : Except Panic Sys :=
  match f s.tab s.kmem with
  | .ok (((), t), k) => .ok ⟨t, k⟩
  | .error e => .error e

/-- One system call; a process that does not run makes none. -/
def step (s : Sys) (l : Label) : Except Panic Sys :=
  if (s.tab.proc l.caller).state = .RUNNABLE then
    Sys.exec ⟨s.tab, { s.kmem with oom := l.oom }⟩ (l.call.run L l.caller)
  else .ok s

/-- A sequence of system calls, up to the first panic. -/
def runCalls (s : Sys) : List Label → Except Panic Sys
  | [] => .ok s
  | l :: ls =>
    match step L s l with
    | .ok t => runCalls t ls
    | .error e => .error e

/-! ## Boot -/

/-- `kvminit`, `proc_mapstacks` and `virtio_disk_init` take `n` pages and keep them. -/
def takePages : Nat → S Unit
  | 0 => pure ()
  | n + 1 => do
    let pa ← vm kalloc
    if pa = 0 then stop .kalloc
    else do
      let s ← tables
      setTables { s with fixed := pa :: s.fixed }
      takePages n

def uvmfirst (pagetable : Nat) (src : List UInt8) : M Unit :=
  if PGSIZE ≤ src.length then panic .uvmfirst
  else do
    let mem ← kalloc
    if mem = 0 then panic .nullPage
    else do
      memset mem 0 PGSIZE
      let _ ← mappages pagetable 0 PGSIZE mem (PTE_W ||| PTE_R ||| PTE_X ||| PTE_U)
      put mem src

def initcode : List UInt8 :=
  [0x17, 0x05, 0x00, 0x00, 0x13, 0x05, 0x45, 0x02,
   0x97, 0x05, 0x00, 0x00, 0x93, 0x85, 0x35, 0x02,
   0x93, 0x08, 0x70, 0x00, 0x73, 0x00, 0x00, 0x00,
   0x93, 0x08, 0x20, 0x00, 0x73, 0x00, 0x00, 0x00,
   0xef, 0xf0, 0x9f, 0xff, 0x2f, 0x69, 0x6e, 0x69,
   0x74, 0x00, 0x00, 0x24, 0x00, 0x00, 0x00, 0x00,
   0x00, 0x00, 0x00, 0x00]

/-- `"initcode"`. -/
def initname : List UInt8 := [105, 110, 105, 116, 99, 111, 100, 101]

/-- The entry of the inode table that the root directory gets, the first one. -/
def ROOTSLOT : Fin NINODE := ⟨0, by decide⟩

def userinit : S Unit := do
  let r ← allocproc L
  match r with
  | none => stop .nullPage
  | some i => do
    let p ← myproc i
    vm (uvmfirst p.pagetable initcode)
    vm (store (p.trapframe + TF_EPC) 8 0)
    vm (store (p.trapframe + TF_SP) 8 PGSIZE)
    let s ← tables
    setTables { s with initproc := i }
    idup ROOTSLOT
    setProc i { p with sz := PGSIZE, name := initname, cwd := some ROOTSLOT, state := .RUNNABLE }

/-- The state in which `main` starts: the memory is arbitrary, the tables are zero. -/
def reset (mem : Mem) : Sys where
  tab :=
    { proc := fun _ => ⟨.UNUSED, 0, none, 0, 0, 0, 0, fun _ => none, none, []⟩
      file := fun _ => ⟨.FD_NONE, 0, false, false, 0⟩
      inode := fun _ => ⟨0, false⟩
      outstanding := 0
      nextpid := 1
      initproc := ⟨0, by decide⟩
      fixed := [] }
  kmem := { mem := mem, freelist := 0, oom := [] }

/-- `main`, when the parts of the kernel take `taken` pages. -/
def boot (mem : Mem) (taken : Nat) : Except Panic Sys :=
  (reset mem).exec do
    vm (kinit L)
    takePages taken
    userinit L

end Xv6.Vm
