import Xv6.Names.Model

/-!
# Files, processes and system calls

The system calls of `kernel/sysfile.c` on names, files and pipes with `fork` and `exit` of `proc.c`,
one call after the other, over the routines of `file.c` and `pipe.c`.
-/
namespace Xv6.Names

open Function

set_option autoImplicit false

/-! ## Files -/

def setFile (f : FileId) (x : File) : Kernel PUnit :=
  modify fun w => { w with ftable := update w.ftable f x }

def setProc (p : Pid) (x : Proc) : Kernel PUnit :=
  modify fun w => { w with proc := update w.proc p x }

/-- An assignment to `f->type` and to the field that goes with it. -/
def setKind (f : FileId) (kind : Kind) : Kernel PUnit :=
  modify fun w => { w with ftable := update w.ftable f { w.ftable f with kind := kind } }

def filealloc : Kernel (Option FileId) := do
  let w ← get
  match (List.finRange NFILE).find? fun f => (w.ftable f).ref = 0 with
  | none => pure none
  | some f => do
    setFile f { w.ftable f with ref := 1 }
    pure (some f)

def filedup (f : FileId) : Kernel PUnit := do
  let w ← get
  if (w.ftable f).ref < 1 then throw .filedup
  else setFile f { w.ftable f with ref := (w.ftable f).ref + 1 }

/-- A pipe of which an end is closed; `none` if both are, and it is freed. -/
def Pipe.shut (x : Pipe) (writable : Bool) : Option Pipe :=
  let x := if writable then { x with writeopen := false } else { x with readopen := false }
  if x.readopen = false ∧ x.writeopen = false then none else some x

def pipeclose (pi : Nat) (writable : Bool) : Kernel PUnit :=
  modify fun w =>
    { w with pipe := update w.pipe pi ((w.pipe pi).bind fun x => x.shut writable) }

def fileclose (f : FileId) : Kernel PUnit := do
  let w ← get
  let x := w.ftable f
  if x.ref < 1 then throw .fileclose
  else if 0 < x.ref - 1 then setFile f { x with ref := x.ref - 1 }
  else
    setFile f ⟨0, .none⟩
    match x.kind with
    | .none => pure ()
    | .pipe pi writable => pipeclose pi writable
    | .inode ip => iput ip
    | .device ip _ => iput ip

/-- An assignment to `p->ofile[fd]`. -/
def setOfile (p : Pid) (fd : Fin NOFILE) (x : Option FileId) : Kernel PUnit :=
  modify fun w =>
    { w with
      proc := update w.proc p
        { w.proc p with ofile := update (w.proc p).ofile fd x } }

def fdalloc (p : Pid) (f : FileId) : Kernel (Option (Fin NOFILE)) := do
  let w ← get
  match (List.finRange NOFILE).find? fun fd => (w.proc p).ofile fd = none with
  | none => pure none
  | some fd => do
    setOfile p fd (some f)
    pure (some fd)

/-- `pipealloc`; `memory` says whether `kalloc` finds a page. -/
def pipealloc (memory : Bool) : Kernel (Option (FileId × FileId)) := do
  match ← filealloc with
  | none => pure none
  | some f0 =>
    match ← filealloc with
    | none => do
      fileclose f0
      pure none
    | some f1 =>
      if memory then do
        let w ← get
        modify fun w =>
          { w with
            pipe := update w.pipe w.npipe (some ⟨true, true⟩)
            npipe := w.npipe + 1 }
        setKind f0 (.pipe w.npipe false)
        setKind f1 (.pipe w.npipe true)
        pure (some (f0, f1))
      else do
        fileclose f0
        fileclose f1
        pure none

/-! ## System calls

The answer is `none` for -1. -/

/-- The file of the inode `ip`, whose type has been checked. -/
def openFile (p : Pid) (ip : Id) (i : Inode) (omode : Nat) : Kernel (Option Nat) := do
  match ← filealloc with
  | none => do
    iput ip
    pure none
  | some f =>
    match ← fdalloc p f with
    | none => do
      fileclose f
      iput ip
      pure none
    | some fd => do
      setKind f (if i.type = .device then .device ip i.major else .inode ip)
      if omode &&& O_TRUNC ≠ 0 ∧ i.type = .file then
        let w ← get
        let inum := (w.itable ip).inum
        setInode inum (w.inode inum).truncated
      pure (some fd.val)

/-- The checks of `sys_open` on the inode. -/
def openInode (p : Pid) (ip : Id) (i : Inode) (omode : Nat) : Kernel (Option Nat) := do
  if i.type = .device ∧ (i.major < 0 ∨ NDEV ≤ i.major) then
    iput ip
    pure none
  else openFile p ip i omode

def sysOpen (p : Pid) (path : List UInt8) (omode : Nat) (env : Env) : Kernel (Option Nat) := do
  if omode &&& O_CREATE ≠ 0 then
    match ← create p path .file 0 0 env with
    | none => pure none
    | some ip => do
      let w ← get
      openInode p ip (w.inode (w.itable ip).inum) omode
  else
    match ← namei p path (env.buf 0) with
    | none => pure none
    | some (ip, _) => do
      let i ← ilock ip
      if i.type = .dir ∧ omode ≠ 0 then
        iput ip
        pure none
      else openInode p ip i omode

/-- `sys_mkdir` and `sys_mknod` after they have fetched their arguments. -/
def sysMake (p : Pid) (path : List UInt8) (type : Ty) (major minor : Int) (env : Env) :
    Kernel (Option Nat) := do
  match ← create p path type major minor env with
  | none => pure none
  | some ip => do
    iput ip
    pure (some 0)

def sysMkdir (p : Pid) (path : List UInt8) (env : Env) : Kernel (Option Nat) :=
  sysMake p path .dir 0 0 env

def sysMknod (p : Pid) (path : List UInt8) (major minor : Int) (env : Env) : Kernel (Option Nat) :=
  sysMake p path .device (short major) (short minor) env

def sysChdir (p : Pid) (path : List UInt8) (env : Env) : Kernel (Option Nat) := do
  match ← namei p path (env.buf 0) with
  | none => pure none
  | some (ip, _) => do
    let i ← ilock ip
    if i.type ≠ .dir then
      iput ip
      pure none
    else
      let w ← get
      match (w.proc p).cwd with
      | none => throw .noCwd
      | some cwd => do
        iput cwd
        let w ← get
        setProc p { w.proc p with cwd := some ip }
        pure (some 0)

def sysDup (p : Pid) (fd : Nat) : Kernel (Option Nat) := do
  let w ← get
  if h : fd < NOFILE then
    match (w.proc p).ofile ⟨fd, h⟩ with
    | none => pure none
    | some f =>
      match ← fdalloc p f with
      | none => pure none
      | some fd => do
        filedup f
        pure (some fd.val)
  else pure none

def sysClose (p : Pid) (fd : Nat) : Kernel (Option Nat) := do
  let w ← get
  if h : fd < NOFILE then
    match (w.proc p).ofile ⟨fd, h⟩ with
    | none => pure none
    | some f => do
      setOfile p ⟨fd, h⟩ none
      fileclose f
      pure (some 0)
  else pure none

/-- The loop of `fork` over the descriptors of the parent. -/
def dupFiles (ofile : Fin NOFILE → Option FileId) : Kernel PUnit :=
  (List.finRange NOFILE).forM fun fd =>
    match ofile fd with
    | none => pure ()
    | some f => filedup f

/-- `fork`; `memory` says whether there is memory for the child. The answer is the child's place in
the process table, which stands for its pid. -/
def sysFork (p : Pid) (memory : Bool) : Kernel (Option Nat) := do
  let w ← get
  match (List.finRange NPROC).find? fun q => (w.proc q).state = .unused with
  | none => pure none
  | some q =>
    if memory then do
      dupFiles (w.proc p).ofile
      match (w.proc p).cwd with
      | none => throw .noCwd
      | some cwd => do
        let cwd ← idup cwd
        setProc q ⟨.live, some cwd, (w.proc p).ofile⟩
        pure (some q.val)
    else pure none

/-- The loop of `exit` over the descriptors. -/
def closeFiles (p : Pid) : Kernel PUnit :=
  (List.finRange NOFILE).forM fun fd => do
    let w ← get
    match (w.proc p).ofile fd with
    | none => pure ()
    | some f => do
      fileclose f
      setOfile p fd none

/-- `exit`; process 0 is `initproc`. -/
def sysExit (p : Pid) : Kernel (Option Nat) := do
  if p.val = 0 then throw .initExiting
  else
    closeFiles p
    let w ← get
    match (w.proc p).cwd with
    | none => throw .noCwd
    | some cwd => do
      iput cwd
      let w ← get
      setProc p { w.proc p with cwd := none, state := .zombie }
      pure (some 0)

/-- The end of `sys_link` when the new name could not be made. -/
def linkBad (ip : Id) : Kernel (Option Nat) := do
  let i ← ilock ip
  let w ← get
  setInode (w.itable ip).inum { i with nlink := short (i.nlink - 1) }
  iput ip
  pure none

def sysLink (p : Pid) (old new : List UInt8) (env : Env) : Kernel (Option Nat) := do
  match ← namei p old (env.buf 0) with
  | none => pure none
  | some (ip, _) => do
    let i ← ilock ip
    if i.type = .dir then
      iput ip
      pure none
    else
      let w ← get
      setInode (w.itable ip).inum { i with nlink := short (i.nlink + 1) }
      match ← nameiparent p new (env.buf 1) with
      | none => linkBad ip
      | some (dp, name) => do
        let _ ← ilock dp
        let w ← get
        if ← dirlink dp name (w.itable ip).inum (env.block 0) then
          iput dp
          iput ip
          pure (some 0)
        else
          iput dp
          linkBad ip

/-- `isdirempty`: nothing but the first two entries. -/
def isdirempty (d : Inode) : Bool := (d.entries.drop 2).all fun de => de.inum = 0

def sysUnlink (p : Pid) (path : List UInt8) (env : Env) : Kernel (Option Nat) := do
  match ← nameiparent p path (env.buf 0) with
  | none => pure none
  | some (dp, name) => do
    let _ ← ilock dp
    if namecmp name dot = 0 ∨ namecmp name dotdot = 0 then
      iput dp
      pure none
    else
      match ← dirlookup dp name with
      | none => do
        iput dp
        pure none
      | some (ip, off) => do
        let i ← ilock ip
        if i.nlink < 1 then throw .nlink
        else if i.type = .dir ∧ isdirempty i = false then
          iput ip
          iput dp
          pure none
        else
          let w ← get
          let d := w.inode (w.itable dp).inum
          setInode (w.itable dp).inum
            { d with
              entries := d.entries.set off ⟨0, List.replicate DIRSIZ 0⟩
              nlink := if i.type = .dir then short (d.nlink - 1) else d.nlink }
          iput dp
          let w ← get
          let i := w.inode (w.itable ip).inum
          setInode (w.itable ip).inum { i with nlink := short (i.nlink - 1) }
          iput ip
          pure (some 0)

/-- `sys_pipe`; `copied` says whether the descriptors reach the process. -/
def sysPipe (p : Pid) (memory copied : Bool) : Kernel (Option Nat) := do
  match ← pipealloc memory with
  | none => pure none
  | some (rf, wf) =>
    match ← fdalloc p rf with
    | none => do
      fileclose rf
      fileclose wf
      pure none
    | some fd0 =>
      match ← fdalloc p wf with
      | none => do
        setOfile p fd0 none
        fileclose rf
        fileclose wf
        pure none
      | some fd1 =>
        if copied then pure (some 0)
        else do
          setOfile p fd0 none
          setOfile p fd1 none
          fileclose rf
          fileclose wf
          pure none

inductive Call where
  | open (path : List UInt8) (omode : Nat) (env : Env)
  | mkdir (path : List UInt8) (env : Env)
  | mknod (path : List UInt8) (major minor : Int) (env : Env)
  | chdir (path : List UInt8) (env : Env)
  | dup (fd : Nat)
  | pipe (memory copied : Bool)
  | close (fd : Nat)
  | fork (memory : Bool)
  | exit
  | link (old new : List UInt8) (env : Env)
  | unlink (path : List UInt8) (env : Env)

def Call.body (p : Pid) : Call → Kernel (Option Nat)
  | .open path omode env => sysOpen p path omode env
  | .mkdir path env => sysMkdir p path env
  | .mknod path major minor env => sysMknod p path major minor env
  | .chdir path env => sysChdir p path env
  | .dup fd => sysDup p fd
  | .pipe memory copied => sysPipe p memory copied
  | .close fd => sysClose p fd
  | .fork memory => sysFork p memory
  | .exit => sysExit p
  | .link old new env => sysLink p old new env
  | .unlink path env => sysUnlink p path env

/-- A call of a process, or the end of a zombie in `wait`. -/
inductive Act where
  | call (p : Pid) (c : Call)
  | reap (p : Pid)

/-- The state after a call that has not stopped the kernel. -/
def step (w : World) : Act → Option World
  | .call p c =>
    if (w.proc p).state = .live then
      match c.body p w with
      | .ok r => some r.2
      | .error _ => none
    else none
  | .reap p =>
    if (w.proc p).state = .zombie then
      some { w with proc := update w.proc p { w.proc p with state := .unused } }
    else none

/-- After `userinit`, with any inodes on disk: one process, in the root directory. -/
def boot (inode : Nat → Inode) (ninodes : Nat) : World where
  inode := inode
  itable := fun ip => if ip.val = 0 then ⟨ROOTINO, 1, false⟩ else ⟨0, 0, false⟩
  ftable := fun _ => ⟨0, .none⟩
  proc := fun p =>
    if p.val = 0 then ⟨.live, some ⟨0, by decide⟩, fun _ => none⟩ else ⟨.unused, none, fun _ => none⟩
  pipe := fun _ => none
  npipe := 0
  ninodes := ninodes

end Xv6.Names
