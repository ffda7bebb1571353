import Xv6.Fs.Blocks
import Xv6.Log.Model

/-!
# The buffer cache of `kernel/bio.c` under the routines of `fs.c` and `log.c`

`N` processes run routines against one cache and one log. A process performs one
operation of its routine at a time. `bread` takes three steps (`bget` under
`bcache.lock`, `acquiresleep`, the read from disk) and `brelse` two (`releasesleep`,
then the rest under `bcache.lock`); the other operations take one. Every process
may start any routine at any time, inside or outside of a transaction, on any
in-memory inode.

`inst` records how many of the listed blocks `install_trans` has copied home and
unpinned in the commit that is running; no branch reads it.
-/
namespace Xv6.Bio

open Function

set_option autoImplicit false

open Xv6.Fs (Op Routine Dinode Src bread load store bwrite bunpin brelse header clear)
open Xv6.Log (Conf putHeader)

def NBUF : Nat := MAXOPBLOCKS * 3

abbrev BufId := Fin NBUF

structure Buf (N : Nat) where
  /-- The block it caches; none since `binit`. -/
  block : Option Nat
  valid : Bool
  refcnt : Nat
  /-- The holder of the sleep-lock. -/
  lock : Option (Fin N)
  data : Block

inductive Panic where
  | fs (m : Fs.Panic)
  | noBuffers
  | bwrite
  | brelse
  | tooBig
  | outsideTrans
  | committing
  deriving DecidableEq, Repr

/-- Where a process is: `getting` waits for the sleep-lock of a buffer that `bget`
has found, `filling` holds it and is about to read the block, `putting` has
released it. -/
inductive Ctl where
  | idle
  | asleep
  | woken
  | run (c : Routine BufId Unit)
  | getting (i : BufId) (k : BufId → Routine BufId Unit)
  | filling (i : BufId) (k : BufId → Routine BufId Unit)
  | putting (i : BufId) (c : Routine BufId Unit)

/-- Outside of `begin_op` and `end_op`, between them, or committing. -/
inductive Role where
  | outside
  | inOp
  | commit
  deriving DecidableEq

structure Sys (N : Nat) where
  disk : Nat → Block
  bufs : BufId → Buf N
  /-- `bcache.head.next` first. -/
  lru : List BufId
  outstanding : Nat
  committing : Bool
  lh : List Nat
  ctl : Fin N → Ctl
  role : Fin N → Role
  panicked : Option Panic
  inst : Nat

variable {N : Nat}

/-- After `binit` and a recovery that found nothing. -/
def init (N : Nat) (disk : Nat → Block) : Sys N where
  disk := disk
  bufs := fun _ => ⟨none, false, 0, none, fun _ => 0⟩
  lru := (List.finRange NBUF).reverse
  outstanding := 0
  committing := false
  lh := []
  ctl := fun _ => .idle
  role := fun _ => .outside
  panicked := none
  inst := 0

namespace Sys

def goto (s : Sys N) (p : Fin N) (c : Ctl) : Sys N := { s with ctl := update s.ctl p c }

def enter (s : Sys N) (p : Fin N) (r : Role) : Sys N :=
  { s with role := update s.role p r }

def setBuf (s : Sys N) (i : BufId) (b : Buf N) : Sys N :=
  { s with bufs := update s.bufs i b }

def panic (s : Sys N) (m : Panic) : Sys N := { s with panicked := some m }

/-- `wakeup(&log)`. -/
def wakeup (s : Sys N) : Sys N :=
  { s with ctl := fun p => match s.ctl p with | .asleep => .woken | c => c }

end Sys

/-! ## Commit -/

variable (c : Conf)

/-- `write_log` from block `tail` on; `log.lh.block` has `LOGSIZE` entries. -/
def writeLog : Nat → Nat → Routine BufId Unit
  | 0, _ => pure ()
  | n + 1, tail => do
    let lh ← header
    if tail < lh.length then
      let dst ← bread (c.start + tail + 1)
      let src ← bread (lh.getD tail 0)
      let x ← load src
      store dst x
      bwrite dst
      brelse src
      brelse dst
      writeLog n (tail + 1)
    else pure ()

def writeHead : Routine BufId Unit := do
  let buf ← bread c.start
  let lh ← header
  let x ← load buf
  store buf (putHeader x lh)
  bwrite buf
  brelse buf

/-- `install_trans(0)` from block `tail` on. -/
def installTrans : Nat → Nat → Routine BufId Unit
  | 0, _ => pure ()
  | n + 1, tail => do
    let lh ← header
    if tail < lh.length then
      let lbuf ← bread (c.start + tail + 1)
      let dbuf ← bread (lh.getD tail 0)
      let x ← load lbuf
      store dbuf x
      bwrite dbuf
      bunpin dbuf
      brelse lbuf
      brelse dbuf
      installTrans n (tail + 1)
    else pure ()

def commit : Routine BufId Unit := do
  let lh ← header
  if 0 < lh.length then
    writeLog c LOGSIZE 0
    writeHead c
    installTrans c LOGSIZE 0
    clear
    writeHead c
  else pure ()

/-! ## Steps -/

/-- `bget`, up to the call of `acquiresleep`. -/
def bget (s : Sys N) (p : Fin N) (b : Nat) (k : BufId → Routine BufId Unit) : Sys N :=
  match s.lru.find? fun i => (s.bufs i).block = some b with
  | some i =>
    (s.setBuf i { s.bufs i with refcnt := (s.bufs i).refcnt + 1 }).goto p (.getting i k)
  | none =>
    match s.lru.reverse.find? fun i => (s.bufs i).refcnt = 0 with
    | some i =>
      (s.setBuf i { s.bufs i with block := some b, valid := false, refcnt := 1 }).goto p
        (.getting i k)
    | none => s.panic .noBuffers

/-- The end of `bread`: read the block unless the buffer is valid. -/
def fill (s : Sys N) (p : Fin N) (i : BufId) (k : BufId → Routine BufId Unit) : Sys N :=
  let t := if (s.bufs i).valid then s
    else s.setBuf i { s.bufs i with valid := true, data := s.disk ((s.bufs i).block.getD 0) }
  t.goto p (.run (k i))

/-- The end of `brelse`: drop the reference; an unused buffer becomes the most recent. -/
def put (s : Sys N) (p : Fin N) (i : BufId) (k : Routine BufId Unit) : Sys N :=
  let t := s.setBuf i { s.bufs i with refcnt := (s.bufs i).refcnt - 1 }
  let t := if (t.bufs i).refcnt = 0 then { t with lru := i :: t.lru.erase i } else t
  t.goto p (.run k)

def logWrite (s : Sys N) (p : Fin N) (i : BufId) (k : Routine BufId Unit) : Sys N :=
  let b := (s.bufs i).block.getD 0
  if LOGSIZE ≤ s.lh.length ∨ c.size - 1 ≤ s.lh.length then s.panic .tooBig
  else if s.outstanding < 1 then s.panic .outsideTrans
  else if b ∈ s.lh then s.goto p (.run k)
  else
    { (s.setBuf i { s.bufs i with refcnt := (s.bufs i).refcnt + 1 }).goto p (.run k) with
      lh := s.lh ++ [b] }

/-- One operation. `bytes` is what a `copyin` can read before it meets a bad page,
`ok` the outcome of a `copyout`. -/
def perform (s : Sys N) (p : Fin N) (bytes : List UInt8) (ok : Bool) :
    (e : Op BufId) → (e.Ans → Routine BufId Unit) → Sys N
  | .bread b, k => bget s p b k
  | .load i, k => s.goto p (.run (k (s.bufs i).data))
  | .store i x, k => (s.setBuf i { s.bufs i with data := x }).goto p (.run (k ()))
  | .copyin i off n, k =>
    (s.setBuf i { s.bufs i with data := Fs.putBytes (s.bufs i).data off (bytes.take n) }).goto p
      (.run (k (decide (n ≤ bytes.length))))
  | .copyout _, k => s.goto p (.run (k ok))
  | .logWrite i, k => logWrite c s p i (k ())
  | .bwrite i, k =>
    if (s.bufs i).lock = some p then
      { s.goto p (.run (k ())) with
        disk := update s.disk ((s.bufs i).block.getD 0) (s.bufs i).data }
    else s.panic .bwrite
  | .bunpin i, k =>
    { (s.setBuf i { s.bufs i with refcnt := (s.bufs i).refcnt - 1 }).goto p (.run (k ())) with
      inst := s.inst + 1 }
  | .brelse i, k =>
    if (s.bufs i).lock = some p then
      (s.setBuf i { s.bufs i with lock := none }).goto p (.putting i (k ()))
    else s.panic .brelse
  | .header, k => s.goto p (.run (k s.lh))
  | .clear, k => { s.goto p (.run (k ())) with lh := [], inst := 0 }
  | .panic m, _ => s.panic (.fs m)

/-- The routine is over; a commit ends with `log.committing = 0`. -/
def finish (s : Sys N) (p : Fin N) : Sys N :=
  if s.role p = .commit then
    { ((s.goto p .idle).enter p .outside).wakeup with committing := false }
  else s.goto p .idle

def beginOp (s : Sys N) (p : Fin N) : Sys N :=
  if s.committing = false ∧ s.lh.length + (s.outstanding + 1) * MAXOPBLOCKS ≤ LOGSIZE then
    { (s.goto p .idle).enter p .inOp with outstanding := s.outstanding + 1 }
  else s.goto p .asleep

def endOp (s : Sys N) (p : Fin N) : Sys N :=
  let s := { s with outstanding := s.outstanding - 1 }
  if s.committing then s.panic .committing
  else if s.outstanding = 0 then
    { (s.goto p (.run (commit c))).enter p .commit with committing := true }
  else (s.enter p .outside).wakeup

/-- The routines of `fs.c` that processes call. -/
inductive Call where
  | readi (ip : Dinode) (user : Bool) (off n : Nat)
  | writei (inum : Nat) (ip : Dinode) (src : Src) (off n : Nat)
  | balloc
  | bfree (b : Nat)
  | ialloc (type : Nat)
  | iupdate (inum : Nat) (ip : Dinode)
  | bmap (ip : Dinode) (bn : Nat)
  | itrunc (inum : Nat) (ip : Dinode)
  | readInode (inum : Nat)

variable (sb : Superblock)

def Call.body : Call → Routine BufId Unit
  | .readi ip user off n => do let _ ← Fs.readi sb ip user off n
  | .writei inum ip src off n => do let _ ← Fs.writei sb inum ip src off n
  | .balloc => do let _ ← Fs.balloc sb
  | .bfree b => Fs.bfree sb b
  | .ialloc type => do let _ ← Fs.ialloc sb type
  | .iupdate inum ip => Fs.iupdate sb inum ip
  | .bmap ip bn => do let _ ← Fs.bmap sb ip bn
  | .itrunc inum ip => do let _ ← Fs.itrunc sb inum ip
  | .readInode inum => do let _ ← Fs.readInode sb inum

inductive Act (N : Nat) where
  | beginOp (p : Fin N)
  | endOp (p : Fin N)
  | call (p : Fin N) (f : Call)
  | go (p : Fin N) (bytes : List UInt8) (ok : Bool)

/-- The next step of what `p` is doing. -/
def advance (s : Sys N) (p : Fin N) (bytes : List UInt8) (ok : Bool) : Option (Sys N) :=
  match s.ctl p with
  | .run (.ret _) => some (finish s p)
  | .run (.op e k) => some (perform c s p bytes ok e k)
  | .getting i k =>
    if (s.bufs i).lock = none then
      some ((s.setBuf i { s.bufs i with lock := some p }).goto p (.filling i k))
    else none
  | .filling i k => some (fill s p i k)
  | .putting i k => some (put s p i k)
  | _ => none

/-- A panic stops everything. -/
def step (s : Sys N) : Act N → Option (Sys N)
  | .beginOp p =>
    match s.panicked, s.role p, s.ctl p with
    | none, .outside, .idle => some (beginOp s p)
    | none, .outside, .woken => some (beginOp s p)
    | _, _, _ => none
  | .endOp p =>
    match s.panicked, s.role p, s.ctl p with
    | none, .inOp, .idle => some (endOp c s p)
    | _, _, _ => none
  | .call p f =>
    match s.panicked, s.ctl p with
    | none, .idle => some (s.goto p (.run (f.body sb)))
    | _, _ => none
  | .go p bytes ok => if s.panicked = none then advance c s p bytes ok else none

end Xv6.Bio
