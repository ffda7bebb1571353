import Xv6.Bio.Model
import Xv6.Lib.Links

/-!
# The list of buffers of `kernel/bio.c`

`bcache` with its pointers: `next` and `prev` link the `NBUF` buffers and `bcache.head` into one
list, and `refcnt` is a `uint`. The part of `bget`, `brelse`, `bpin` and `bunpin` between
`acquire` and `release` of `bcache.lock` is one step; the sleep-lock of a buffer is taken and given
up in steps of their own. A process may hold any number of buffers.

`pins`, `clock` and `released` record what has happened; no branch reads them, except that only a
pinned buffer is unpinned.
-/
namespace Xv6.Bcache

open Function

set_option autoImplicit false

open Lib (search)
open Bio (NBUF BufId)

/-- `&bcache.head` or a buffer. -/
inductive Node where
  | head
  | buf (i : BufId)
  deriving DecidableEq

structure Cache where
  next : Node → Node
  prev : Node → Node
  dev : BufId → UInt32
  blockno : BufId → UInt32
  valid : BufId → Bool
  refcnt : BufId → UInt32

namespace Cache

variable (c : Cache)

/-- `x` becomes `bcache.head.next`. -/
def insertFront (x : Node) : Cache :=
  let c := { c with next := update c.next x (c.next .head) }
  let c := { c with prev := update c.prev x .head }
  let c := { c with prev := update c.prev (c.next .head) x }
  { c with next := update c.next .head x }

/-- `b->next->prev = b->prev; b->prev->next = b->next`. -/
def unlink (x : Node) : Cache :=
  let c := { c with prev := update c.prev (c.next x) (c.prev x) }
  { c with next := update c.next (c.prev x) (c.next x) }

/-- The first loop of `bget`: a buffer for the block, or `head`; `none` if the loop has not ended
after a node more than there are. -/
def lookup (dev blockno : UInt32) : Option Node :=
  search c.next
    (fun
      | .head => true
      | .buf i => c.dev i == dev && c.blockno i == blockno)
    (NBUF + 1) (c.next .head)

/-- The second loop of `bget`: an unused buffer, or `head`. -/
def unused : Option Node :=
  search c.prev
    (fun
      | .head => true
      | .buf i => c.refcnt i == 0)
    (NBUF + 1) (c.prev .head)

def bpin (i : BufId) : Cache := { c with refcnt := update c.refcnt i (c.refcnt i + 1) }

def bunpin (i : BufId) : Cache := { c with refcnt := update c.refcnt i (c.refcnt i - 1) }

/-- The buffer is given to another block. -/
def recycle (dev blockno : UInt32) (i : BufId) : Cache :=
  { c with
    dev := update c.dev i dev
    blockno := update c.blockno i blockno
    valid := update c.valid i false
    refcnt := update c.refcnt i 1 }

/-- `brelse` behind `releasesleep`. -/
def brelse (i : BufId) : Cache :=
  let c := c.bunpin i
  if c.refcnt i = 0 then (c.unlink (.buf i)).insertFront (.buf i) else c

end Cache

/-- What `bget` does before `acquiresleep`. -/
inductive Got where
  | buf (c : Cache) (i : BufId)
  | noBuffers
  | spins

def Cache.bget (c : Cache) (dev blockno : UInt32) : Got :=
  match c.lookup dev blockno with
  | none => .spins
  | some (.buf i) => .buf (c.bpin i) i
  | some .head =>
    match c.unused with
    | none => .spins
    | some (.buf i) => .buf (c.recycle dev blockno i) i
    | some .head => .noBuffers

/-- All links are set in `binit`, from `bcache.buf[0]` on. -/
def binit : Cache :=
  (List.finRange NBUF).foldl (fun c i => c.insertFront (.buf i))
    ⟨fun _ => .head, fun _ => .head, fun _ => 0, fun _ => 0, fun _ => false, fun _ => 0⟩

/-- A process outside of `bget` and `brelse`, waiting for the sleep-lock of a buffer that `bget`
has found, or in `brelse` with the sleep-lock given up. -/
inductive Ctl where
  | idle
  | waiting (i : BufId)
  | leaving (i : BufId)
  deriving DecidableEq

structure Sys (N : Nat) extends Cache where
  lock : BufId → Option (Fin N)
  ctl : Fin N → Ctl
  panicked : Bool
  pins : BufId → Nat
  clock : Nat
  /-- When `brelse` last found the count at 0. -/
  released : BufId → Option Nat

def init (N : Nat) : Sys N := ⟨binit, fun _ => none, fun _ => .idle, false, fun _ => 0, 0, fun _ => none⟩

inductive Act (N : Nat) where
  | bget (p : Fin N) (dev blockno : UInt32)
  | acquiresleep (p : Fin N)
  /-- The end of `bread`. -/
  | fill (p : Fin N) (i : BufId)
  | releasesleep (p : Fin N) (i : BufId)
  | brelse (p : Fin N)
  | bpin (i : BufId)
  | bunpin (i : BufId)

variable {N : Nat}

namespace Sys

variable (s : Sys N)

def bget (p : Fin N) (dev blockno : UInt32) : Option (Sys N) :=
  match s.toCache.bget dev blockno with
  | .buf c i => some { s with toCache := c, ctl := update s.ctl p (.waiting i) }
  | .noBuffers => some { s with panicked := true }
  | .spins => none

def brelse (p : Fin N) (i : BufId) : Sys N :=
  let s := { s with toCache := s.toCache.brelse i, ctl := update s.ctl p .idle }
  if s.refcnt i = 0 then
    { s with released := update s.released i (some s.clock), clock := s.clock + 1 }
  else s

end Sys

/-- A process releases only buffers it holds, and only pinned buffers are unpinned. -/
def step (s : Sys N) : Act N → Option (Sys N)
  | .bget p dev blockno => if s.panicked = false ∧ s.ctl p = .idle then s.bget p dev blockno else none
  | .acquiresleep p =>
    match s.ctl p with
    | .waiting i =>
      if s.panicked = false ∧ s.lock i = none then
        some { s with lock := update s.lock i (some p), ctl := update s.ctl p .idle }
      else none
    | _ => none
  | .fill p i =>
    if s.panicked = false ∧ s.ctl p = .idle ∧ s.lock i = some p then
      some { s with valid := update s.valid i true }
    else none
  | .releasesleep p i =>
    if s.panicked = false ∧ s.ctl p = .idle ∧ s.lock i = some p then
      some { s with lock := update s.lock i none, ctl := update s.ctl p (.leaving i) }
    else none
  | .brelse p =>
    match s.ctl p with
    | .leaving i => if s.panicked = false then some (s.brelse p i) else none
    | _ => none
  | .bpin i =>
    if s.panicked = false then
      some { s with toCache := s.toCache.bpin i, pins := update s.pins i (s.pins i + 1) }
    else none
  | .bunpin i =>
    if s.panicked = false ∧ 0 < s.pins i then
      some { s with toCache := s.toCache.bunpin i, pins := update s.pins i (s.pins i - 1) }
    else none

end Xv6.Bcache
