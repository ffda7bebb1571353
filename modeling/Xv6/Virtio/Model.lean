import Xv6.Lib.Run
import Xv6.Lib.Ring
import Mathlib.Data.List.FinRange

/-!
# The disk driver, `kernel/virtio_disk.c`

Any number of processes call `virtio_disk_rw` on buffers they have locked, `virtio_disk_intr`
runs at any time, and the device takes chains of descriptors from the avail ring and puts them
into the used ring in any order. The driver's steps are single stores to the shared rings, or
what `disk.vdisk_lock` keeps together; the device moves between any two of them.

What the device does with the data is left out, and with it what only the device reads: the
request headers, and the lengths and the direction of the descriptors. `served` and `returns`
record what has happened; no branch reads them.
-/
namespace Xv6.Virtio

open Function

set_option autoImplicit false

def NUM : Nat := 8

instance : NeZero NUM := ⟨by decide⟩

abbrev Idx := Fin NUM
abbrev Pid := Nat
/-- A `struct buf *`. -/
abbrev Buf := Nat

inductive Panic where
  | freeDesc1 | freeDesc2 | status
  /-- An index outside of `info`, or a null `info[id].b`. -/
  | null
  /-- `free_chain` goes round more often than there are descriptors. -/
  | chain
  deriving DecidableEq, Repr

/-- What a descriptor points to: the request header, `b->data`, or a status byte. -/
inductive Addr where
  | null
  | op (i : Idx)
  | data (b : Buf)
  | status (i : Idx)
  deriving DecidableEq, Repr

/-- `more` is the flag `VRING_DESC_F_NEXT`. -/
structure Desc where
  addr : Addr
  more : Bool
  next : Nat
  deriving DecidableEq, Repr

structure Info where
  b : Option Buf
  status : UInt8
  deriving DecidableEq, Repr

/-- `struct disk`; `usedIdx` is the device's `used->idx` and `seen` the driver's `used_idx`. -/
structure Disk where
  desc : Idx → Desc
  free : Idx → Bool
  info : Idx → Info
  availRing : Idx → Nat
  availIdx : UInt16
  usedRing : Idx → Nat
  usedIdx : UInt16
  seen : UInt16

/-- The three descriptors of a request, `idx[0]`, `idx[1]` and `idx[2]`. -/
structure Chain where
  head : Idx
  data : Idx
  status : Idx
  deriving DecidableEq, Repr

namespace Disk

variable (d : Disk)

def alloc_desc : Option (Disk × Idx) :=
  ((List.finRange NUM).find? d.free).map fun i =>
    ({ d with free := update d.free i false }, i)

def free_desc (i : Nat) : Except Panic Disk :=
  if h : i < NUM then
    if d.free ⟨i, h⟩ then .error .freeDesc2
    else .ok { d with
      desc := update d.desc ⟨i, h⟩ ⟨.null, false, 0⟩
      free := update d.free ⟨i, h⟩ true }
  else .error .freeDesc1

/-- `free_chain`, with at most `n` turns of its loop. -/
def free_chain : Nat → Disk → Nat → Except Panic Disk
  | 0, _, _ => .error .chain
  | n + 1, d, i =>
    -- the descriptor is read before it is cleared
    let x := if h : i < NUM then d.desc ⟨i, h⟩ else ⟨.null, false, 0⟩
    match d.free_desc i with
    | .error e => .error e
    | .ok d => if x.more then free_chain n d x.next else .ok d

/-- The answer is `none` for `-1`; the flag says whether descriptors were freed again. -/
def alloc3_desc : Except Panic (Disk × Option Chain × Bool) :=
  match d.alloc_desc with
  | none => .ok (d, none, false)
  | some (d, i0) =>
    match d.alloc_desc with
    | none =>
      match d.free_desc i0 with
      | .error e => .error e
      | .ok d => .ok (d, none, true)
    | some (d, i1) =>
      match d.alloc_desc with
      | none =>
        match d.free_desc i0 with
        | .error e => .error e
        | .ok d =>
          match d.free_desc i1 with
          | .error e => .error e
          | .ok d => .ok (d, none, true)
      | some (d, i2) => .ok (d, some ⟨i0, i1, i2⟩, false)

/-- The three descriptors are filled in and the buffer is recorded. -/
def format (b : Buf) (c : Chain) : Disk :=
  { d with
    desc := update (update (update d.desc c.head ⟨.op c.head, true, c.data⟩)
      c.data ⟨.data b, true, c.status⟩) c.status ⟨.status c.head, false, 0⟩
    info := update d.info c.head ⟨some b, 0xff⟩ }

/-- `disk.avail->ring[disk.avail->idx % NUM] = idx[0]`. -/
def offer (i : Idx) : Disk :=
  { d with availRing := update d.availRing (Fin.ofNat NUM d.availIdx.toNat) i }

/-- `disk.avail->idx += 1`. -/
def publish : Disk := { d with availIdx := d.availIdx + 1 }

/-- `disk.info[i].b = 0`. -/
def forget (i : Idx) : Disk :=
  { d with info := update d.info i { d.info i with b := none } }

/-- The device clears the status byte `i` and puts `h` into the used ring. -/
def answer (i : Idx) (h : Nat) : Disk :=
  { d with
    info := update d.info i { d.info i with status := 0 }
    usedRing := update d.usedRing (Fin.ofNat NUM d.usedIdx.toNat) h
    usedIdx := d.usedIdx + 1 }

/-- `disk.used->ring[disk.used_idx % NUM].id`. -/
def completed : Nat := d.usedRing (Fin.ofNat NUM d.seen.toNat)

end Disk

/-- Where a process is in `virtio_disk_rw` or `virtio_disk_intr`. -/
inductive Ctl where
  | idle
  | enter (b : Buf)
  | alloc (b : Buf)
  | asleepFree (b : Buf)
  | wokenFree (b : Buf)
  | format (b : Buf) (c : Chain)
  | offer (b : Buf) (c : Chain)
  | publish (b : Buf) (c : Chain)
  | wait (b : Buf) (c : Chain)
  | asleepBuf (b : Buf) (c : Chain)
  | wokenBuf (b : Buf) (c : Chain)
  | intrEnter
  | intrLoop
  deriving DecidableEq

namespace Ctl

/-- `wakeup(&disk.free[0])`. -/
def wakeFree : Ctl → Ctl
  | asleepFree b => wokenFree b
  | c => c

/-- `wakeup(b)`. -/
def wakeBuf (b : Buf) : Ctl → Ctl
  | asleepBuf b' c => if b' = b then wokenBuf b' c else asleepBuf b' c
  | c => c

/-- Where a process that wants `vdisk_lock` goes on once it has it. -/
def locked : Ctl → Option Ctl
  | enter b | wokenFree b => some (alloc b)
  | wokenBuf b c => some (wait b c)
  | intrEnter => some intrLoop
  | _ => none

end Ctl

/-- The driver and the device. `onDisk` is `b->disk`, `held` says that the buffer's sleep-lock
is held by a caller of `virtio_disk_rw`; `taken` is how far the device has looked into the avail
ring, `working` what it has taken and not completed. -/
structure Io where
  disk : Disk
  onDisk : Buf → Bool
  held : Buf → Bool
  taken : UInt16
  working : List Nat
  panicked : Option Panic
  served : Buf → Nat
  returns : List Nat

structure Sys extends Io where
  lock : Option Pid
  ctl : Pid → Ctl

/-- After `virtio_disk_init`. -/
def init : Sys where
  disk := ⟨fun _ => ⟨.null, false, 0⟩, fun _ => true, fun _ => ⟨none, 0⟩, fun _ => 0, 0,
    fun _ => 0, 0, 0⟩
  lock := none
  ctl := fun _ => .idle
  onDisk := fun _ => false
  held := fun _ => false
  taken := 0
  working := []
  panicked := none
  served := fun _ => 0
  returns := []

inductive Act where
  | rw (p : Pid) (b : Buf)
  | intr (p : Pid)
  | acquire (p : Pid)
  | go (p : Pid)
  | take
  | complete (h : Nat)
  deriving DecidableEq

namespace Sys

variable (s : Sys)

def goto (p : Pid) (c : Ctl) : Sys := { s with ctl := update s.ctl p c }

def release : Sys := { s with lock := none }

def panic (e : Panic) : Sys := { s with panicked := some e }

def wakeFree : Sys := { s with ctl := fun p => (s.ctl p).wakeFree }

def wakeBuf (b : Buf) : Sys := { s with ctl := fun p => (s.ctl p).wakeBuf b }

/-- One turn of the loop that allocates the descriptors. -/
def goAlloc (p : Pid) (b : Buf) : Sys :=
  match s.disk.alloc3_desc with
  | .error e => s.panic e
  | .ok (d, some c, _) => { s with disk := d }.goto p (.format b c)
  | .ok (d, none, freed) =>
    let s := { s with disk := d }
    ((if freed then s.wakeFree else s).goto p (.asleepFree b)).release

/-- One turn of `while(b->disk == 1)`, or what follows it. -/
def goWait (p : Pid) (b : Buf) (c : Chain) : Sys :=
  if s.onDisk b then (s.goto p (.asleepBuf b c)).release
  else
    match (s.disk.forget c.head).free_chain NUM c.head with
    | .error e => s.panic e
    | .ok d =>
      { ({ s with disk := d }.wakeFree.goto p .idle).release with
        held := update s.held b false
        returns := s.returns ++ [s.served b] }

/-- One turn of the loop of `virtio_disk_intr`. -/
def goIntr (p : Pid) : Sys :=
  if s.disk.seen = s.disk.usedIdx then (s.goto p .idle).release
  else
    if h : s.disk.completed < NUM then
      let info := s.disk.info ⟨s.disk.completed, h⟩
      if info.status ≠ 0 then s.panic .status
      else
        match info.b with
        | none => s.panic .null
        | some b =>
          { s.wakeBuf b with
            disk := { s.disk with seen := s.disk.seen + 1 }
            onDisk := update s.onDisk b false
            served := update s.served b (s.served b + 1) }
    else s.panic .null

/-- The process that holds the lock goes on. -/
def go (p : Pid) : Option Sys :=
  match s.ctl p with
  | .alloc b => some (s.goAlloc p b)
  | .format b c =>
    some { { s with disk := s.disk.format b c }.goto p (.offer b c) with
      onDisk := update s.onDisk b true
      served := update s.served b 0 }
  | .offer b c => some ({ s with disk := s.disk.offer c.head }.goto p (.publish b c))
  | .publish b c => some ({ s with disk := s.disk.publish }.goto p (.wait b c))
  | .wait b c => some (s.goWait p b c)
  | .intrLoop => some (s.goIntr p)
  | _ => none

/-- The device takes the next entry of the avail ring. -/
def take : Option Sys :=
  if s.taken = s.disk.availIdx then none
  else some { s with
    taken := s.taken + 1
    working := s.working ++ [s.disk.availRing (Fin.ofNat NUM s.taken.toNat)] }

/-- The device follows the chain to its status byte, clears it, and puts the head into the
used ring. -/
def complete (h : Nat) : Option Sys :=
  if h ∈ s.working ∧ h < NUM then
    let desc := fun i : Nat => s.disk.desc (Fin.ofNat NUM i)
    match (desc (desc (desc h).next).next).addr with
    | .status i => some { s with disk := s.disk.answer i h, working := s.working.erase h }
    | _ => none
  else none

end Sys

def step (s : Sys) : Act → Option Sys
  | .rw p b =>
    if s.ctl p = .idle ∧ s.held b = false then
      some { s.goto p (.enter b) with held := update s.held b true }
    else none
  | .intr p => if s.ctl p = .idle then some (s.goto p .intrEnter) else none
  | .acquire p =>
    if s.lock = none then
      (s.ctl p).locked.map fun c => { s.goto p c with lock := some p }
    else none
  | .go p => s.go p
  | .take => s.take
  | .complete h => s.complete h

end Xv6.Virtio
