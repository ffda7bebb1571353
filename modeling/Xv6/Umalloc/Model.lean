import Xv6.Lib.Run
import Xv6.Lib.Links
import Xv6.Lib.Tiles
import Mathlib.Algebra.Ring.Nat

/-!
# The user-level allocator, `user/umalloc.c`

Addresses count units of `sizeof(Header)`, 16 bytes, so that pointer arithmetic on `Header *`
is addition. The headers are threaded through the memory they manage: the fields of the header
at every address are two functions, and a program may store what it likes into the blocks it
owns. `base` is the address of the static header of the same name.

The loops run with a bound on their turns; that the bound is enough is proved, not assumed.
-/
namespace Xv6.Umalloc

open Function

set_option autoImplicit false

open Lib (Extent)

/-- Arithmetic on `uint`. -/
def uint (n : Nat) : Nat := n % 2 ^ 32

/-- The fields `s.ptr` and `s.size` of the header at each address, and `freep`. -/
structure Heap where
  ptr : Nat → Nat
  size : Nat → Nat
  freep : Nat

namespace Heap

variable (h : Heap)

/-- The loop of `free` ends at `p`: `bp` belongs between `p` and `p->s.ptr`. -/
def place (bp p : Nat) : Bool :=
  (bp > p && bp < h.ptr p) || (p ≥ h.ptr p && (bp > p || bp < h.ptr p))

def joinNext (bp p : Nat) : Heap :=
  if bp + h.size bp = h.ptr p then
    { h with
      size := update h.size bp (uint (h.size bp + h.size (h.ptr p)))
      ptr := update h.ptr bp (h.ptr (h.ptr p)) }
  else { h with ptr := update h.ptr bp (h.ptr p) }

def joinPrev (bp p : Nat) : Heap :=
  if p + h.size p = bp then
    { h with
      size := update h.size p (uint (h.size p + h.size bp))
      ptr := update h.ptr p (h.ptr bp) }
  else { h with ptr := update h.ptr p bp }

/-- `free(bp + 1)`. -/
def free (fuel : Nat) (bp : Nat) : Option Heap :=
  (Lib.search h.ptr (h.place bp) fuel h.freep).map fun p =>
    { (h.joinNext bp p).joinPrev bp p with freep := p }

/-- What `malloc` does with a block `p` that is large enough; the answer is the block's
header. -/
def carve (nunits prevp p : Nat) : Heap × Nat :=
  if h.size p = nunits then
    ({ h with ptr := update h.ptr prevp (h.ptr p), freep := prevp }, p)
  else
    let rest := h.size p - nunits
    ({ h with
        size := update (update h.size p rest) (p + rest) nunits
        freep := prevp },
      p + rest)

end Heap

/-- The heap of a process: `brk` is the end of its memory, `regions` what `morecore` has got,
`live` the blocks that `malloc` has returned and that have not been freed, `ret` the header of
the block the last `malloc` returned, or 0. -/
structure Sys extends Heap where
  brk : Nat
  regions : List Extent
  live : List Nat
  ret : Nat

namespace Sys

variable (s : Sys)

/-- There are fewer headers than addresses. -/
def fuel : Nat := s.brk + 2

/-- `reply` is what `sbrk` returns: `none` for -1, or a region above all earlier memory. The
answer is `freep`, or `none` for 0. -/
def morecore (nu : Nat) (reply : Option Nat) : Option (Sys × Option Nat) :=
  let nu := if nu < 4096 then 4096 else nu
  match reply with
  | none => some (s, none)
  | some hp =>
    if s.brk ≤ hp then
      let s := { s with
        size := update s.size hp nu
        brk := hp + nu
        regions := (hp, nu) :: s.regions }
      (s.free s.fuel hp).map fun h => ({ s with toHeap := h }, some h.freep)
    else none

/-- The loop of `malloc`; `replies` are the answers of `sbrk`, in order. -/
def mallocLoop (nunits : Nat) : Nat → Sys → List (Option Nat) → Nat → Nat → Option Sys
  | 0, _, _, _, _ => none
  | n + 1, s, replies, prevp, p =>
    if s.size p ≥ nunits then
      let r := s.carve nunits prevp p
      some { s with toHeap := r.1, live := r.2 :: s.live, ret := r.2 }
    else if p = s.freep then
      match replies with
      | [] => none
      | reply :: replies =>
        match s.morecore nunits reply with
        | none => none
        | some (s, none) => some { s with ret := 0 }
        | some (s, some p) => mallocLoop nunits n s replies p (s.ptr p)
    else mallocLoop nunits n s replies p (s.ptr p)

def nunits (nbytes : UInt32) : Nat := (nbytes.toNat + 16 - 1) / 16 + 1

/-- The list is made when `freep` is still 0. -/
def start (base : Nat) : Sys :=
  if s.freep = 0 then
    { s with
      ptr := update s.ptr base base
      size := update s.size base 0
      freep := base }
  else s

def malloc (base : Nat) (nbytes : UInt32) (replies : List (Option Nat)) : Option Sys :=
  let s := s.start base
  s.mallocLoop (nunits nbytes) (2 * s.fuel) replies s.freep (s.ptr s.freep)

end Sys

inductive Act where
  | malloc (nbytes : UInt32) (replies : List (Option Nat))
  /-- `free(bp + 1)`. -/
  | free (bp : Nat)
  /-- The program stores into a block it owns, where a header could be. -/
  | store (a : Nat) (ptr : Nat) (size : Nat)
  /-- The program calls `sbrk` itself. -/
  | sbrk (n : Nat)
  deriving DecidableEq

/-- A program starts with the memory below `brk`, in which `base` is. -/
def init (brk : Nat) : Sys where
  ptr := fun _ => 0
  size := fun _ => 0
  freep := 0
  brk := brk
  regions := []
  live := []
  ret := 0

def step (base : Nat) (s : Sys) : Act → Option Sys
  | .malloc nbytes replies => s.malloc base nbytes replies
  | .free bp =>
    if bp ∈ s.live then
      (s.free s.fuel bp).map fun h => { s with toHeap := h, live := s.live.erase bp }
    else none
  | .store a ptr size =>
    if ∃ bp ∈ s.live, bp < a ∧ a < bp + s.size bp then
      some { s with
        ptr := update s.ptr a ptr
        size := update s.size a size }
    else none
  | .sbrk n => some { s with brk := s.brk + n }

end Xv6.Umalloc
