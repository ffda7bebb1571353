import Xv6.Bio.Runs

/-!
# When the buffer cache runs dry

`bget` stops the kernel when no buffer has its block and none is unused. There are `NBUF` buffers,
fewer than the processes that may each wait in `bread`, so that this can happen; it does not in
runs that always leave a buffer.
-/
namespace Xv6.Bio

set_option autoImplicit false

open Xv6.Lib Xv6.Lib.Prog
open Xv6.Fs (Op Routine Dinode)
open Xv6.Log (Conf mkfsConf)

variable {N : Nat}

namespace Sys

variable (s : Sys N)

/-- A process has the buffer locked, waits for it or is releasing it, or its block is listed in
the log and still to be copied home. -/
def busy (i : BufId) : Prop :=
  (s.bufs i).lock ≠ none ∨ (∃ p, (s.ctl p).uses = some i) ∨ s.pins i ≠ 0

instance (i : BufId) : Decidable (s.busy i) :=
  inferInstanceAs (Decidable (_ ∨ _ ∨ _))

/-- The number of buffers that are in use. -/
def demand : Nat := (Finset.univ.filter s.busy).card

end Sys

/-- A process that is about to `bread` finds its block cached or a buffer to take. -/
def Room (s : Sys N) : Act N → Prop
  | .go p _ _ =>
    match s.ctl p with
    | .run (.op (.bread b) _) => (∃ i, (s.bufs i).block = some b) ∨ s.demand < NBUF
    | _ => True
  | _ => True

variable {R : Block → Block → Prop} {s s' : Sys N} {H : Fin N → Held} {p : Fin N} {i : BufId}

variable (c : Conf) (sb : Superblock)

/-- An inode of one block. -/
def oneBlock (b : Nat) : Dinode := ⟨2, 0, 0, 1, BSIZE, fun i => if i = 0 then b else 0⟩

/-- Each of 31 processes reads a file of its own, and waits for the disk. -/
def readers : List (Act 31) :=
  (List.finRange 31).flatMap fun p =>
    [.call p (.readi (oneBlock (100 + p)) false 0 1), .go p [] true]

end Xv6.Bio
