import Xv6.Fs.Bmap

/-!
# Inodes on disk: `iupdate`
-/
namespace Xv6.Fs

set_option autoImplicit false

open Xv6.Lib Xv6.Lib.Prog

variable {sb : Superblock} {E : Stop → Prop} {s : Io} {i : Nat} {ip : Dinode}

theorem not_free_inodes (hg : Geometry sb) {d : Disk} (hi : i < sb.ninodes) :
    ¬FreeBlock sb d (IBLOCK sb i) := by
  intro h
  have := hg.iblock_lt hi
  have := hg.bmapstart_le
  have := h.1.1
  omega

theorem runs_iupdate (hg : Geometry sb) (hi : i < sb.ninodes) (hip : ip.Fits) (htr : s.trans = true)
    {Q : Unit → Io → Prop}
    (h : ∀ t, view sb t.disk = memView sb s.disk i ip → Saves (fun c => c = IBLOCK sb i) s t →
      Q () t) :
    Runs sb E (iupdate sb i ip) Q s := by
  have hview := view_putDinode (d := s.disk) hg hi hip
  rw [iupdate]
  refine runs_bread (runs_load (not_free_inodes hg hi) ?_)
  refine runs_save htr (fun c _ hf => ⟨hf.1, ?_⟩) (.brelse (h _ hview (.save rfl)))
  rw [hview]
  exact hf.2

theorem fresh_fits {type : Nat} (h : type < 2 ^ 16) : (Dinode.fresh type).Fits :=
  ⟨h, Nat.two_pow_pos _, Nat.two_pow_pos _, Nat.two_pow_pos _, Nat.two_pow_pos _,
    fun _ => Nat.two_pow_pos _⟩

end Xv6.Fs
