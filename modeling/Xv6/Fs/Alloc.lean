import Xv6.Fs.Exec

/-!
# Allocating and freeing blocks
-/
namespace Xv6.Fs

set_option autoImplicit false

open Xv6.Lib Xv6.Lib.Prog Function

variable {sb : Superblock} {α : Type} {E : Stop → Prop} {s : Io}

theorem view_take (hg : Geometry sb) {d : Disk} {b : Nat} (hb : IsData sb b) :
    view sb (update
      (update d (BBLOCK sb b) (setBit (d (BBLOCK sb b)) (b % BPB))) b fun _ => 0) =
      (view sb d).take b := by
  rw [view_data hg hb, view_setBit hg hb.2]
  rfl

/-- What a turn of `balloc` can find in the bitmap block of blocks `BPB * c ..`. -/
theorem freeBit_some {c bi : Nat} {x : Block} (h : freeBit sb (BPB * c) x = some bi) :
    bi < BPB ∧ BPB * c + bi < sb.size ∧ getBit x bi = false := by
  have hm := List.mem_of_find?_eq_some h
  have hb := List.find?_some h
  rw [List.mem_range] at hm
  refine ⟨by omega, by omega, by simpa using hb⟩

theorem freeBit_none {c bi : Nat} {x : Block} (h : freeBit sb (BPB * c) x = none)
    (hb : bi < BPB) (hs : BPB * c + bi < sb.size) : getBit x bi = true := by
  have := List.find?_eq_none.mp h bi (List.mem_range.mpr (by omega))
  simpa using this

theorem BPB_div {c b : Nat} (hb : b < BPB) : (BPB * c + b) / BPB = c := by
  rw [Nat.mul_add_div (by decide), Nat.div_eq_of_lt hb, Nat.add_zero]

theorem BPB_mod {c bi : Nat} (hb : bi < BPB) : (BPB * c + bi) % BPB = bi := by
  rw [Nat.mul_add_mod, Nat.mod_eq_of_lt hb]

/-! ## The bitmap and twins -/

theorem not_free_bitmap (hg : Geometry sb) {d : Disk} {b : Nat} (hb : b < sb.size) :
    ¬FreeBlock sb d (BBLOCK sb b) := fun h => Nat.not_le_of_lt (hg.bblock_lt hb) h.1.1

/-- What a turn of `balloc` does when it has found block `b`. -/
def Io.taken (sb : Superblock) (b : Nat) (s : Io) : Io :=
  let t := (s.setBlock (BBLOCK sb b) (setBit (s.disk (BBLOCK sb b)) (b % BPB))).record (BBLOCK sb b)
  (t.setBlock b fun _ => 0).record b

theorem view_taken (hg : Geometry sb) {b : Nat} (hb : IsData sb b) :
    view sb (s.taken sb b).disk = (view sb s.disk).take b := view_take hg hb

/-- The new block is cleared before anybody can read it. -/
theorem Twin.taken (hg : Geometry sb) {b : Nat} {t : Io} (hb : IsData sb b) (h : Twin sb s t) :
    Twin sb (s.taken sb b) (t.taken sb b) where
  user := h.user
  trans := h.trans
  logged := by
    simp only [Io.taken, Io.record, Io.setBlock, h.logged]
  disk c := by
    have hold := h.eq (not_free_bitmap hg hb.2)
    by_cases hc : c = b
    · right
      simp [hc, Io.taken, Io.setBlock, Io.record]
    by_cases hB : c = BBLOCK sb b
    · right
      have hne : BBLOCK sb b ≠ b := fun he => hc (hB.trans he)
      simp [hB, Io.taken, Io.setBlock, Io.record, hold, hne]
    refine (h.disk c).imp (fun hf => ⟨hf.1, ?_⟩) fun he => ?_
    · rw [view_taken hg hb, View.take_used, update_of_ne hc]
      exact hf.2
    · simp [Io.taken, Io.setBlock, Io.record, hc, hB, he]

theorem saves_taken {b : Nat} : Saves (fun c => c = b ∨ c = BBLOCK sb b) s (s.taken sb b) :=
  .trans (.save (.inr rfl)) (.save (.inl rfl))

theorem exec_taken (sb : Superblock) (b : Nat) {t : Io} (ht : t.trans = true) (k : Unit → Routine Nat α) :
    exec (do
      store (BBLOCK sb b) (setBit (t.disk (BBLOCK sb b)) (b % BPB))
      logWrite (BBLOCK sb b)
      brelse (BBLOCK sb b)
      bzero b
      k ()) t = exec (k ()) (t.taken sb b) := by
  refine (exec_logWrite (s := t.setBlock _ _) _ ht).trans ?_
  exact exec_logWrite (s := ((t.setBlock _ _).record _).setBlock b _) _ ht

theorem runs_ballocLoop (hg : Geometry sb) {Q : Nat → Io → Prop} (ht : s.trans = true) (n c : Nat)
    (hmeta : ∀ b < dataStart sb, b < sb.size → (view sb s.disk).used b = true)
    (hdone : ∀ b < BPB * c, b < sb.size → (view sb s.disk).used b = true)
    (hall : sb.size ≤ BPB * (c + n)) (hin : 0 < n → BPB * (c + (n - 1)) < sb.size)
    (hfull : (∀ b < sb.size, (view sb s.disk).used b = true) → Q 0 s)
    (hnew : ∀ b t, b < sb.size → (view sb s.disk).used b = false →
      view sb t.disk = (view sb s.disk).take b →
      Saves (fun c => c = b ∨ c = BBLOCK sb b) s t → Q b t) :
    Runs sb E (ballocLoop sb n (BPB * c)) Q s := by
  induction n generalizing c with
  | zero => exact .pure (hfull fun b hb => hdone b (hb.trans_le hall) hb)
  | succ n ih =>
    have hB : ∀ bi < BPB, BBLOCK sb (BPB * c + bi) = BBLOCK sb (BPB * c) := by
      intro bi hbi
      have h0 := BPB_div (c := c) (b := 0) (by decide)
      rw [Nat.add_zero] at h0
      rw [BBLOCK, BBLOCK, BPB_div hbi, h0]
    have hbit : ∀ bi < BPB, BPB * c + bi < sb.size →
        (view sb s.disk).used (BPB * c + bi) = getBit (s.disk (BBLOCK sb (BPB * c))) bi := by
      intro bi hbi hs
      rw [view_used hs, hB bi hbi, BPB_mod hbi]
    have hc : BPB * c < sb.size :=
      (Nat.mul_le_mul_left _ (Nat.le_add_right ..)).trans_lt (hin (Nat.succ_pos n))
    rw [ballocLoop]
    refine runs_bread (runs_load (not_free_bitmap hg hc) ?_)
    split
    · rename_i bi hbi
      obtain ⟨hlt, hs, hfree⟩ := freeBit_some hbi
      have hused : (view sb s.disk).used (BPB * c + bi) = false := (hbit bi hlt hs).trans hfree
      have hdata : IsData sb (BPB * c + bi) := by
        refine ⟨?_, hs⟩
        by_contra hm
        simp [hmeta _ (Nat.lt_of_not_le hm) hs] at hused
      have hq := hnew _ _ hs hused (view_taken hg hdata) saves_taken
      refine .of_exec (q := pure (BPB * c + bi)) (g := Io.taken sb (BPB * c + bi)) (fun t htw => ?_)
        (fun t htw => htw.taken hg hdata) (.pure hq)
      have hold := htw.eq (not_free_bitmap hg hc)
      have hrun := exec_taken sb (BPB * c + bi) (htw.trans.trans ht)
        fun _ => pure (BPB * c + bi)
      rw [hB bi hlt, BPB_mod hlt, hold] at hrun
      exact hrun
    · rename_i hnone
      refine runs_brelse (ih (c + 1) ?_ ?_ ?_)
      · intro b hb hs
        by_cases hlt : b < BPB * c
        · exact hdone b hlt hs
        · obtain ⟨bi, rfl⟩ := Nat.exists_eq_add_of_le (Nat.le_of_not_lt hlt)
          have hbi : bi < BPB := by
            rw [Nat.mul_succ] at hb
            omega
          rw [hbit bi hbi hs]
          exact freeBit_none hnone hbi hs
      · rwa [Nat.add_right_comm, Nat.add_assoc]
      · intro hn
        have hlast := hin (Nat.succ_pos n)
        have he : c + 1 + (n - 1) = c + (n + 1 - 1) := by omega
        rwa [he]

/-- `balloc` takes and clears a free block, if there is one. -/
theorem runs_balloc (hg : Geometry sb) {Q : Nat → Io → Prop} (ht : s.trans = true)
    (hmeta : ∀ b < dataStart sb, b < sb.size → (view sb s.disk).used b = true)
    (hfull : (∀ b < sb.size, (view sb s.disk).used b = true) → Q 0 s)
    (hnew : ∀ b t, b < sb.size → (view sb s.disk).used b = false →
      view sb t.disk = (view sb s.disk).take b →
      Saves (fun c => c = b ∨ c = BBLOCK sb b) s t → Q b t) :
    Runs sb E (balloc sb) Q s := by
  have hP : BPB = 8192 := rfl
  refine runs_ballocLoop hg ht _ 0 hmeta (fun b hb => absurd hb (Nat.not_lt_zero b)) ?_ ?_ hfull hnew
  · rw [hP]
    omega
  · rw [hP]
    omega

/-- `bfree` frees a block in use. -/
theorem runs_bfree (hg : Geometry sb) {Q : Unit → Io → Prop} {b : Nat} (ht : s.trans = true)
    (hb : b < sb.size) (hu : (view sb s.disk).used b = true)
    (h : ∀ t, view sb t.disk = (view sb s.disk).setUsed b false →
      Saves (fun c => c = BBLOCK sb b) s t → Q () t) :
    Runs sb E (bfree sb b) Q s := by
  have hbit : getBit (s.disk (BBLOCK sb b)) (b % BPB) = true := by
    rwa [view_used hb] at hu
  have hview := view_clearBit (d := s.disk) hg hb
  rw [bfree]
  refine runs_bread (runs_load (not_free_bitmap hg hb) ?_)
  refine .ite (fun hc => absurd (hc.symm.trans hbit) nofun) fun _ => ?_
  refine runs_save ht (fun c _ hf => ⟨hf.1, ?_⟩) (.brelse (h _ hview (.save rfl)))
  rw [hview]
  by_cases hcb : c = b
  · exact hcb ▸ update_self ..
  · exact (update_of_ne hcb ..).trans hf.2

end Xv6.Fs
