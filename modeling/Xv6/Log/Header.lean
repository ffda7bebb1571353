import Xv6.Log.Model

/-!
# The log header on disk and what a disk recovers to

`putHeader` and `getHeader` invert each other for the headers `write_head` can
write. `Consistent` is the crash invariant: whatever the header names can be
copied from the log, and everything else is already in place. The lemmas say how
the four kinds of block writes of `commit` and `recover_from_log` keep it.
-/
namespace Xv6.Log

open Function

set_option autoImplicit false

theorem map_getD_range (xs : List Nat) : (List.range xs.length).map (fun i => xs.getD i 0) = xs := by
  apply List.ext_getElem
  · simp
  · intro i h1 h2
    simp [List.getElem?_eq_getElem h2]

/-- The header read back after a crash is the one that was written. -/
theorem getHeader_putHeader {lh : List Nat} (b : Block) (hlen : lh.length ≤ LOGSIZE)
    (hb : ∀ x ∈ lh, x < 2 ^ 32) : getHeader (putHeader b lh) = lh := by
  have hl : lh.length ≤ 30 := hlen
  have hn : (putHeader b lh).get 0 4 = lh.length := by
    rw [putHeader, Block.get_putWords_before (by omega)]
    exact Block.get_put_same (by decide) (by omega)
  unfold getHeader
  rw [hn]
  refine Eq.trans (List.map_congr_left fun i hi => ?_) (map_getD_range lh)
  exact Block.get_putWords (List.mem_range.mp hi) (by unfold BSIZE; omega) hb

variable (c : Conf)

/-- After copying what the header names from the log, the home blocks are `base`. -/
structure Consistent (base disk : Nat → Block) : Prop where
  fits : (getHeader (disk c.start)).length < c.size
  home : ∀ b ∈ getHeader (disk c.start), ¬ c.inLog b
  logged : ∀ i, i < (getHeader (disk c.start)).length →
    disk (c.start + i + 1) = base ((getHeader (disk c.start)).getD i 0)
  rest : ∀ b, ¬ c.inLog b → b ∉ getHeader (disk c.start) → disk b = base b

variable {c} {base disk : Nat → Block}

theorem start_inLog : c.inLog c.start := ⟨le_rfl, Nat.lt_add_of_pos_right c.pos⟩

theorem slot_inLog {i : Nat} (h : i + 1 < c.size) : c.inLog (c.start + i + 1) :=
  ⟨by omega, by omega⟩

theorem ne_start {b : Nat} (h : ¬ c.inLog b) : b ≠ c.start := by
  rintro rfl
  exact h start_inLog

theorem ne_slot {b i : Nat} (h : ¬ c.inLog b) (hi : i + 1 < c.size) : b ≠ c.start + i + 1 := by
  rintro rfl
  exact h (slot_inLog hi)

theorem mem_getD {xs : List Nat} {i : Nat} (h : i < xs.length) : xs.getD i 0 ∈ xs := by
  rw [List.getD_eq_getElem _ _ h]
  exact List.getElem_mem h

theorem exists_getD {xs : List Nat} {b : Nat} (h : b ∈ xs) : ∃ i, i < xs.length ∧ xs.getD i 0 = b := by
  obtain ⟨i, hi, he⟩ := List.getElem_of_mem h
  exact ⟨i, hi, (List.getD_eq_getElem _ _ hi).trans he⟩

/-- Filling a log block while the header is empty. -/
theorem Consistent.writeSlot (hc : Consistent c base disk) (hn : getHeader (disk c.start) = [])
    {i : Nat} (hi : i + 1 < c.size) (x : Block) :
    Consistent c base (update disk (c.start + i + 1) x) := by
  have hh : update disk (c.start + i + 1) x c.start = disk c.start :=
    update_of_ne (by omega) _ _
  refine ⟨?_, ?_, ?_, ?_⟩ <;> rw [hh]
  · exact hc.fits
  · exact hc.home
  · rw [hn]; intro j hj; exact absurd hj (Nat.not_lt_zero j)
  · intro b hb hm
    rw [update_of_ne (ne_slot hb hi)]
    exact hc.rest b hb hm

/-- Writing a header whose blocks are all in the log moves to a new base. -/
theorem Consistent.writeHeader (hc : Consistent c base disk) (hn : getHeader (disk c.start) = [])
    {base' : Nat → Block} {lh : List Nat} {x : Block} (hx : getHeader x = lh)
    (hfit : lh.length < c.size) (hhome : ∀ b ∈ lh, ¬ c.inLog b)
    (hlog : ∀ i, i < lh.length → disk (c.start + i + 1) = base' (lh.getD i 0))
    (hrest : ∀ b, ¬ c.inLog b → b ∉ lh → base' b = base b) :
    Consistent c base' (update disk c.start x) := by
  have hh : getHeader (update disk c.start x c.start) = lh := by
    rw [update_self, hx]
  refine ⟨?_, ?_, ?_, ?_⟩ <;> rw [hh]
  · exact hfit
  · exact hhome
  · intro i hi
    rw [update_of_ne (by omega)]
    exact hlog i hi
  · intro b hb hm
    rw [update_of_ne (ne_start hb), hrest b hb hm]
    exact hc.rest b hb (by rw [hn]; exact List.not_mem_nil)

/-- Copying one logged block to its home. -/
theorem Consistent.install (hc : Consistent c base disk) {i : Nat}
    (hi : i < (getHeader (disk c.start)).length) :
    Consistent c base (update disk ((getHeader (disk c.start)).getD i 0)
      (disk (c.start + i + 1))) := by
  have hdst := hc.home _ (mem_getD hi)
  have hfit := hc.fits
  have hh : update disk ((getHeader (disk c.start)).getD i 0) (disk (c.start + i + 1)) c.start
      = disk c.start := update_of_ne (Ne.symm (ne_start hdst)) _ _
  refine ⟨?_, ?_, ?_, ?_⟩ <;> rw [hh]
  · exact hfit
  · exact hc.home
  · intro j hj
    rw [update_of_ne (Ne.symm (ne_slot hdst (by omega)))]
    exact hc.logged j hj
  · intro b hb hm
    rw [update_of_ne (by rintro rfl; exact hm (mem_getD hi))]
    exact hc.rest b hb hm

/-- Clearing the header once every block it names is in place. -/
theorem Consistent.erase (hc : Consistent c base disk) {x : Block} (hx : getHeader x = [])
    (hin : ∀ b ∈ getHeader (disk c.start), disk b = base b) :
    Consistent c base (update disk c.start x) := by
  have hh : getHeader (update disk c.start x c.start) = [] := by
    rw [update_self, hx]
  refine ⟨?_, ?_, ?_, ?_⟩ <;> rw [hh]
  · exact c.pos
  · intro b hb; exact absurd hb List.not_mem_nil
  · intro i hi; exact absurd hi (Nat.not_lt_zero i)
  · intro b hb _
    rw [update_of_ne (ne_start hb)]
    by_cases hm : b ∈ getHeader (disk c.start)
    · exact hin b hm
    · exact hc.rest b hb hm

end Xv6.Log
