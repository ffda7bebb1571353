import Mathlib.Data.List.Range
import Mathlib.Data.Nat.ModEq

/-!
# A ring buffer with free-running counters

`cap` cells are addressed by two counters that only ever advance, modulo `M`.
The cell of counter value `c` is `c % cap`, so the counters may wrap as long as
`cap` divides `M`. The ring holds `count M r w` elements, and `contents` lists
them oldest first. The lemmas at the end are the whole interface: a push appends,
a pop removes the head, and the last push can be taken back.
-/
namespace Xv6.Lib.Ring

open Function

set_option autoImplicit false

variable {α : Type*} {cap M : Nat} [NeZero cap]

/-- How far the write counter is ahead of the read counter. -/
def count (M r w : Nat) : Nat := (w + (M - r)) % M

/-- The elements between the counters, oldest first. -/
def contents (M : Nat) (cells : Fin cap → α) (r w : Nat) : List α :=
  (List.range (count M r w)).map fun i => cells (Fin.ofNat cap (r + i))

@[simp] theorem length_contents (cells : Fin cap → α) (r w : Nat) :
    (contents M cells r w).length = count M r w := by
  simp [contents]

theorem count_self {r : Nat} (hr : r < M) : count M r r = 0 := by
  unfold count
  rw [Nat.add_sub_cancel' hr.le, Nat.mod_self]

theorem count_eq_zero {r w : Nat} (hr : r < M) (hw : w < M) : count M r w = 0 ↔ r = w := by
  unfold count
  constructor
  · intro h
    by_cases hle : r ≤ w
    · rw [show w + (M - r) = (w - r) + M by omega, Nat.add_mod_right,
        Nat.mod_eq_of_lt (by omega)] at h
      omega
    · rw [Nat.mod_eq_of_lt (by omega)] at h
      omega
  · rintro rfl
    exact count_self hr

/-- The write counter is the read counter advanced by the count. -/
theorem write_eq {r w : Nat} (hr : r < M) (hw : w < M) : w = (r + count M r w) % M := by
  unfold count
  rw [Nat.add_mod, Nat.mod_mod, ← Nat.add_mod, show r + (w + (M - r)) = w + M by omega,
    Nat.add_mod_right, Nat.mod_eq_of_lt hw]

theorem count_write_succ {r w : Nat} (hc : count M r w + 1 < M) :
    count M r ((w + 1) % M) = count M r w + 1 := by
  unfold count at hc ⊢
  rw [Nat.mod_add_mod, show w + 1 + (M - r) = w + (M - r) + 1 by omega, Nat.add_mod,
    Nat.mod_eq_of_lt (show 1 < M by omega), Nat.mod_eq_of_lt hc]

/-- A successor that does not wrap to zero is the successor of the residue. -/
private theorem mod_succ {x : Nat} (hM : 0 < M) (h : (x + 1) % M ≠ 0) :
    x % M + 1 = (x + 1) % M := by
  rw [← Nat.mod_add_mod x M 1] at h ⊢
  by_cases hm : x % M + 1 = M
  · rw [hm, Nat.mod_self] at h
    exact absurd rfl h
  · have hlt := Nat.mod_lt x hM
    exact (Nat.mod_eq_of_lt (show x % M + 1 < M by omega)).symm

theorem count_read_succ {r w : Nat} (hr : r < M) (hc : count M r w ≠ 0) :
    count M ((r + 1) % M) w + 1 = count M r w := by
  unfold count at hc ⊢
  by_cases hlast : r + 1 = M
  · rw [show M - r = 1 by omega] at hc ⊢
    rw [hlast, Nat.mod_self, Nat.sub_zero, Nat.add_mod_right]
    exact mod_succ (by omega) hc
  · rw [Nat.mod_eq_of_lt (show r + 1 < M by omega)]
    rw [show w + (M - r) = w + (M - (r + 1)) + 1 by omega] at hc ⊢
    exact mod_succ (by omega) hc

/-- The modulus is invisible in a cell index. -/
theorem ofNat_mod (hd : cap ∣ M) (n : Nat) : Fin.ofNat cap (n % M) = Fin.ofNat cap n := by
  apply Fin.ext
  simp only [Fin.val_ofNat]
  exact Nat.mod_mod_of_dvd n hd

/-- Distinct positions of a ring that is not full use distinct cells. -/
theorem ofNat_ne {r i j : Nat} (hij : i < j) (hj : j < i + cap) :
    Fin.ofNat cap (r + i) ≠ Fin.ofNat cap (r + j) := by
  intro h
  have hv : (r + i) % cap = (r + j) % cap := congrArg Fin.val h
  have hd : cap ∣ (r + j) - (r + i) := (Nat.modEq_iff_dvd' (by omega)).mp hv
  have := Nat.le_of_dvd (by omega) hd
  omega

/-- A cell outside of the counters can be written. -/
theorem contents_update (hd : cap ∣ M) (cells : Fin cap → α) (x : α) {r w : Nat}
    (hr : r < M) (hw : w < M) (hroom : count M r w < cap) :
    contents M (update cells (Fin.ofNat cap w) x) r w = contents M cells r w := by
  have hwr : Fin.ofNat cap w = Fin.ofNat cap (r + count M r w) := by
    conv_lhs => rw [write_eq hr hw]
    exact ofNat_mod hd _
  unfold contents
  rw [hwr]
  apply List.map_congr_left
  intro i hi
  have hi' := List.mem_range.mp hi
  exact update_of_ne (ofNat_ne hi' (by omega)) _ _

/-- The write counter moves over the cell it stands on. -/
theorem contents_advance (hd : cap ∣ M) (hM : cap < M) (cells : Fin cap → α) {r w : Nat}
    (hr : r < M) (hw : w < M) (hroom : count M r w < cap) :
    contents M cells r ((w + 1) % M) = contents M cells r w ++ [cells (Fin.ofNat cap w)] := by
  have hwr : Fin.ofNat cap w = Fin.ofNat cap (r + count M r w) := by
    conv_lhs => rw [write_eq hr hw]
    exact ofNat_mod hd _
  unfold contents
  rw [count_write_succ (by omega), List.range_succ, List.map_append, hwr]
  rfl

theorem contents_push (hd : cap ∣ M) (hM : cap < M) (cells : Fin cap → α) (x : α) {r w : Nat}
    (hr : r < M) (hw : w < M) (hroom : count M r w < cap) :
    contents M (update cells (Fin.ofNat cap w) x) r ((w + 1) % M)
      = contents M cells r w ++ [x] := by
  rw [contents_advance hd hM _ hr hw hroom, contents_update hd _ _ hr hw hroom,
    update_self]

theorem contents_pop (hd : cap ∣ M) (cells : Fin cap → α) {r w : Nat}
    (hr : r < M) (hne : count M r w ≠ 0) :
    contents M cells r w
      = cells (Fin.ofNat cap r) :: contents M cells ((r + 1) % M) w := by
  unfold contents
  rw [← count_read_succ hr hne, List.range_succ_eq_map, List.map_cons, List.map_map]
  congr 1
  apply List.map_congr_left
  intro i _
  have h : Fin.ofNat cap ((r + 1) % M + i) = Fin.ofNat cap (r + 1 + i) := by
    apply Fin.ext
    simp only [Fin.val_ofNat]
    rw [Nat.add_mod, Nat.mod_mod_of_dvd _ hd, ← Nat.add_mod]
  rw [h, Function.comp_apply, Nat.succ_eq_add_one, show r + (i + 1) = r + 1 + i by omega]

theorem count_write_pred {r w : Nat} (hw : w < M) (hc : count M r w ≠ 0) :
    count M r ((w + (M - 1)) % M) + 1 = count M r w := by
  unfold count at hc ⊢
  rw [Nat.mod_add_mod, show w + (M - 1) + (M - r) = w + (M - r) + (M - 1) by omega]
  rw [← Nat.mod_add_mod]
  generalize hx : (w + (M - r)) % M = x at hc
  have hlt : x < M := hx ▸ Nat.mod_lt _ (by omega)
  rw [show x + (M - 1) = x - 1 + M by omega, Nat.add_mod_right, Nat.mod_eq_of_lt (by omega)]
  omega

/-- The newest element is taken back. -/
theorem contents_unpush (hd : cap ∣ M) (cells : Fin cap → α) {r w : Nat} (hr : r < M) (hw : w < M)
    (hne : count M r w ≠ 0) :
    contents M cells r w = contents M cells r ((w + (M - 1)) % M) ++
      [cells (Fin.ofNat cap ((w + (M - 1)) % M))] := by
  have hpred := count_write_pred hw hne
  have hlast : Fin.ofNat cap ((w + (M - 1)) % M) =
      Fin.ofNat cap (r + count M r ((w + (M - 1)) % M)) := by
    conv_lhs => rw [write_eq hr (Nat.mod_lt _ (by omega))]
    exact ofNat_mod hd _
  rw [contents, ← hpred, List.range_succ, List.map_append, List.map_singleton, hlast]
  rfl

end Xv6.Lib.Ring
