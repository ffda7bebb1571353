import Xv6.Lib.Bytes

/-!
# The two `memmove`s

`memmove` of `kernel/string.c` takes a `uint` length and copies downwards if the destination begins
inside the source; that of `user/ulib.c` takes an `int` and copies upwards if the source lies above
the destination. Addresses are 64-bit numbers, and pointer arithmetic wraps. Both do what `blit` says,
for the lengths that their parameters can hold.
-/
namespace Xv6.Mem

open Function

set_option autoImplicit false

open Xv6.Lib.Bytes (Mem blit)

/-- The pointer at this address. -/
def ptr (a : Int) : Nat := (a % 2 ^ 64).toNat

/-- `while(n-- > 0) *d++ = *s++`, with `n` turns to go. -/
def copyUp (m : Mem) (d s : Nat) : Nat → Mem
  | 0 => m
  | n + 1 => copyUp (update m d (m s)) (ptr (d + 1)) (ptr (s + 1)) n

/-- `while(n-- > 0) *--d = *--s`. -/
def copyDown (m : Mem) (d s : Nat) : Nat → Mem
  | 0 => m
  | n + 1 =>
    let d' := ptr (d - 1)
    let s' := ptr (s - 1)
    copyDown (update m d' (m s')) d' s' n

namespace Kernel

/-- The kernel's `memmove`; the caller's length becomes a `uint`. -/
def memmove (m : Mem) (dst src len : Nat) : Mem × Nat :=
  let n : Nat := len % 2 ^ 32
  if n = 0 then (m, dst)
  else if src < dst ∧ ptr (src + n) > dst then (copyDown m (ptr (dst + n)) (ptr (src + n)) n, dst)
  else (copyUp m dst src n, dst)

end Kernel

namespace User

/-- The user library's `memmove`; the caller's length becomes an `int`, and a negative one ends either
loop at once. -/
def memmove (m : Mem) (dst src len : Nat) : Mem × Nat :=
  let n := Int.bmod len (2 ^ 32)
  if src > dst then (copyUp m dst src n.toNat, dst)
  else (copyDown m (ptr (dst + n)) (ptr (src + n)) n.toNat, dst)

end User

variable {m : Mem} {d s n : Nat}

theorem ptr_of_lt {a : Nat} (h : a < 2 ^ 64) : ptr a = a := by
  unfold ptr
  omega

theorem ptr_pred {a : Nat} (h : a < 2 ^ 64) : ptr (ptr (a + 1 : Nat) - 1) = a := by
  unfold ptr
  omega

theorem blit_zero (m : Mem) (d s : Nat) : blit m d m s 0 = m := by
  funext a
  exact if_neg (by omega)

/-- The first byte, then the rest: right as long as the first byte does not land on the rest of the
source. -/
theorem blit_up (h : d ≤ s ∨ s + n < d) :
    blit (update m d (m s)) (d + 1) (update m d (m s)) (s + 1) n =
      blit m d m s (n + 1) := by
  funext a
  unfold blit
  by_cases hin : d + 1 ≤ a ∧ a < d + 1 + n
  · have hne : s + 1 + (a - (d + 1)) ≠ d := by omega
    have he : s + 1 + (a - (d + 1)) = s + (a - d) := by omega
    rw [if_pos hin, if_pos (by omega), update_of_ne hne, he]
  · rw [if_neg hin]
    by_cases ha : a = d
    · rw [ha, update_self, if_pos (by omega), Nat.sub_self, Nat.add_zero]
    · rw [update_of_ne ha, if_neg (by omega)]

/-- The last byte, then those before it. -/
theorem blit_down (h : s ≤ d ∨ d + n < s) :
    blit (update m (d + n) (m (s + n))) d (update m (d + n) (m (s + n))) s n =
      blit m d m s (n + 1) := by
  funext a
  unfold blit
  by_cases hin : d ≤ a ∧ a < d + n
  · have hne : s + (a - d) ≠ d + n := by omega
    rw [if_pos hin, if_pos (by omega), update_of_ne hne]
  · rw [if_neg hin]
    by_cases ha : a = d + n
    · rw [ha, update_self, if_pos (by omega), Nat.add_sub_cancel_left]
    · rw [update_of_ne ha, if_neg (by omega)]

/-- Copying upwards moves the range if it does not run into its own source. -/
theorem copyUp_eq (h : d ≤ s ∨ s + n ≤ d) (hd : d + n ≤ 2 ^ 64) (hs : s + n ≤ 2 ^ 64) :
    copyUp m d s n = blit m d m s n := by
  induction n generalizing m d s with
  | zero => exact (blit_zero m d s).symm
  | succ n ih =>
    rw [copyUp, ← blit_up (by omega)]
    -- the pointers may have wrapped to 0 after the last byte, which is then not used
    cases n with
    | zero => exact (blit_zero _ _ _).symm
    | succ n =>
      rw [show ((d : Int) + 1) = (d + 1 : Nat) from rfl, show ((s : Int) + 1) = (s + 1 : Nat) from rfl,
        ptr_of_lt (by omega), ptr_of_lt (by omega)]
      exact ih (by omega) (by omega) (by omega)

/-- Copying downwards moves the range if it does not run into its own source. -/
theorem copyDown_eq (h : s ≤ d ∨ d + n ≤ s) (hd : d + n ≤ 2 ^ 64) (hs : s + n ≤ 2 ^ 64) :
    copyDown m (ptr (d + n : Nat)) (ptr (s + n : Nat)) n = blit m d m s n := by
  induction n generalizing m with
  | zero => exact (blit_zero m d s).symm
  | succ n ih =>
    have hd' : ptr (ptr (d + (n + 1) : Nat) - 1) = d + n := ptr_pred (a := d + n) (by omega)
    have hs' : ptr (ptr (s + (n + 1) : Nat) - 1) = s + n := ptr_pred (a := s + n) (by omega)
    have hrest := ih (m := update m (d + n) (m (s + n))) (by omega) (by omega) (by omega)
    rw [ptr_of_lt (a := d + n) (by omega), ptr_of_lt (a := s + n) (by omega)] at hrest
    rw [copyDown, hd', hs', hrest, blit_down (by omega)]

theorem Kernel.memmove_eq (hd : d + n ≤ 2 ^ 64) (hs : s + n ≤ 2 ^ 64) (hn : n < 2 ^ 32) :
    Kernel.memmove m d s n = (blit m d m s n, d) := by
  unfold Kernel.memmove
  simp only [Nat.mod_eq_of_lt hn]
  by_cases h0 : n = 0
  · rw [if_pos h0, h0, blit_zero]
  rw [if_neg h0]
  by_cases hover : s < d ∧ ptr (s + n) > d
  · rw [if_pos hover]
    exact congrArg (·, d) (copyDown_eq (.inl (by omega)) hd hs)
  · rw [if_neg hover]
    -- a source that begins below the destination ends below the end of the address space
    have hsep : d ≤ s ∨ s + n ≤ d := by
      by_cases hlt : s < d
      · have hp : ptr (s + n) = s + n := ptr_of_lt (a := s + n) (by omega)
        omega
      · omega
    exact congrArg (·, d) (copyUp_eq hsep hd hs)

theorem User.memmove_eq (hd : d + n ≤ 2 ^ 64) (hs : s + n ≤ 2 ^ 64) (hn : n < 2 ^ 31) :
    User.memmove m d s n = (blit m d m s n, d) := by
  have hint : Int.bmod n (2 ^ 32) = n := Int.bmod_eq_of_le_mul_two (by omega) (by omega)
  unfold User.memmove
  simp only [hint, Int.toNat_natCast]
  by_cases hlt : s > d
  · rw [if_pos hlt, copyUp_eq (.inl (by omega)) hd hs]
  · rw [if_neg hlt]
    exact congrArg (·, d) (copyDown_eq (.inl (by omega)) hd hs)

/-- However the ranges overlap, each `memmove` leaves the old source in the destination and changes
nothing else, for every length its parameter can hold; so the two agree below `2 ^ 31`. -/
theorem memmove_moves (m : Mem) (dst src n : Nat) (hd : dst + n ≤ 2 ^ 64) (hs : src + n ≤ 2 ^ 64) :
    (n < 2 ^ 32 → Kernel.memmove m dst src n = (blit m dst m src n, dst)) ∧
      (n < 2 ^ 31 → User.memmove m dst src n = (blit m dst m src n, dst) ∧
        User.memmove m dst src n = Kernel.memmove m dst src n) := by
  refine ⟨Kernel.memmove_eq hd hs, fun hn => ?_⟩
  have hu : User.memmove m dst src n = (blit m dst m src n, dst) := User.memmove_eq hd hs hn
  have hk : Kernel.memmove m dst src n = (blit m dst m src n, dst) :=
    Kernel.memmove_eq hd hs (by omega)
  exact ⟨hu, hu.trans hk.symm⟩

/-- Three bytes moved up by one, over two of them. -/
theorem memmove_moves_overlap :
    (User.memmove (fun a => UInt8.ofNat a) 11 10 3).1 12 = 11 ∧
      User.memmove (fun a => UInt8.ofNat a) 11 10 3 = Kernel.memmove (fun a => UInt8.ofNat a) 11 10 3 :=
  have h := (memmove_moves (fun a => UInt8.ofNat a) 11 10 3 (by decide) (by decide)).2 (by decide)
  ⟨by rw [h.1]; rfl, h.2⟩

/-- The user library's `memmove` with the length `2 ^ 31`, which is negative as an `int`, copies nothing:
the byte at the destination stays 0. -/
theorem memmove_negative_length :
    (User.memmove (fun a => if a = 0 then 7 else 0) (2 ^ 40) 0 (2 ^ 31)).1 (2 ^ 40) = 0 ∧
      blit (fun a => if a = 0 then 7 else 0) (2 ^ 40) (fun a => if a = 0 then 7 else 0) 0 (2 ^ 31)
        (2 ^ 40) = 7 := by
  decide +kernel

end Xv6.Mem
