import Mathlib.Data.Nat.ModEq
import Mathlib.Tactic.Ring

/-!
# Byte memories and little-endian fields

A memory is a function from addresses to bytes. `getLE` and `putLE` read and
write a field of `k` bytes, lowest byte first. Their interface is four lemmas: a
read depends on its own bytes only, it is bounded, it returns what was written,
and it does not see a write elsewhere.
-/
namespace Xv6.Lib.Bytes

set_option autoImplicit false

abbrev Mem := Nat → UInt8

/-- The number stored in the `k` bytes at `a`, lowest byte first. -/
def getLE (m : Mem) (a : Nat) : Nat → Nat
  | 0 => 0
  | k + 1 => (m a).toNat + 256 * getLE m (a + 1) k

/-- Store the low `8 * k` bits of `v` in the `k` bytes at `a`. -/
def putLE (m : Mem) (a k v : Nat) : Mem :=
  fun x => if a ≤ x ∧ x < a + k then UInt8.ofNat (v / 256 ^ (x - a)) else m x

/-- `memmove` between two memories: `n` bytes from `src` at `b` to `dst` at `a`. -/
def blit (dst : Mem) (a : Nat) (src : Mem) (b n : Nat) : Mem :=
  fun x => if a ≤ x ∧ x < a + n then src (b + (x - a)) else dst x

theorem getLE_congr {m m' : Mem} {a k : Nat} (h : ∀ x, a ≤ x → x < a + k → m x = m' x) :
    getLE m a k = getLE m' a k := by
  induction k generalizing a with
  | zero => rfl
  | succ k ih =>
    rw [getLE, getLE, h a le_rfl (by omega), ih fun x h1 h2 => h x (by omega) (by omega)]

theorem getLE_zeros (a k : Nat) : getLE (fun _ => 0) a k = 0 := by
  induction k generalizing a with
  | zero => rfl
  | succ k ih =>
    rw [getLE, ih]
    rfl

theorem getLE_lt (m : Mem) (a k : Nat) : getLE m a k < 256 ^ k := by
  induction k generalizing a with
  | zero => exact Nat.one_pos
  | succ k ih =>
    have h := ih (a + 1)
    have hb := (m a).toNat_lt
    rw [getLE, Nat.pow_succ]
    omega

theorem putLE_outside {m : Mem} {a k v x : Nat} (h : x < a ∨ a + k ≤ x) :
    putLE m a k v x = m x := by
  unfold putLE
  rw [if_neg (by omega)]

/-- Reading a memory that holds the base-256 digits of `v` gives `v` back. -/
theorem getLE_digits {m : Mem} {a k v : Nat}
    (h : ∀ i, i < k → m (a + i) = UInt8.ofNat (v / 256 ^ i)) : getLE m a k = v % 256 ^ k := by
  induction k generalizing a v with
  | zero => simp [getLE, Nat.mod_one]
  | succ k ih =>
    have h0 : m a = UInt8.ofNat v := by simpa using h 0 (Nat.succ_pos k)
    have ht : getLE m (a + 1) k = v / 256 % 256 ^ k := by
      refine ih fun i hi => ?_
      rw [show a + 1 + i = a + (i + 1) by omega, h (i + 1) (by omega), Nat.div_div_eq_div_mul,
        Nat.pow_succ']
    rw [getLE, ht, h0, Nat.pow_succ', Nat.mod_mul]
    simp

theorem getLE_putLE_same (m : Mem) (a k v : Nat) : getLE (putLE m a k v) a k = v % 256 ^ k := by
  refine getLE_digits fun i hi => ?_
  unfold putLE
  rw [if_pos (by omega), Nat.add_sub_cancel_left]

theorem getLE_putLE_of_lt {m : Mem} {a k v : Nat} (hv : v < 256 ^ k) :
    getLE (putLE m a k v) a k = v := by
  rw [getLE_putLE_same, Nat.mod_eq_of_lt hv]

theorem getLE_putLE_disjoint (m : Mem) {a k v b j : Nat} (h : a + k ≤ b ∨ b + j ≤ a) :
    getLE (putLE m a k v) b j = getLE m b j :=
  getLE_congr fun _ h1 h2 => putLE_outside (by omega)

end Xv6.Lib.Bytes
