import Xv6.Vm.Model
import Mathlib.Data.Nat.Bitwise

/-!
# The arithmetic of addresses and page-table entries

An entry is a page address with ten flag bits below it. The lemmas read the two
parts back, and express the indices that `walk` takes out of a virtual address by
division, in terms of the number of its page.
-/
namespace Xv6.Vm

set_option autoImplicit false

/-! ## Entries -/

theorem shiftRight_of_lt {f : Nat} (hf : f < 1024) : f >>> 10 = 0 := by
  rw [Nat.shiftRight_eq_div_pow]
  omega

theorem PTE2PA_or {p f : Nat} (hp : p % PGSIZE = 0) (hf : f < 1024) :
    PTE2PA (PA2PTE p ||| f) = p := by
  unfold PTE2PA PA2PTE
  rw [Nat.shiftRight_or_distrib, Nat.shiftLeft_shiftRight, shiftRight_of_lt hf, Nat.or_zero,
    Nat.shiftRight_eq_div_pow, Nat.shiftLeft_eq]
  unfold PGSIZE at hp
  omega

theorem PA2PTE_and {k : Nat} (p : Nat) (hk : k < 1024) : PA2PTE p &&& k = 0 := by
  unfold PA2PTE
  apply Nat.eq_of_testBit_eq
  intro i
  rw [Nat.testBit_and, Nat.testBit_shiftLeft, Nat.zero_testBit]
  by_cases hi : 10 ≤ i
  · rw [Nat.testBit_lt_two_pow (x := k) (i := i), Bool.and_false]
    exact lt_of_lt_of_le hk (Nat.pow_le_pow_right (n := 2) (by omega) hi)
  · rw [decide_eq_false hi, Bool.false_and, Bool.false_and]

/-- A test of flag bits sees only the flags of an entry. -/
theorem or_and_flags {k : Nat} (p f : Nat) (hk : k < 1024) : (PA2PTE p ||| f) &&& k = f &&& k := by
  rw [Nat.and_or_distrib_right, PA2PTE_and p hk, Nat.zero_or]

theorem PTE_FLAGS_or {f : Nat} (p : Nat) (hf : f < 1024) : PTE_FLAGS (PA2PTE p ||| f) = f := by
  unfold PTE_FLAGS
  rw [or_and_flags p f (by omega)]
  exact Nat.and_two_pow_sub_one_of_lt_two_pow (n := 10) hf

theorem pte_lt {p f : Nat} (hp : p < 2 ^ 56) (hf : f < 1024) : PA2PTE p ||| f < 256 ^ 8 := by
  have h : PA2PTE p < 2 ^ 64 := by
    unfold PA2PTE
    rw [Nat.shiftRight_eq_div_pow, Nat.shiftLeft_eq]
    omega
  exact Nat.or_lt_two_pow (n := 64) h (by omega)

/-! ## Rounding and indices -/

theorem PGROUNDUP_eq {sz : Nat} (h : sz < 2 ^ 63) : PGROUNDUP sz = pagesBetween 0 sz * PGSIZE := by
  unfold PGROUNDUP pagesBetween PGSIZE
  rw [Nat.mod_eq_of_lt (by omega), Nat.sub_zero]

theorem PGROUNDDOWN_mul (n : Nat) : PGROUNDDOWN (n * PGSIZE) = n * PGSIZE := by
  unfold PGROUNDDOWN PGSIZE
  omega

theorem PX_eq (level va : Nat) : PX level va = va / PGSIZE / 512 ^ level % 512 := by
  unfold PX PGSIZE
  rw [Nat.shiftRight_eq_div_pow, show (0x1FF : Nat) = 2 ^ 9 - 1 from rfl, Nat.and_two_pow_sub_one_eq_mod,
    Nat.div_div_eq_div_mul, Nat.pow_add, Nat.pow_mul]

theorem PX_lt (level va : Nat) : PX level va < 512 := by
  rw [PX_eq]
  exact Nat.mod_lt _ (by decide)

end Xv6.Vm
