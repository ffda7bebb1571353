import Mathlib.Algebra.BigOperators.Fin
import Mathlib.Algebra.Order.BigOperators.Group.Finset

/-!
# Counting over a finite family

A reference count is a sum over a family of holders, of which a step changes one.
-/
namespace Xv6.Lib

open Function

set_option autoImplicit false

variable {ι α : Type} [Fintype ι] (g : α → Nat) (o : ι → α) (i : ι)

/-- A sum of which one summand changes. -/
theorem sum_update [DecidableEq ι] (x : α) :
    (∑ j, g (update o i x j)) + g (o i) = (∑ j, g (o j)) + g x := by
  rw [← Finset.add_sum_erase _ _ (Finset.mem_univ i),
    ← Finset.add_sum_erase _ (fun j => g (o j)) (Finset.mem_univ i), update_self]
  have hrest : ∑ j ∈ Finset.univ.erase i, g (update o i x j) =
      ∑ j ∈ Finset.univ.erase i, g (o j) := by
    apply Finset.sum_congr rfl
    intro j hj
    rw [update_of_ne (Finset.ne_of_mem_erase hj)]
  omega

theorem le_sum : g (o i) ≤ ∑ j, g (o j) :=
  Finset.single_le_sum (f := fun j => g (o j)) (fun _ _ => Nat.zero_le _) (Finset.mem_univ i)

end Xv6.Lib
