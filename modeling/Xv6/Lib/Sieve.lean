import Mathlib.Data.Nat.Prime.Basic
import Mathlib.Data.List.Sort

/-!
# Sieving a list

Keep the first number, drop its multiples, and go on with what is left.
-/
namespace Xv6.Lib

set_option autoImplicit false

/-- What is left of a list without the multiples of `p`. -/
def coprimes (p : Nat) (xs : List Nat) : List Nat := xs.filter fun n => n % p ≠ 0

theorem coprimes_cons_self_ne {p n : Nat} (xs : List Nat) (h : n % p ≠ 0) :
    coprimes p (n :: xs) = n :: coprimes p xs := List.filter_cons_of_pos (by simpa using h)

theorem coprimes_cons_of_dvd {p n : Nat} (xs : List Nat) (h : n % p = 0) :
    coprimes p (n :: xs) = coprimes p xs := List.filter_cons_of_neg (by simpa using h)

def sieve : List Nat → List Nat
  | [] => []
  | p :: xs => p :: sieve (coprimes p xs)
  termination_by xs => xs.length
  decreasing_by exact Nat.lt_succ_of_le (List.length_filter_le _ _)

theorem sieve_nil : sieve [] = [] := by rw [sieve]

theorem sieve_cons (p : Nat) (xs : List Nat) : sieve (p :: xs) = p :: sieve (coprimes p xs) := by
  rw [sieve]

/-- In a rising list that has every divisor of its members except 1, the primes are what is left. -/
theorem sieve_eq_filter (xs : List Nat) (hsorted : xs.Pairwise (· < ·)) (htwo : ∀ n ∈ xs, 2 ≤ n)
    (hdvd : ∀ n ∈ xs, ∀ d, 2 ≤ d → d ∣ n → d ∈ xs) : sieve xs = xs.filter (·.Prime) := by
  induction xs using sieve.induct with
  | case1 => rw [sieve_nil, List.filter_nil]
  | case2 p xs ih =>
    have hlt : ∀ n ∈ xs, p < n := (List.pairwise_cons.mp hsorted).1
    have hp : p.Prime := by
      refine Nat.prime_def.mpr ⟨htwo p List.mem_cons_self, fun d hd => ?_⟩
      by_cases h1 : d = 1
      · exact .inl h1
      · have hpos : 0 < p := Nat.lt_of_lt_of_le (by decide) (htwo p List.mem_cons_self)
        have hle := Nat.le_of_dvd hpos hd
        have hd0 : 0 < d := Nat.pos_of_dvd_of_pos hd hpos
        obtain rfl | hmem := List.mem_cons.mp (hdvd p List.mem_cons_self d (by omega) hd)
        · exact .inr rfl
        · exact absurd (hlt d hmem) (by omega)
    have hmem : ∀ n, n ∈ coprimes p xs ↔ n ∈ xs ∧ ¬p ∣ n := by
      intro n
      simp [coprimes, List.mem_filter, Nat.dvd_iff_mod_eq_zero]
    rw [sieve_cons, ih, List.filter_cons_of_pos (by simpa using hp), coprimes, List.filter_filter]
    · congr 1
      refine List.filter_congr fun n hn => ?_
      -- a larger prime is no multiple of `p`
      have : n.Prime → n % p ≠ 0 := by
        intro hnp h0
        have := (Nat.prime_dvd_prime_iff_eq hp hnp).mp (Nat.dvd_of_mod_eq_zero h0)
        exact absurd (hlt n hn) (by omega)
      by_cases hnp : n.Prime <;> simp_all
    · exact (List.pairwise_cons.mp hsorted).2.filter _
    · exact fun n hn => htwo n (List.mem_cons_of_mem _ ((hmem n).mp hn).1)
    · intro n hn d hd hdn
      obtain ⟨hnx, hpn⟩ := (hmem n).mp hn
      have hpd : ¬p ∣ d := fun h => hpn (h.trans hdn)
      obtain rfl | hdx := List.mem_cons.mp (hdvd n (List.mem_cons_of_mem _ hnx) d hd hdn)
      · exact absurd (Nat.dvd_refl d) hpd
      · exact (hmem d).mpr ⟨hdx, hpd⟩

/-- The numbers from `n` up to `N`. -/
def upto (n N : Nat) : List Nat := List.range' n (N + 1 - n)

theorem upto_cons {n N : Nat} (h : n ≤ N) : upto n N = n :: upto (n + 1) N := by
  obtain ⟨m, hm⟩ : ∃ m, N + 1 - n = m + 1 := ⟨N - n, by omega⟩
  have hm' : N + 1 - (n + 1) = m := by omega
  rw [upto, upto, hm, hm', List.range'_succ]

theorem upto_nil {n N : Nat} (h : N < n) : upto n N = [] := by
  rw [upto, Nat.sub_eq_zero_of_le h, List.range'_zero]

theorem sieve_upto (N : Nat) : sieve (upto 2 N) = (upto 2 N).filter (·.Prime) := by
  have hmem : ∀ n, n ∈ upto 2 N ↔ 2 ≤ n ∧ n ≤ N := by
    intro n
    rw [upto, List.mem_range'_1]
    omega
  refine sieve_eq_filter _ List.pairwise_lt_range' (fun n hn => ((hmem n).mp hn).1) ?_
  intro n hn d hd hdn
  have hle := Nat.le_of_dvd (by have := (hmem n).mp hn; omega) hdn
  exact (hmem d).mpr ⟨hd, hle.trans ((hmem n).mp hn).2⟩

end Xv6.Lib
