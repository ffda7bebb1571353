import Xv6.Primes.Chain
import Mathlib.Algebra.BigOperators.Intervals

/-!
# The pipeline stops, and stops with the primes
-/
namespace Xv6.Primes

set_option autoImplicit false

open Xv6.Lib

variable {N cap : Nat} {s s' : Sys}

/-! ## No deadlock -/

/-- A process that does not read or wait can go on if its output has room. -/
theorem Inv.live (hi : Inv N s) {i : Nat} (hle : i ≤ s.last) (hcap : 0 < cap)
    (hroom : (s.pc i).top = false → s.queue i = [])
    (hread : s.pc i ≠ .readPrime ∧ ∀ p, s.pc i ≠ .read p)
    (hwait : s.pc i ≠ .mainWait ∧ s.pc i ≠ .wait ∧ s.pc i ≠ .exited) : step N cap s i ≠ none := by
  have hs := hi.shape i hle
  have hproc : (s.proc i).pc = s.pc i := rfl
  rw [step, if_pos hle, next, hproc]
  cases hpc : s.pc i with
  | mainWrite n =>
    have hpip : (s.proc i).pip = i := by grind [Shape]
    simp only [hpip, hroom (by rw [hpc]; rfl), List.length_nil, if_pos hcap]
    split <;> simp
  | write p n =>
    have hpip1 := hs.pip1 (by rw [hpc]; rfl)
    simp [hpip1, hroom (by rw [hpc]; rfl), hcap]
  | readPrime => exact absurd hpc hread.1
  | read p => exact absurd hpc (hread.2 p)
  | mainWait => exact absurd hpc hwait.1
  | wait => exact absurd hpc hwait.2.1
  | exited => exact absurd hpc hwait.2.2
  | _ => simp

/-- A process that reads can go on when its input is not empty or has been closed. -/
theorem Inv.reads (hi : Inv N s) {k : Nat} (hle : k + 1 ≤ s.last)
    (hread : s.pc (k + 1) = .readPrime ∨ ∃ p, s.pc (k + 1) = .read p)
    (hready : s.queue k ≠ [] ∨ (s.pc k).shut = true) : step N cap s (k + 1) ≠ none := by
  have hs := hi.shape (k + 1) hle
  have hpip : (s.proc (k + 1)).pip = k := hs.pip (by grind) (by grind) (by grind)
  have hproc : (s.proc (k + 1)).pc = s.pc (k + 1) := rfl
  have hin : s.input k ≠ none := by
    rw [Sys.input]
    split
    · simp
    · rename_i hq
      have hshut := hready.resolve_left (absurd hq)
      rw [if_pos ((hi.closed_iff_shut hle (by grind)).mpr hshut)]
      simp
  obtain ⟨⟨o, t⟩, ht⟩ := Option.ne_none_iff_exists'.mp hin
  rw [step, if_pos hle, next, hproc]
  obtain hpc | ⟨p, hpc⟩ := hread <;> cases o <;> simp [hpc, hpip, ht]

/-- Behind an empty pipe that is still open somebody can go on. -/
theorem Inv.moves (hi : Inv N s) (hcap : 0 < cap) (k : Nat) (hk : k < s.last) (hq : s.queue k = [])
    (hopen : (s.pc k).shut = false) : ∃ i, step N cap s i ≠ none := by
  have hlive : ∀ i < s.last, s.queue i = [] → (s.pc i).shut = false → (∀ p, s.pc i ≠ .read p) →
      step N cap s i ≠ none := by
    intro i hi' hq' hs' hr'
    have := hi.forked i hi'
    exact hi.live hi'.le hcap (fun _ => hq') (by grind) (by grind)
  induction k with
  | zero =>
    refine ⟨0, hlive 0 hk hq hopen fun p hp => ?_⟩
    have := (hi.shape 0 hk.le).main
    grind
  | succ k ih =>
    by_cases hread : ∃ p, s.pc (k + 1) = .read p
    · by_cases hready : s.queue k ≠ [] ∨ (s.pc k).shut = true
      · exact ⟨k + 1, hi.reads hk.le (.inr hread) hready⟩
      · exact ih (by omega) (by grind) (by grind)
    · exact ⟨k + 1, hlive _ hk hq hopen fun p hp => hread ⟨p, hp⟩⟩

/-- When nobody can go on, everybody has exited. -/
theorem Inv.all_exited (hi : Inv N s) (hcap : 0 < cap) (hstuck : ∀ i, step N cap s i = none) (d : Nat)
    (hd : d ≤ s.last) : s.pc (s.last - d) = .exited := by
  induction d with
  | zero =>
    by_contra hne
    have htop := hi.top
    by_cases hread : s.pc s.last = .readPrime
    · obtain ⟨k, hk⟩ : ∃ k, s.last = k + 1 := Nat.exists_eq_succ_of_ne_zero fun h0 => by
        have := hi.zero h0
        grind
      rw [hk] at hread
      by_cases hready : s.queue k ≠ [] ∨ (s.pc k).shut = true
      · exact hi.reads hk.ge (.inl hread) hready (hstuck _)
      · obtain ⟨i, hmove⟩ : ∃ i, step N cap s i ≠ none :=
          hi.moves hcap k (by omega) (by grind) (by grind)
        exact hmove (hstuck i)
    · exact hi.live (Nat.le_refl _) hcap (by grind) (by grind) (by grind) (hstuck s.last)
  | succ d ih =>
    have hnext := ih (by omega)
    obtain ⟨i, hi'⟩ : ∃ i, s.last - (d + 1) = i ∧ s.last - d = i + 1 := ⟨_, rfl, by omega⟩
    rw [hi'.2] at hnext
    rw [hi'.1]
    have hshut := hi.eof i (by omega) (by rw [hnext]; rfl)
    by_contra hne
    have hreap : s.reap i = true := by
      rw [Sys.reap, List.any_eq_true]
      refine ⟨i + 1, by simp; omega, ?_⟩
      simpa using ⟨(hi.shape (i + 1) (by omega)).parent i rfl, hnext⟩
    have hproc : (s.proc i).pc = s.pc i := rfl
    have hi'' := hstuck i
    rw [step, if_pos (by omega), next, hproc] at hi''
    cases hpc : s.pc i <;> simp_all [Pc.shut]

theorem Inv.out_of_stuck (hi : Inv N s) (hcap : 0 < cap) (hstuck : ∀ i, step N cap s i = none) :
    (∀ i ≤ s.last, s.pc i = .exited) ∧ s.out = sieve (upto 2 N) := by
  have hall : ∀ i ≤ s.last, s.pc i = .exited := by
    intro i hle
    have := hi.all_exited hcap hstuck (s.last - i) (by omega)
    rwa [Nat.sub_sub_self hle] at this
  refine ⟨hall, ?_⟩
  rw [← hi.data, Sys.todo]
  cases hl : s.last with
  | zero =>
    have := hi.zero hl
    have := hall 0 (Nat.zero_le _)
    grind
  | succ k =>
    dsimp only
    rw [hall k (by omega), hall (k + 1) (by omega)]
    exact (List.append_nil _).symm

/-! ## Every run ends -/

/-- What a record in pipe `k` can still make the processes do. -/
def weight (N k : Nat) : Nat := 13 * (N + 4 - k)

/-- What process `i` can still do by itself. -/
def rank (N i : Nat) : Pc → Nat
  | .mainPipe => (weight N 0 + 2) * (N - 1) + 8
  | .mainFork => (weight N 0 + 2) * (N - 1) + 7
  | .mainClose => (weight N 0 + 2) * (N - 1) + 3
  | .mainWrite n => (weight N 0 + 2) * (N + 1 - n) + 2
  | .pipe _ => 12
  | .fork _ => 11
  | .print _ => 6
  | .read _ => 5
  | .write _ _ => weight N i + 6
  | .childClose | .closeIn => 4
  | .closeWrite | .closeOutRead => 3
  | .readPrime | .closeOutWrite => 2
  | .mainWait | .closeAtEnd | .wait => 1
  | .exited => 0

def work (N : Nat) (s : Sys) : Nat :=
  ∑ i ∈ Finset.range (s.last + 1), rank N i (s.pc i) +
    ∑ k ∈ Finset.range s.pipes, weight N k * (s.queue k).length

theorem sum_update {n i : Nat} (hi : i < n) {f g : Nat → Nat} (hne : ∀ j ≠ i, g j = f j) :
    ∑ j ∈ Finset.range n, g j + f i = ∑ j ∈ Finset.range n, f j + g i := by
  have hmem : i ∈ Finset.range n := Finset.mem_range.mpr hi
  have hrest : ∑ j ∈ (Finset.range n).erase i, g j = ∑ j ∈ (Finset.range n).erase i, f j :=
    Finset.sum_congr rfl fun j hj => hne j (Finset.ne_of_mem_erase hj)
  rw [← Finset.add_sum_erase _ (fun j => g j) hmem, ← Finset.add_sum_erase _ (fun j => f j) hmem, hrest]
  omega

theorem work_put {i : Nat} {p : Proc} (hle : i ≤ s.last) :
    work N (s.put i p) + rank N i (s.pc i) = work N s + rank N i p.pc := by
  have h := sum_update (n := s.last + 1) (by omega : i < s.last + 1) (f := fun j => rank N j (s.pc j))
    (g := fun j => rank N j ((s.put i p).pc j)) fun j hj => by rw [pc_put, if_neg hj]
  rw [pc_put, if_pos rfl] at h
  unfold work
  change ∑ j ∈ Finset.range (s.last + 1), rank N j ((s.put i p).pc j) +
    ∑ k ∈ Finset.range s.pipes, weight N k * (s.queue k).length + _ = _
  omega

theorem work_setQueue {k : Nat} {xs : List Nat} (hk : k < s.pipes) :
    work N (s.setQueue k xs) + weight N k * (s.queue k).length =
      work N s + weight N k * xs.length := by
  have h := sum_update hk (f := fun j => weight N j * (s.queue j).length)
    (g := fun j => weight N j * ((s.setQueue k xs).queue j).length) fun j hj => by
      rw [Sys.setQueue]
      simp [hj]
  have hself : (s.setQueue k xs).queue k = xs := Function.update_self ..
  rw [hself] at h
  unfold work
  change ∑ i ∈ Finset.range (s.last + 1), rank N i (s.pc i) +
    ∑ j ∈ Finset.range s.pipes, weight N j * ((s.setQueue k xs).queue j).length + _ = _
  omega

/-- A new pipe is empty. -/
theorem work_newPipe_lt {i : Nat} {p : Proc} (hle : i ≤ s.last)
    (hlt : rank N i p.pc < rank N i (s.pc i)) : work N (s.newPipe i p) < work N s := by
  have hsum : ∑ k ∈ Finset.range (s.pipes + 1), weight N k * ((s.setQueue s.pipes []).queue k).length =
      ∑ k ∈ Finset.range s.pipes, weight N k * (s.queue k).length := by
    rw [Finset.sum_range_succ]
    have hnew : (s.setQueue s.pipes []).queue s.pipes = [] := Function.update_self ..
    rw [hnew, List.length_nil, Nat.mul_zero, Nat.add_zero]
    refine Finset.sum_congr rfl fun k hk => ?_
    have hne : k ≠ s.pipes := (Finset.mem_range.mp hk).ne
    have hold : (s.setQueue s.pipes []).queue k = s.queue k := Function.update_of_ne hne ..
    rw [hold]
  have hput : work N (s.put i p) + rank N i (s.pc i) = _ := work_put hle
  have hpc : (s.newPipe i p).pc = (s.put i p).pc := by
    funext j
    exact (pc_put i j _).trans (pc_put i j p).symm
  have hwork : work N (s.newPipe i p) = work N (s.put i p) := by
    unfold work
    rw [hpc]
    exact congrArg _ hsum
  omega

theorem work_newProc_lt {child parent : Pc} (hlt : rank N s.last parent +
    rank N (s.last + 1) child < rank N s.last (s.pc s.last)) :
    work N (s.newProc s.last child parent) < work N s := by
  have hput : work N (s.go s.last parent) + rank N s.last (s.pc s.last) = _ := work_put (Nat.le_refl _)
  have hnew : (s.newProc s.last child parent).pc (s.last + 1) = child :=
    (pc_put _ _ _).trans (if_pos rfl)
  have hsum : ∑ i ∈ Finset.range (s.last + 1), rank N i ((s.newProc s.last child parent).pc i) =
      ∑ i ∈ Finset.range (s.last + 1), rank N i ((s.go s.last parent).pc i) := by
    refine Finset.sum_congr rfl fun i hi => ?_
    have hne : i ≠ s.last + 1 := (Finset.mem_range.mp hi).ne
    exact congrArg (rank N i) ((pc_put _ _ _).trans (if_neg hne))
  have hwork : work N (s.newProc s.last child parent) =
      work N (s.go s.last parent) + rank N (s.last + 1) child := by
    unfold work
    change ∑ i ∈ Finset.range (s.last + 1 + 1), _ + ∑ k ∈ Finset.range s.pipes, _ = _
    rw [Finset.sum_range_succ, hsum, hnew]
    exact Nat.add_right_comm ..
  dsimp only at hput
  omega

theorem Inv.last_le (hi : Inv N s) : s.last ≤ N + 1 := by
  cases hl : s.last with
  | zero => exact Nat.zero_le _
  | succ k =>
    have hcount := hi.count k hl
    have hlen : (s.out ++ s.todo N).length ≤ N - 1 := by
      rw [hi.data, sieve_upto]
      refine (List.length_filter_le _ _).trans ?_
      rw [upto, List.length_range']
      omega
    rw [Sys.todo, hl] at hlen
    simp only [List.length_append] at hlen
    omega

theorem work_put_lt {i : Nat} {p : Proc} (hle : i ≤ s.last)
    (hlt : rank N i p.pc < rank N i (s.pc i)) : work N (s.put i p) < work N s := by
  have : work N (s.put i p) + _ = _ := work_put hle
  omega

/-- Process `i` passes a record on, or takes one. -/
theorem work_record_lt {i k : Nat} {xs : List Nat} {p : Proc} (hle : i ≤ s.last) (hk : k < s.pipes)
    (hlt : rank N i p.pc + weight N k * xs.length <
      rank N i (s.pc i) + weight N k * (s.queue k).length) :
    work N ((s.setQueue k xs).put i p) < work N s := by
  have hput : work N ((s.setQueue k xs).put i p) + rank N i (s.pc i) = _ := work_put hle
  have hqueue : work N (s.setQueue k xs) + _ = _ := work_setQueue hk
  omega

theorem weight_succ {k : Nat} (hk : k ≤ N + 1) : weight N k = weight N (k + 1) + 13 := by
  unfold weight
  omega

theorem Inv.work_lt (hi : Inv N s) {i : Nat} (hstep : step N cap s i = some s') :
    work N s' < work N s := by
  obtain ⟨hle, hnext⟩ := Option.ite_none_right_eq_some.mp hstep
  have hs := hi.shape i hle
  have hproc : (s.proc i).pc = s.pc i := rfl
  have hlast := hi.last_le
  have hpipes : s.last ≤ s.pipes := by
    rw [hi.pipes]
    exact Nat.le_add_right ..
  have hlt := hi.lt_last hle
  have heq := hi.eq_last hle
  rw [next, hproc] at hnext
  cases hpc : s.pc i with
  | mainClose | childClose | closeWrite | closeAtEnd | closeIn | closeOutRead | closeOutWrite =>
    rw [hpc] at hnext
    cases hnext
    exact work_put_lt hle (by simp [hpc, rank])
  | mainWait | wait =>
    rw [hpc] at hnext
    obtain ⟨-, hnext⟩ := Option.ite_none_right_eq_some.mp hnext
    cases hnext
    exact work_put_lt hle (by simp [hpc, rank])
  | print p =>
    rw [hpc] at hnext
    cases hnext
    exact work_put_lt hle (by simp [hpc, rank])
  | exited =>
    rw [hpc] at hnext
    cases hnext
  | mainPipe | pipe p =>
    rw [hpc] at hnext
    cases hnext
    exact work_newPipe_lt hle (by simp [hpc, rank])
  | mainFork | fork p =>
    rw [hpc] at hnext heq
    cases hnext
    cases heq rfl
    refine work_newProc_lt ?_
    simp only [hpc, rank]
    omega
  | mainWrite n =>
    rw [hpc] at hnext hlt
    have hpip : (s.proc i).pip = i := by grind [Shape]
    obtain rfl : i = 0 := by grind [Shape]
    simp only [hpip] at hnext
    split at hnext
    · rename_i hn
      obtain ⟨-, hnext⟩ := Option.ite_none_right_eq_some.mp hnext
      cases hnext
      refine work_record_lt hle (by have := hlt rfl; omega) ?_
      obtain ⟨m, hm, hm'⟩ : ∃ m, N + 1 - n = m + 1 ∧ N + 1 - (n + 1) = m := ⟨N - n, by omega, by omega⟩
      simp only [hpc, rank, hm, hm', List.length_append, List.length_singleton, Nat.mul_succ]
      omega
    · cases hnext
      exact work_put_lt hle (by simp [hpc, rank])
  | write p n =>
    rw [hpc] at hnext hlt
    simp only [hs.pip1 (by rw [hpc]; rfl)] at hnext
    obtain ⟨-, hnext⟩ := Option.ite_none_right_eq_some.mp hnext
    cases hnext
    refine work_record_lt hle (by have := hlt rfl; omega) ?_
    simp only [hpc, rank, List.length_append, List.length_singleton, Nat.mul_succ]
    omega
  | readPrime | read p =>
    rw [hpc] at hnext
    obtain ⟨k, rfl⟩ : ∃ k, i = k + 1 := Nat.exists_eq_succ_of_ne_zero (by grind [Shape])
    have hpip : (s.proc (k + 1)).pip = k := hs.pip (by simp [hpc]) (by simp [hpc]) (by simp [hpc])
    have hweight := weight_succ (N := N) (k := k) (by omega)
    simp only [hpip] at hnext
    cases hin : s.input k with
    | none =>
      rw [hin] at hnext
      cases hnext
    | some r =>
      rw [hin] at hnext
      obtain ⟨x, xs, hq, rfl⟩ | ⟨hq, hc, rfl⟩ := input_cases hin
      · cases hnext
        refine work_record_lt hle (by omega) ?_
        simp only [hpc, hq, List.length_cons, Nat.mul_succ]
        first
          | (split <;> simp only [rank] <;> omega)
          | (simp only [rank]; omega)
      · cases hnext
        exact work_put_lt hle (by simp [hpc, rank])

theorem Inv.work_run (hi : Inv N s) {as : List Nat} (hrun : run (step N cap) s as = some s') :
    as.length + work N s' ≤ work N s := by
  induction as generalizing s with
  | nil =>
    cases hrun
    simp
  | cons a as ih =>
    obtain ⟨t, hstep, hrun⟩ := run_cons_some.mp hrun
    have := ih (inv_step hi hstep) hrun
    have := hi.work_lt hstep
    rw [List.length_cons]
    omega

/-- In every run what has been printed is the start of the list of the primes up to `N`. Once a
process has closed the write end of its input, only the process before it has that end open, and when
that one has closed it too there is an end-of-file. A run has a bounded number of steps, and when
nobody can go on all processes have exited and all primes are printed. -/
theorem primes_printed (N : Nat) {cap : Nat} (hcap : 0 < cap) (as : List Nat) {s : Sys}
    (hrun : run (step N cap) start as = some s) :
    s.out <+: (upto 2 N).filter (·.Prime) ∧
      (∀ i < s.last, .wr i ∉ (s.proc (i + 1)).fds →
        (∀ j ≤ s.last, .wr i ∈ (s.proc j).fds → j = i) ∧
          (.wr i ∉ (s.proc i).fds → s.closed i = true)) ∧
      as.length ≤ work N start ∧
      ((∀ i, step N cap s i = none) →
        s.out = (upto 2 N).filter (·.Prime) ∧ ∀ i ≤ s.last, (s.proc i).pc = .exited) := by
  have hi : Inv N s := run_invariant (fun _ _ _ hi hstep => inv_step hi hstep) (inv_start N) hrun
  refine ⟨?_, fun i hlt hclosed => ?_, ?_, fun hstuck => ?_⟩
  · rw [← sieve_upto, ← hi.data]
    exact List.prefix_append ..
  · have honly : ∀ j ≤ s.last, .wr i ∈ (s.proc j).fds → j = i := by
      intro j hj hmem
      obtain ⟨rfl, -⟩ | ⟨rfl, -⟩ := (hi.shape j hj).wr_mem hmem
      · rfl
      · exact absurd hmem hclosed
    refine ⟨honly, fun hself => (closed_iff i).mpr fun j hj hmem => hself ?_⟩
    rwa [honly j hj hmem] at hmem
  · have := (inv_start N).work_run hrun
    omega
  · obtain ⟨hall, hout⟩ := hi.out_of_stuck hcap hstuck
    exact ⟨hout.trans (sieve_upto N), hall⟩

/-- A run for `N = 3` with room for one record in a pipe. -/
def three : List Nat := [0, 0, 0, 0] ++ List.replicate 5 1 ++ [0, 0] ++ List.replicate 6 1 ++
  List.replicate 10 2 ++ List.replicate 4 3 ++ [2, 1, 0]

theorem primes_printed_three : ∃ s, run (step 3 1) start three = some s ∧ s.out = [2, 3] := by
  have hok : (run (step 3 1) start three).map (fun s =>
      (s.last, (List.range 4).all fun i => decide ((s.proc i).pc = .exited))) = some (3, true) := by
    decide +kernel
  obtain ⟨s, hrun, hs⟩ := Option.map_eq_some_iff.mp hok
  obtain ⟨hlast, hexit⟩ := Prod.mk.inj hs
  have hstuck : ∀ i, step 3 1 s i = none := by
    intro i
    rw [step, hlast]
    split
    · have hpc := of_decide_eq_true (List.all_eq_true.mp hexit i (List.mem_range.mpr (by omega)))
      rw [next, hpc]
    · rfl
  obtain ⟨-, -, -, hend⟩ := primes_printed 3 (by decide : 0 < 1) three hrun
  exact ⟨s, hrun, (hend hstuck).1.trans (by decide)⟩

end Xv6.Primes
