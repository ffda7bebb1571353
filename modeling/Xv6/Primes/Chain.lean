import Xv6.Primes.Model

/-!
# The chain of processes

Process `i` reads pipe `i - 1` and writes pipe `i`. All but the last one have forked. `flow k` is
what has still to come out of pipe `k`, and what has been printed together with the sieve of the flow
into the last process stays what it was at the start.
-/
namespace Xv6.Primes

set_option autoImplicit false

open Xv6.Lib Function

namespace Pc

@[grind] def inMain : Pc → Bool
  | mainPipe | mainFork | mainClose | mainWrite _ | mainWait => true
  | _ => false

/-- The process has a child. -/
@[grind] def forked : Pc → Bool
  | mainClose | mainWrite _ | mainWait | print _ | read _ | write _ _ | closeIn | closeOutRead
  | closeOutWrite | wait | exited => true
  | _ => false

/-- The process has no child. -/
@[grind] def top : Pc → Bool
  | mainPipe | mainFork | childClose | closeWrite | readPrime | closeAtEnd | pipe _ | fork _
  | exited => true
  | _ => false

/-- The process has read nothing. -/
@[grind] def early : Pc → Bool
  | childClose | closeWrite | readPrime => true
  | _ => false

/-- The process has met the end of its input. -/
@[grind] def past : Pc → Bool
  | closeAtEnd | closeIn | closeOutRead | closeOutWrite | wait | exited => true
  | _ => false

/-- The process has closed its output. -/
@[grind] def shut : Pc → Bool
  | mainWait | wait | exited => true
  | _ => false

/-- The process has a pipe for a child that it has not forked. -/
@[grind] def made : Pc → Bool
  | mainFork | fork _ => true
  | _ => false

/-- The process has its output pipe in `pip1`. -/
@[grind] def piped : Pc → Bool
  | fork _ | print _ | read _ | write _ _ | closeIn | closeOutRead | closeOutWrite => true
  | _ => false

/-- The descriptors of process `i`. -/
@[grind] def fds (i : Nat) : Pc → List Fd
  | mainFork | mainClose => [.rd i, .wr i]
  | mainWrite _ => [.wr i]
  | childClose => [.rd (i - 2), .rd (i - 1), .wr (i - 1)]
  | closeWrite => [.rd (i - 1), .wr (i - 1)]
  | readPrime | closeAtEnd | pipe _ => [.rd (i - 1)]
  | fork _ | print _ | read _ | write _ _ | closeIn => [.rd (i - 1), .rd i, .wr i]
  | closeOutRead => [.rd i, .wr i]
  | closeOutWrite => [.wr i]
  | mainPipe | mainWait | wait | exited => []

/-- What a process writes to its output, from what comes into it. -/
@[grind] def pend (N : Nat) (xs : List Nat) : Pc → List Nat
  | mainPipe | mainFork | mainClose => upto 2 N
  | mainWrite n => upto n N
  | pipe p | fork p | print p | read p => coprimes p xs
  | write p n => n :: coprimes p xs
  | _ => []

/-- The prime of a process that has not printed it. -/
@[grind] def unprinted : Pc → List Nat
  | print p => [p]
  | _ => []

/-- What a process without a child will have printed, from what comes into it. -/
@[grind] def rest (xs : List Nat) : Pc → List Nat
  | childClose | closeWrite | readPrime => sieve xs
  | pipe p | fork p => p :: sieve (coprimes p xs)
  | _ => []

end Pc

namespace Sys

variable (s : Sys) (N : Nat)

def pc (i : Nat) : Pc := (s.proc i).pc

def flow : Nat → List Nat
  | 0 => s.queue 0 ++ (s.pc 0).pend N []
  | k + 1 => s.queue (k + 1) ++ (s.pc (k + 1)).pend N (flow k)

/-- What has still to be printed. -/
def todo : List Nat :=
  match s.last with
  | 0 => sieve (upto 2 N)
  | k + 1 => (s.pc k).unprinted ++ (s.pc (k + 1)).rest (s.flow N k)

end Sys

/-- What a process has in its variables and its descriptors. -/
structure Shape (s : Sys) (i : Nat) : Prop where
  fds : (s.proc i).fds = (s.pc i).fds i
  main : s.pc i = .exited ∨ ((s.pc i).inMain = true ↔ i = 0)
  pip : s.pc i ≠ .exited → s.pc i ≠ .mainPipe → s.pc i ≠ .childClose → (s.proc i).pip = i - 1
  pip1 : (s.pc i).piped = true → (s.proc i).pip1 = i
  child : s.pc i = .childClose → 2 ≤ i ∧ (s.proc i).pip = i - 2 ∧ (s.proc i).pip1 = i - 1
  parent : ∀ j, i = j + 1 → (s.proc i).parent = some j

structure Inv (N : Nat) (s : Sys) : Prop where
  shape : ∀ i ≤ s.last, Shape s i
  forked : ∀ i < s.last, (s.pc i).forked = true
  top : (s.pc s.last).top = true
  zero : s.last = 0 → s.pc 0 = .mainPipe ∨ s.pc 0 = .mainFork
  fresh : (s.pc s.last).made = true → s.queue s.last = []
  printing : ∀ i ≤ s.last, ∀ p, s.pc i = .print p →
    i + 1 = s.last ∧ (s.pc s.last).early = true ∧ s.queue i = []
  eof : ∀ i < s.last, (s.pc (i + 1)).past = true → (s.pc i).shut = true
  pipes : s.pipes = s.last + if (s.pc s.last).made then 1 else 0
  data : s.out ++ s.todo N = sieve (upto 2 N)
  count : ∀ k, s.last = k + 1 → k ≤ s.out.length + (s.pc k).unprinted.length

section

variable {s : Sys} {N : Nat}

theorem pc_put (i j : Nat) (p : Proc) : (s.put i p).pc j = if j = i then p.pc else s.pc j := by
  unfold Sys.pc Sys.put
  by_cases h : j = i
  · simp [h]
  · simp [h]

theorem flow_congr {s' : Sys} {k : Nat} (hqueue : ∀ j ≤ k, s'.queue j = s.queue j)
    (hpc : ∀ j ≤ k, s'.pc j = s.pc j) : s'.flow N k = s.flow N k := by
  induction k with
  | zero => rw [Sys.flow, Sys.flow, hqueue 0 (Nat.le_refl 0), hpc 0 (Nat.le_refl 0)]
  | succ k ih =>
    rw [Sys.flow, Sys.flow, hqueue _ (Nat.le_refl _), hpc _ (Nat.le_refl _),
      ih (fun j hj => hqueue j (by omega)) fun j hj => hpc j (by omega)]

theorem flow_at {s' : Sys} {i : Nat} (hqueue : ∀ j ≤ i, s'.queue j = s.queue j)
    (hpc : ∀ j < i, s'.pc j = s.pc j)
    (hpend : ∀ xs, (s'.pc i).pend N xs = (s.pc i).pend N xs) : s'.flow N i = s.flow N i := by
  cases i with
  | zero => rw [Sys.flow, Sys.flow, hqueue 0 (Nat.le_refl 0), hpend]
  | succ k =>
    rw [Sys.flow, Sys.flow, hqueue _ (Nat.le_refl _), hpend,
      flow_congr (fun j hj => hqueue j (by omega)) fun j hj => hpc j (by omega)]

/-- Below a process that passes on what it did nothing changes. -/
theorem flow_below {s' : Sys} {i k : Nat} (hflow : s'.flow N i = s.flow N i) (hik : i ≤ k)
    (hqueue : ∀ j, i < j → s'.queue j = s.queue j) (hpc : ∀ j, i < j → s'.pc j = s.pc j) :
    s'.flow N k = s.flow N k := by
  induction k, hik using Nat.le_induction with
  | base => exact hflow
  | succ k hk ih => rw [Sys.flow, Sys.flow, hqueue _ (by omega), hpc _ (by omega), ih]

theorem closed_iff (k : Nat) : s.closed k = true ↔ ∀ j ≤ s.last, .wr k ∉ (s.proc j).fds := by
  simp only [Sys.closed, List.all_eq_true, List.mem_range, Nat.lt_succ_iff, decide_eq_true_eq]
  constructor
  · exact fun h j hj hk => h j hj _ hk rfl
  · exact fun h j hj fd hfd he => h j hj (he ▸ hfd)

/-- Who can have the write end of a pipe open. -/
theorem Shape.wr_mem {j k : Nat} (hs : Shape s j) (hk : .wr k ∈ (s.proc j).fds) :
    j = k ∧ (s.pc j).shut = false ∨ j = k + 1 ∧ (s.pc j = .childClose ∨ s.pc j = .closeWrite) := by
  have hmain := hs.main
  rw [hs.fds] at hk
  cases hpc : s.pc j <;> rw [hpc] at hk hmain <;> simp [Pc.fds, Pc.shut, Pc.inMain] at hk hmain ⊢ <;>
    omega

/-- A process with a child has its output open until it closes it. -/
theorem Shape.wr_self {i : Nat} (hs : Shape s i) (hf : (s.pc i).forked = true)
    (hshut : (s.pc i).shut = false) : .wr i ∈ (s.proc i).fds := by
  rw [hs.fds]
  cases hpc : s.pc i <;> rw [hpc] at hf hshut <;> simp_all [Pc.fds, Pc.forked, Pc.shut]

theorem Pc.pend_of_shut {pc : Pc} (h : pc.shut = true) (N : Nat) (xs : List Nat) :
    pc.pend N xs = [] := by
  cases pc <;> simp_all [Pc.shut, Pc.pend]

theorem Pc.unprinted_of_shut {pc : Pc} (h : pc.shut = true) : pc.unprinted = [] := by
  cases pc <;> simp_all [Pc.shut, Pc.unprinted]

/-- A process that is about to read meets the end of its input when the process before it has closed
its output. -/
theorem Inv.closed_iff_shut (hi : Inv N s) {k : Nat} (hk : k < s.last)
    (hread : s.pc (k + 1) ≠ .childClose ∧ s.pc (k + 1) ≠ .closeWrite) :
    s.closed k = true ↔ (s.pc k).shut = true := by
  rw [closed_iff]
  constructor
  · intro h
    by_contra hshut
    exact h k hk.le ((hi.shape k hk.le).wr_self (hi.forked k hk) (by simpa using hshut))
  · intro hshut j hj hmem
    obtain ⟨rfl, hn⟩ | ⟨rfl, hpc⟩ := (hi.shape j hj).wr_mem hmem
    · rw [hshut] at hn
      cases hn
    · exact hpc.elim hread.1 hread.2

theorem flow_nil {k : Nat} (hqueue : s.queue k = []) (hshut : (s.pc k).shut = true) :
    s.flow N k = [] := by
  cases k <;> rw [Sys.flow, hqueue, Pc.pend_of_shut hshut, List.nil_append]

theorem Pc.unprinted_eq_nil {pc : Pc} : pc.unprinted = [] ↔ ∀ p, pc ≠ .print p := by
  cases pc <;> simp [Pc.unprinted]

/-- A step of process `i` other than `fork`. -/
theorem Inv.move (hi : Inv N s) {s' : Sys} {i : Nat} (hle : i ≤ s.last) (hlast : s'.last = s.last)
    (hproc : ∀ j ≠ i, s'.proc j = s.proc j) (hqueue : ∀ j, j ≠ i → j + 1 ≠ i → s'.queue j = s.queue j)
    (hout : s'.out = s.out ++ (s.pc i).unprinted) (hshape : Shape s' i)
    (hforked : i < s.last → (s'.pc i).forked = true) (htop : i = s.last → (s'.pc i).top = true)
    (hzero : s.last = 0 → s'.pc 0 = .mainPipe ∨ s'.pc 0 = .mainFork)
    (hfresh : i = s.last → (s'.pc i).made = true → s'.queue i = [])
    (hprint : (s'.pc i).unprinted = [])
    (hearly : ∀ k, i = k + 1 → i = s.last → (s.pc k).unprinted ≠ [] →
      (s'.pc i).early = true ∧ s'.queue k = s.queue k)
    (hpast : ∀ k, i = k + 1 → (s'.pc i).past = true → (s.pc k).shut = true)
    (hshut : (s.pc i).shut = true → (s'.pc i).shut = true)
    (hpipes : s'.pipes = s.last + if (s'.pc s.last).made then 1 else 0)
    (hflow : i < s.last → s'.flow N i = s.flow N i)
    (hrest : ∀ k, i = k + 1 → i = s.last →
      (s'.pc i).rest (s'.flow N k) = (s.pc i).rest (s.flow N k)) : Inv N s' := by
  have hpc : ∀ j ≠ i, s'.pc j = s.pc j := fun j hj => congrArg Proc.pc (hproc j hj)
  have hunp := @Pc.unprinted_eq_nil
  have hlate : i + 1 ≠ s.last → (s.pc i).unprinted = [] := fun h =>
    Pc.unprinted_eq_nil.mpr fun p hp => h (hi.printing i hle p hp).1
  constructor
  case shape =>
    intro j hj
    by_cases hji : j = i
    · rw [hji]
      exact hshape
    · obtain ⟨h1, h2, h3, h4, h5, h6⟩ := hi.shape j (hlast ▸ hj)
      rw [← hpc j hji] at h1 h2 h3 h4 h5
      rw [← hproc j hji] at h1 h3 h4 h5 h6
      exact ⟨h1, h2, h3, h4, h5, h6⟩
  case forked => grind [Inv]
  case top => grind [Inv]
  case zero => grind
  case fresh => grind [Inv]
  case printing => grind [Inv]
  case eof => grind [Inv]
  case pipes => grind [Inv]
  case count =>
    intro k hk
    have hcount := hi.count k (hlast ▸ hk)
    rw [hout, List.length_append]
    by_cases he : k = i
    · rw [he, hprint, List.length_nil]
      rw [he] at hcount
      exact hcount
    · rw [hlate (by omega), hpc k he]
      exact hcount
  case data =>
    have hdata := hi.data
    rw [hout, ← hdata, Sys.todo, Sys.todo, hlast]
    cases hm : s.last with
    | zero => rw [hlate (by omega), List.append_nil]
    | succ k =>
      dsimp only
      by_cases hik : i ≤ k
      · have hflow' : s'.flow N k = s.flow N k := flow_below (hflow (by omega)) hik
          (fun j hj => hqueue j (by omega) (by omega)) fun j hj => hpc j (by omega)
        rw [hflow', hpc (k + 1) (by omega)]
        by_cases he : k = i
        · rw [he, hprint, List.nil_append, List.append_assoc]
        · rw [hlate (by omega), hpc k he, List.append_nil]
      · have he : i = k + 1 := by omega
        rw [hlate (by omega), hpc k (by omega), ← he, hrest k he (by omega), List.append_nil]

/-- A step that passes nothing on. -/
theorem Inv.silent (hi : Inv N s) {i : Nat} {p : Proc} (hle : i ≤ s.last)
    (hshape : Shape (s.put i p) i) (hforked : i < s.last → p.pc.forked = true)
    (htop : i = s.last → p.pc.top = true) (hzero : s.last ≠ 0) (hmade : p.pc.made = false)
    (hprint : (s.pc i).unprinted = [] ∧ p.pc.unprinted = [])
    (hearly : ∀ k, i = k + 1 → i = s.last → (s.pc k).unprinted ≠ [] → p.pc.early = true)
    (hpast : ∀ k, i = k + 1 → p.pc.past = true → (s.pc k).shut = true)
    (hshut : (s.pc i).shut = true → p.pc.shut = true) (hold : (s.pc i).made = false)
    (hpend : ∀ xs, (∀ k, i = k + 1 → xs = s.flow N k) → p.pc.pend N xs = (s.pc i).pend N xs)
    (hrest : ∀ k, i = k + 1 → p.pc.rest (s.flow N k) = (s.pc i).rest (s.flow N k)) :
    Inv N (s.put i p) := by
  have hpc : (s.put i p).pc i = p.pc := by rw [pc_put, if_pos rfl]
  have hother : ∀ j ≠ i, (s.put i p).pc j = s.pc j := fun j hj => by rw [pc_put, if_neg hj]
  have hflow : ∀ k < i, (s.put i p).flow N k = s.flow N k := fun k hk =>
    flow_congr (fun _ _ => rfl) fun j hj => hother j (by omega)
  refine hi.move hle rfl (fun j hj => update_of_ne hj ..) (fun _ _ _ => rfl)
    (by rw [hprint.1, List.append_nil]; rfl) hshape (by rwa [hpc]) (by rwa [hpc])
    (fun h0 => absurd h0 hzero) ?_ (by rw [hpc]; exact hprint.2) ?_ (by rwa [hpc]) (by rwa [hpc]) ?_ (fun _ => ?_) fun k hk _ => ?_
  · intro _ hm
    rw [hpc, hmade] at hm
    cases hm
  · intro k hk hl hn
    rw [hpc]
    exact ⟨hearly k hk hl hn, rfl⟩
  · have hpipes := hi.pipes
    by_cases hl : s.last = i
    · rw [hl, hpc, hmade]
      rw [hl, hold] at hpipes
      exact hpipes
    · rw [hother _ hl]
      exact hpipes
  · cases i with
    | zero =>
      rw [Sys.flow, Sys.flow, hpc, hpend [] fun k hk => absurd hk (by omega)]
      rfl
    | succ k =>
      rw [Sys.flow, Sys.flow, hpc, hflow k (Nat.lt_succ_self k), hpend]
      · rfl
      · intro j hj
        cases hj
        rfl
  · rw [hpc, hflow k (by omega), hrest k hk]

/-- Nothing comes from a process that has not printed its prime. -/
theorem Inv.early (hi : Inv N s) {k : Nat} (hn : (s.pc k).unprinted ≠ []) (hk : k ≤ s.last) :
    (s.pc s.last).early = true ∧ s.queue k = [] := by
  obtain ⟨p, hp⟩ : ∃ p, s.pc k = .print p := by
    by_contra h
    exact hn (Pc.unprinted_eq_nil.mpr fun p hp => h ⟨p, hp⟩)
  exact (hi.printing k hk p hp).2

theorem Inv.lt_last (hi : Inv N s) {i : Nat} (hle : i ≤ s.last) (htop : (s.pc i).top = false) :
    i < s.last := by
  rcases Nat.lt_or_eq_of_le hle with h | h
  · exact h
  · have := hi.top
    rw [← h, htop] at this
    cases this

theorem Inv.eq_last (hi : Inv N s) {i : Nat} (hle : i ≤ s.last) (hf : (s.pc i).forked = false) :
    i = s.last := by
  rcases Nat.lt_or_eq_of_le hle with h | h
  · have := hi.forked i h
    rw [hf] at this
    cases this
  · exact h

/-- Process `i` writes `n` to its output. -/
theorem Inv.write (hi : Inv N s) {i n : Nat} {pc : Pc} (hlt : i < s.last)
    (hpend : ∀ xs, (s.pc i).pend N xs = n :: pc.pend N xs) (hforked : pc.forked = true)
    (hshape : Shape (s.go i pc) i) (hprint : (s.pc i).unprinted = [] ∧ pc.unprinted = [])
    (hpast : pc.past = false) (hshut : (s.pc i).shut = false) :
    Inv N ((s.setQueue i (s.queue i ++ [n])).go i pc) := by
  have hpc : ((s.setQueue i (s.queue i ++ [n])).go i pc).pc i = pc :=
    (pc_put i i _).trans (if_pos rfl)
  have hother : ∀ j ≠ i, ((s.setQueue i (s.queue i ++ [n])).go i pc).pc j = s.pc j := fun j hj =>
    (pc_put i j _).trans (if_neg hj)
  have hqueue : ∀ j ≠ i, ((s.setQueue i (s.queue i ++ [n])).go i pc).queue j = s.queue j :=
    fun j hj => update_of_ne hj ..
  have hself : ((s.setQueue i (s.queue i ++ [n])).go i pc).queue i = s.queue i ++ [n] :=
    update_self ..
  refine hi.move hlt.le rfl (fun j hj => update_of_ne hj ..) (fun j hj _ => hqueue j hj)
    (by rw [hprint.1, List.append_nil]; rfl)
    ⟨hshape.fds, hshape.main, hshape.pip, hshape.pip1, hshape.child, hshape.parent⟩
    (by rw [hpc]; exact fun _ => hforked) (fun h => absurd h hlt.ne) (by omega)
    (fun h => absurd h hlt.ne) (by rw [hpc]; exact hprint.2) (fun k _ h => absurd h hlt.ne) ?_ ?_ ?_
    (fun _ => ?_)
    fun k _ h => absurd h hlt.ne
  · rw [hpc, hpast]
    exact fun _ _ h => by cases h
  · rw [hshut]
    exact fun h => by cases h
  · rw [hother _ hlt.ne']
    exact hi.pipes
  · cases i with
    | zero => rw [Sys.flow, Sys.flow, hpc, hself, hpend, List.append_assoc, List.singleton_append]
    | succ k =>
      have hbelow : ((s.setQueue (k + 1) (s.queue (k + 1) ++ [n])).go (k + 1) pc).flow N k =
          s.flow N k :=
        flow_congr (fun j hj => hqueue j (by omega)) fun j hj => hother j (by omega)
      rw [Sys.flow, Sys.flow, hpc, hself, hbelow, hpend, List.append_assoc, List.singleton_append]

/-- Process `k + 1` reads `x` from its input. -/
theorem Inv.read (hi : Inv N s) {k x : Nat} {xs : List Nat} {pc : Pc} (hle : k + 1 ≤ s.last)
    (hx : s.queue k = x :: xs) (hforked : k + 1 < s.last → pc.forked = true)
    (htop : k + 1 = s.last → pc.top = true) (hshape : Shape (s.go (k + 1) pc) (k + 1))
    (hprint : (s.pc (k + 1)).unprinted = [] ∧ pc.unprinted = []) (hpast : pc.past = false)
    (hshut : (s.pc (k + 1)).shut = false) (hmade : (s.pc (k + 1)).made = false ∧ pc.made = false)
    (hpend : k + 1 < s.last → ∀ ys, pc.pend N ys = (s.pc (k + 1)).pend N (x :: ys))
    (hrest : ∀ ys, pc.rest ys = (s.pc (k + 1)).rest (x :: ys)) :
    Inv N ((s.setQueue k xs).go (k + 1) pc) := by
  have hpc : ((s.setQueue k xs).go (k + 1) pc).pc (k + 1) = pc := (pc_put _ _ _).trans (if_pos rfl)
  have hother : ∀ j ≠ k + 1, ((s.setQueue k xs).go (k + 1) pc).pc j = s.pc j := fun j hj =>
    (pc_put _ j _).trans (if_neg hj)
  have hqueue : ∀ j ≠ k, ((s.setQueue k xs).go (k + 1) pc).queue j = s.queue j :=
    fun j hj => update_of_ne hj ..
  have hself : ((s.setQueue k xs).go (k + 1) pc).queue k = xs := update_self ..
  -- what comes out of the pipe is what came out of it before, without `x`
  have hflow : s.flow N k = x :: ((s.setQueue k xs).go (k + 1) pc).flow N k := by
    cases k with
    | zero => rw [Sys.flow, Sys.flow, hx, hself, hother 0 (by omega), List.cons_append]
    | succ j =>
      have hbelow : ((s.setQueue (j + 1) xs).go (j + 1 + 1) pc).flow N j = s.flow N j :=
        flow_congr (fun l hl => hqueue l (by omega)) fun l hl => hother l (by omega)
      rw [Sys.flow, Sys.flow, hx, hself, hother (j + 1) (by omega), hbelow, List.cons_append]
  refine hi.move hle rfl (fun j hj => update_of_ne hj ..)
    (fun j _ hj => hqueue j (by omega)) (by rw [hprint.1, List.append_nil]; rfl)
    ⟨hshape.fds, hshape.main, hshape.pip, hshape.pip1, hshape.child, hshape.parent⟩ (by rwa [hpc])
    (by rwa [hpc]) (by omega) ?_ (by rw [hpc]; exact hprint.2) ?_ ?_ ?_ ?_ (fun hlt => ?_) ?_
  · rw [hpc, hmade.2]
    exact fun _ h => by cases h
  · intro j hj hl hn
    cases hj
    -- the process before this one has written, and so has printed
    have := (hi.early hn (by omega)).2
    rw [hx] at this
    cases this
  · rw [hpc, hpast]
    exact fun _ _ h => by cases h
  · rw [hshut]
    exact fun h => by cases h
  · have hpipes := hi.pipes
    by_cases hl : s.last = k + 1
    · rw [hl, hpc, hmade.2]
      rw [hl, hmade.1] at hpipes
      exact hpipes
    · rw [hother _ hl]
      exact hpipes
  · rw [Sys.flow, Sys.flow, hpc, hqueue _ (by omega), hflow, hpend hlt]
  · intro j hj _
    cases hj
    rw [hpc, hflow, hrest]

/-- Process `i`, the last one, makes the pipe for its output. -/
theorem Inv.newPipe (hi : Inv N s) {p : Proc} (hold : (s.pc s.last).made = false)
    (hshape : Shape (s.newPipe s.last p) s.last) (hmade : p.pc.made = true)
    (hzero : s.last = 0 → p.pc = .mainFork) (hprint : (s.pc s.last).unprinted = [])
    (hpast : p.pc.past = false) (hshut : (s.pc s.last).shut = false)
    (hearly : (s.pc s.last).early = false)
    (hrest : ∀ xs, p.pc.rest xs = (s.pc s.last).rest xs) : Inv N (s.newPipe s.last p) := by
  have hpipes : s.pipes = s.last := by
    rw [hi.pipes, hold]
    rfl
  have hpc : (s.newPipe s.last p).pc s.last = p.pc := (pc_put _ _ _).trans (if_pos rfl)
  have hother : ∀ j ≠ s.last, (s.newPipe s.last p).pc j = s.pc j := fun j hj =>
    (pc_put _ j _).trans (if_neg hj)
  have hqueue : ∀ j ≠ s.last, (s.newPipe s.last p).queue j = s.queue j :=
    fun j hj => update_of_ne (hpipes ▸ hj) ..
  have hself : (s.newPipe s.last p).queue s.last = [] := by
    change update s.queue s.pipes [] s.last = []
    rw [hpipes, update_self]
  have htop : p.pc.top = true ∧ p.pc.unprinted = [] := by
    cases hpp : p.pc <;> rw [hpp] at hmade <;> simp_all [Pc.made, Pc.top, Pc.unprinted]
  refine hi.move (Nat.le_refl _) rfl (fun j hj => update_of_ne hj ..)
    (fun j hj _ => hqueue j hj) (by rw [hprint, List.append_nil]; rfl) hshape
    (fun h => absurd h (Nat.lt_irrefl _)) (fun _ => by rw [hpc]; exact htop.1) ?_
    (fun _ _ => hself) (by rw [hpc]; exact htop.2) ?_ ?_ ?_ ?_ (fun h => absurd h (Nat.lt_irrefl _)) ?_
  · intro h0
    rw [← hzero h0, ← hpc, h0]
    exact .inr rfl
  · intro k hk _ hn
    have := (hi.early hn (by omega)).1
    rw [hearly] at this
    cases this
  · rw [hpc, hpast]
    exact fun _ _ h => by cases h
  · rw [hshut]
    exact fun h => by cases h
  · rw [hpc, hmade]
    change s.pipes + 1 = _
    rw [hpipes]
    rfl
  · intro k hk _
    rw [hpc, hrest, flow_congr (fun j hj => hqueue j (by omega)) fun j hj => hother j (by omega)]

theorem Inv.print (hi : Inv N s) {i p : Nat} (hle : i ≤ s.last) (hpc : s.pc i = .print p)
    (hshape : Shape (s.go i (.read p)) i) :
    Inv N { s.go i (.read p) with out := s.out ++ [p] } := by
  have hlt : i < s.last := hi.lt_last hle (by rw [hpc]; rfl)
  have hself : (s.go i (.read p)).pc i = .read p := (pc_put _ _ _).trans (if_pos rfl)
  have hother : ∀ j ≠ i, (s.go i (.read p)).pc j = s.pc j := fun j hj =>
    (pc_put _ j _).trans (if_neg hj)
  refine hi.move hle rfl (fun j hj => update_of_ne hj ..) (fun _ _ _ => rfl)
    (by rw [hpc]; rfl) ⟨hshape.fds, hshape.main, hshape.pip, hshape.pip1, hshape.child, hshape.parent⟩
    (fun _ => congrArg Pc.forked hself) (fun h => absurd h hlt.ne) (by omega)
    (fun h => absurd h hlt.ne) (congrArg Pc.unprinted hself) (fun k _ h => absurd h hlt.ne) ?_ ?_ ?_
    (fun _ => ?_) fun k _ h => absurd h hlt.ne
  · intro k _ h
    rw [Sys.pc] at h
    change (Sys.pc (s.go i (.read p)) i).past = true at h
    rw [hself] at h
    cases h
  · rw [hpc]
    exact fun h => by cases h
  · change _ = s.last + if ((s.go i (.read p)).pc s.last).made then 1 else 0
    rw [hother _ hlt.ne']
    exact hi.pipes
  · refine flow_at (fun _ _ => rfl) (fun j hj => hother j (by omega)) fun xs => ?_
    exact (congrArg (Pc.pend N xs) hself).trans (by rw [hpc]; rfl)

/-- The last process forks. -/
theorem Inv.newProc (hi : Inv N s) {child parent : Pc} (hmade : (s.pc s.last).made = true)
    (hshape : Shape (s.newProc s.last child parent) s.last)
    (hchild : Shape (s.newProc s.last child parent) (s.last + 1)) (hforked : parent.forked = true)
    (hearly : child.early = true) (hpast : parent.past = false)
    (hpend : ∀ xs, (s.pc s.last).pend N xs = parent.pend N xs)
    (hrest : ∀ xs, s.last ≠ 0 → (s.pc s.last).rest xs = parent.unprinted ++ sieve (parent.pend N xs))
    (hzero : s.last = 0 → parent.unprinted = [] ∧ parent.pend N [] = upto 2 N)
    (hcount : s.last ≠ 0 → parent.unprinted.length = 1) :
    Inv N (s.newProc s.last child parent) := by
  have hlast : (s.newProc s.last child parent).last = s.last + 1 := rfl
  have hnew : (s.newProc s.last child parent).pc (s.last + 1) = child :=
    (pc_put _ _ _).trans (if_pos rfl)
  have hold : (s.newProc s.last child parent).pc s.last = parent :=
    (pc_put _ _ _).trans ((if_neg (by omega)).trans ((pc_put _ _ _).trans (if_pos rfl)))
  have hproc : ∀ j < s.last, (s.newProc s.last child parent).proc j = s.proc j := by
    intro j hj
    change update (update s.proc s.last _) (s.last + 1) _ j = s.proc j
    rw [update_of_ne (by omega), update_of_ne (by omega)]
  have hpc : ∀ j < s.last, (s.newProc s.last child parent).pc j = s.pc j :=
    fun j hj => congrArg Proc.pc (hproc j hj)
  have hsplit : ∀ j ≤ s.last + 1, j < s.last ∨ j = s.last ∨ j = s.last + 1 := by omega
  have hqueue := hi.fresh hmade
  have hnone : child.made = false ∧ child.past = false ∧ child.top = true ∧ child.unprinted = [] := by
    cases child <;> simp_all [Pc.early, Pc.made, Pc.past, Pc.top, Pc.unprinted]
  have hunshut : (s.pc s.last).early = false ∧ (s.pc s.last).past = false := by
    cases hpl : s.pc s.last <;> simp_all [Pc.made, Pc.early, Pc.past]
  have hquiet : ∀ k ≤ s.last, (s.pc k).unprinted = [] := by
    intro k hk
    by_contra hn
    have := (hi.early hn hk).1
    rw [hunshut.1] at this
    cases this
  constructor
  case shape =>
    intro j hj
    obtain hj | rfl | rfl := hsplit j hj
    · obtain ⟨h1, h2, h3, h4, h5, h6⟩ := hi.shape j hj.le
      rw [← hpc j hj] at h1 h2 h3 h4 h5
      rw [← hproc j hj] at h1 h3 h4 h5 h6
      exact ⟨h1, h2, h3, h4, h5, h6⟩
    · exact hshape
    · exact hchild
  case forked => grind [Inv]
  case top => grind [Inv]
  case zero => grind [Inv]
  case fresh => grind [Inv]
  case printing =>
    intro j hj p hp
    obtain hj | rfl | rfl := hsplit j hj
    · rw [hpc j hj] at hp
      have := (hi.printing j hj.le p hp).2.1
      rw [hunshut.1] at this
      cases this
    · rw [hlast, hnew]
      exact ⟨rfl, hearly, hqueue⟩
    · rw [hnew] at hp
      rw [hp] at hearly
      cases hearly
  case eof => grind [Inv]
  case pipes =>
    have hsame : (s.newProc s.last child parent).pipes = s.pipes := rfl
    grind [Inv]
  case count =>
    intro k hk
    cases hk
    rw [hold]
    by_cases h0 : s.last = 0
    · omega
    · obtain ⟨k, hk⟩ := Nat.exists_eq_succ_of_ne_zero h0
      have hk' := hi.count k hk
      rw [hquiet k (by omega), List.length_nil] at hk'
      have := hcount h0
      change s.last ≤ s.out.length + _
      omega
  case data =>
    have hflow : (s.newProc s.last child parent).flow N s.last = s.flow N s.last :=
      flow_at (fun _ _ => rfl) hpc fun xs => by rw [hold, hpend]
    have hrest' : ∀ xs, child.rest xs = sieve xs := by
      intro xs
      cases child <;> simp_all [Pc.early, Pc.rest]
    have htodo : (s.newProc s.last child parent).todo N = parent.unprinted ++ sieve (s.flow N s.last) := by
      rw [Sys.todo, hlast]
      dsimp only
      rw [hold, hnew, hflow, hrest']
    rw [htodo, ← hi.data, Sys.todo]
    change s.out ++ _ = _
    cases hl : s.last with
    | zero =>
      rw [hl] at hqueue hpend
      obtain ⟨hnil, hupto⟩ := hzero hl
      rw [hnil, Sys.flow, hqueue, hpend, hupto]
      rfl
    | succ k =>
      rw [hl] at hqueue hpend hrest
      dsimp only
      rw [Sys.flow, hqueue, hpend, hquiet k (by omega), hrest _ (by omega)]
      rfl

/-! ## Steps -/

theorem shape_of {t : Sys} {i : Nat} {p : Proc} (hp : t.proc i = p) (hfds : p.fds = p.pc.fds i)
    (hmain : p.pc = .exited ∨ (p.pc.inMain = true ↔ i = 0))
    (hpip : p.pc ≠ .exited → p.pc ≠ .mainPipe → p.pc ≠ .childClose → p.pip = i - 1)
    (hpip1 : p.pc.piped = true → p.pip1 = i)
    (hchild : p.pc = .childClose → 2 ≤ i ∧ p.pip = i - 2 ∧ p.pip1 = i - 1)
    (hparent : ∀ j, i = j + 1 → p.parent = some j) : Shape t i := by
  subst hp
  exact ⟨hfds, hmain, hpip, hpip1, hchild, hparent⟩

/-- Where a process goes on when it has closed a descriptor. -/
def Pc.afterClose : Pc → Pc
  | .mainClose => .mainWrite 2
  | .childClose => .closeWrite
  | .closeWrite => .readPrime
  | .closeIn => .closeOutRead
  | .closeOutRead => .closeOutWrite
  | .closeOutWrite => .wait
  | _ => .exited

/-- A process passes on and prints at `pc'` what it does at `pc`. -/
structure Pc.Same (N : Nat) (pc pc' : Pc) : Prop where
  main : pc' = .exited ∨ pc ≠ .exited ∧ pc'.inMain = pc.inMain
  forked : pc.forked = true → pc'.forked = true
  top : pc.top = true → pc'.top = true
  early : pc.early = true → pc'.early = true
  past : pc'.past = true → pc.past = true
  shut : pc.shut = true → pc'.shut = true
  made : pc.made = false ∧ pc'.made = false
  unprinted : pc.unprinted = [] ∧ pc'.unprinted = []
  pend : ∀ xs, pc'.pend N xs = pc.pend N xs
  rest : ∀ xs, pc'.rest xs = pc.rest xs

/-- A step after which a process passes on and prints what it did before. -/
theorem Inv.same (hi : Inv N s) {i : Nat} {p : Proc} {pc : Pc} (hle : i ≤ s.last) (hp : s.pc i = pc)
    (hstart : pc ≠ .mainPipe) (hsame : pc.Same N p.pc) (hnew : p.pc ≠ .childClose)
    (hfds : p.fds = p.pc.fds i) (hpip : p.pc ≠ .exited → p.pip = i - 1)
    (hpip1 : p.pc.piped = true → p.pip1 = i) (hparent : p.parent = (s.proc i).parent) :
    Inv N (s.put i p) := by
  subst hp
  have hshape := hi.shape i hle
  have hput : (s.put i p).proc i = p := update_self ..
  have hmain : p.pc = .exited ∨ (p.pc.inMain = true ↔ i = 0) := by
    rcases hsame.main with he | ⟨hne, he⟩
    · exact .inl he
    · exact .inr (he ▸ hshape.main.resolve_left hne)
  have hlast : s.last ≠ 0 := by
    intro h0
    have hmade := hsame.made.1
    obtain rfl : i = 0 := by omega
    rcases hi.zero h0 with h | h
    · exact hstart h
    · rw [h] at hmade
      cases hmade
  refine hi.silent hle (shape_of hput hfds hmain (fun h _ _ => hpip h) hpip1
    (fun h => absurd h hnew) fun j hj => hparent.trans (hshape.parent j hj))
    (fun h => hsame.forked (hi.forked i h)) (fun h => hsame.top (h ▸ hi.top)) hlast
    hsame.made.2 hsame.unprinted ?_ ?_ hsame.shut hsame.made.1 (fun xs _ => hsame.pend xs)
    fun k _ => hsame.rest _
  · intro k hk hl hn
    exact hsame.early (hl ▸ (hi.early hn (by omega)).1)
  · intro k hk hpast
    subst hk
    exact hi.eof k hle (hsame.past hpast)

theorem input_cases {k : Nat} {r : Option Nat × Sys} (h : s.input k = some r) :
    (∃ x xs, s.queue k = x :: xs ∧ r = (some x, s.setQueue k xs)) ∨
      s.queue k = [] ∧ s.closed k = true ∧ r = (none, s) := by
  rw [Sys.input] at h
  split at h
  · rename_i x xs hq
    cases h
    exact .inl ⟨x, xs, hq, rfl⟩
  · rename_i hq
    obtain ⟨hc, hr⟩ := Option.ite_none_right_eq_some.mp h
    cases hr
    exact .inr ⟨hq, hc, rfl⟩

section

variable {cap i : Nat} {s' : Sys} (hi : Inv N s) (hle : i ≤ s.last)
  (hnext : next N cap s i (s.proc i) = some s')

include hi hle hnext

theorem Inv.next_close {pc : Pc} (hp : s.pc i = pc) (hpc : pc ∈ [Pc.mainClose, .childClose,
    .closeWrite, .closeAtEnd, .closeIn, .closeOutRead, .closeOutWrite]) : Inv N s' := by
  obtain ⟨hfds, hmain, hpip, hpip1, hchild, hparent⟩ := hi.shape i hle
  have hproc : (s.proc i).pc = pc := hp
  rw [hp] at hfds hpip hpip1 hchild
  rw [next, hproc] at hnext
  simp only [List.mem_cons, List.not_mem_nil, or_false] at hpc
  have hsame : pc.Same N (pc.afterClose) := by
    rcases hpc with rfl | rfl | rfl | rfl | rfl | rfl | rfl <;>
      exact ⟨by decide, by decide, by decide, by decide, by decide, by decide, by decide, by decide,
        fun _ => rfl, fun _ => rfl⟩
  rcases hpc with rfl | rfl | rfl | rfl | rfl | rfl | rfl <;> cases hnext <;>
    refine hi.same hle hp (by decide) hsame (by simp) ?_ ?_ ?_ rfl <;>
    grind

theorem Inv.next_wait {pc : Pc} (hp : s.pc i = pc) (hpc : pc = .mainWait ∨ pc = .wait) : Inv N s' := by
  obtain ⟨hfds, hmain, hpip, hpip1, hchild, hparent⟩ := hi.shape i hle
  have hput : ∀ p, (s.put i p).proc i = p := fun p => update_self ..
  have hproc : (s.proc i).pc = pc := hp
  have hzero := hi.zero
  have heof := hi.eof
  have hlt := hi.lt_last hle
  rw [hp] at hfds hmain hpip hpip1 hchild hlt
  rw [next, hproc] at hnext
  rcases hpc with rfl | rfl <;> obtain ⟨-, hnext⟩ := Option.ite_none_right_eq_some.mp hnext <;>
    cases hnext <;>
    refine hi.silent hle (shape_of (hput _) ?_ ?_ ?_ ?_ ?_ hparent) ?_ ?_ ?_ ?_ ?_ ?_ ?_ ?_ ?_ ?_ ?_ <;>
    grind

theorem Inv.next_mainWrite {n : Nat} (hp : s.pc i = .mainWrite n) : Inv N s' := by
  obtain ⟨hfds, hmain, hpip, hpip1, hchild, hparent⟩ := hi.shape i hle
  have hput : ∀ p, (s.put i p).proc i = p := fun p => update_self ..
  have hproc : (s.proc i).pc = .mainWrite n := hp
  have hlt := hi.lt_last hle
  rw [hp] at hfds hmain hpip hpip1 hchild hlt
  have hpip0 : (s.proc i).pip = i := by grind
  simp only [next, hproc, hpip0] at hnext
  split at hnext
  · rename_i hn
    obtain ⟨-, hnext⟩ := Option.ite_none_right_eq_some.mp hnext
    cases hnext
    refine hi.write (hlt rfl) (fun xs => ?_) rfl (shape_of (hput _) ?_ ?_ ?_ ?_ ?_ hparent) ?_ rfl ?_
    · rw [hp]
      exact upto_cons hn
    all_goals grind
  · rename_i hn
    have hnil := upto_nil (Nat.lt_of_not_le hn)
    have hzero := hi.zero
    cases hnext
    refine hi.silent hle (shape_of (hput _) ?_ ?_ ?_ ?_ ?_ hparent) ?_ ?_ ?_ ?_ ?_ ?_ ?_ ?_ ?_ ?_ ?_ <;>
      grind

theorem Inv.next_write {p n : Nat} (hp : s.pc i = .write p n) : Inv N s' := by
  obtain ⟨hfds, hmain, hpip, hpip1, hchild, hparent⟩ := hi.shape i hle
  have hput : ∀ p, (s.put i p).proc i = p := fun p => update_self ..
  have hproc : (s.proc i).pc = .write p n := hp
  have hlt := hi.lt_last hle
  rw [hp] at hfds hmain hpip hpip1 hchild hlt
  simp only [next, hproc, hpip1 rfl] at hnext
  obtain ⟨-, hnext⟩ := Option.ite_none_right_eq_some.mp hnext
  cases hnext
  refine hi.write (hlt rfl) (fun xs => ?_) rfl (shape_of (hput _) ?_ ?_ ?_ ?_ ?_ hparent) ?_ rfl ?_ <;>
    grind

theorem Inv.next_print {p : Nat} (hp : s.pc i = .print p) : Inv N s' := by
  obtain ⟨hfds, hmain, hpip, hpip1, hchild, hparent⟩ := hi.shape i hle
  have hput : ∀ p, (s.put i p).proc i = p := fun p => update_self ..
  have hproc : (s.proc i).pc = .print p := hp
  rw [hp] at hfds hmain hpip hpip1 hchild
  rw [next, hproc] at hnext
  cases hnext
  refine hi.print hle hp (shape_of (hput _) ?_ ?_ ?_ ?_ ?_ hparent) <;> grind

theorem Inv.next_readPrime (hp : s.pc i = .readPrime) : Inv N s' := by
  obtain ⟨hfds, hmain, hpip, hpip1, hchild, hparent⟩ := hi.shape i hle
  have hput : ∀ p, (s.put i p).proc i = p := fun p => update_self ..
  have hproc : (s.proc i).pc = .readPrime := hp
  have hlast := hi.eq_last hle
  rw [hp] at hfds hmain hpip hpip1 hchild hlast
  obtain ⟨k, rfl⟩ : ∃ k, i = k + 1 := Nat.exists_eq_succ_of_ne_zero (by grind)
  rw [next, hproc, hpip (by simp) (by simp) (by simp), Nat.add_sub_cancel] at hnext
  cases hin : s.input k with
  | none =>
    rw [hin] at hnext
    cases hnext
  | some r =>
    rw [hin] at hnext
    obtain ⟨x, xs, hq, rfl⟩ | ⟨hq, hc, rfl⟩ := input_cases hin
    · cases hnext
      refine hi.read hle hq ?_ ?_ (shape_of (hput _) ?_ ?_ ?_ ?_ ?_ hparent) ?_ ?_ ?_ ?_ ?_ fun ys => ?_ <;>
        grind [sieve_cons]
    · have hshut := (hi.closed_iff_shut hle (by simp [hp])).mp hc
      have hflow : s.flow N k = [] := flow_nil hq hshut
      have hprinted := Pc.unprinted_of_shut hshut
      cases hnext
      refine hi.silent hle (shape_of (hput _) ?_ ?_ ?_ ?_ ?_ hparent) ?_ ?_ ?_ ?_ ?_ ?_ ?_ ?_ ?_ ?_ ?_ <;>
        grind [sieve_nil]

theorem Inv.next_read {p : Nat} (hp : s.pc i = .read p) : Inv N s' := by
  obtain ⟨hfds, hmain, hpip, hpip1, hchild, hparent⟩ := hi.shape i hle
  have hput : ∀ p, (s.put i p).proc i = p := fun p => update_self ..
  have hproc : (s.proc i).pc = .read p := hp
  have hlt := hi.lt_last hle
  rw [hp] at hfds hmain hpip hpip1 hchild hlt
  obtain ⟨k, rfl⟩ : ∃ k, i = k + 1 := Nat.exists_eq_succ_of_ne_zero (by grind)
  rw [next, hproc, hpip (by simp) (by simp) (by simp), Nat.add_sub_cancel] at hnext
  cases hin : s.input k with
  | none =>
    rw [hin] at hnext
    cases hnext
  | some r =>
    rw [hin] at hnext
    obtain ⟨x, xs, hq, rfl⟩ | ⟨hq, hc, rfl⟩ := input_cases hin
    · cases hnext
      refine hi.read hle hq ?_ ?_ (shape_of (hput _) ?_ ?_ ?_ ?_ ?_ hparent) ?_ ?_ ?_ ?_ ?_ fun ys => ?_ <;>
        grind [coprimes_cons_self_ne, coprimes_cons_of_dvd]
    · have hshut := (hi.closed_iff_shut hle (by simp [hp])).mp hc
      have hflow : s.flow N k = [] := flow_nil hq hshut
      cases hnext
      refine hi.silent hle (shape_of (hput _) ?_ ?_ ?_ ?_ ?_ hparent) ?_ ?_ ?_ ?_ ?_ ?_ ?_ ?_ ?_ ?_ ?_ <;>
        grind [coprimes]

theorem Inv.next_pipe {pc : Pc} (hp : s.pc i = pc) (hpc : pc = .mainPipe ∨ ∃ p, pc = .pipe p) :
    Inv N s' := by
  obtain ⟨hfds, hmain, hpip, hpip1, hchild, hparent⟩ := hi.shape i hle
  have hput : ∀ p, (s.put i p).proc i = p := fun p => update_self ..
  have hproc : (s.proc i).pc = pc := hp
  have hlast := hi.eq_last hle
  have hpipes := hi.pipes
  rw [hp] at hfds hmain hpip hpip1 hchild hlast
  rw [next, hproc] at hnext
  rcases hpc with rfl | ⟨p, rfl⟩ <;> cases hnext <;> cases hlast rfl <;>
    refine hi.newPipe ?_ (shape_of (hput _) ?_ ?_ ?_ ?_ ?_ hparent) ?_ ?_ ?_ ?_ ?_ ?_ ?_ <;> grind

theorem Inv.next_fork {pc : Pc} (hp : s.pc i = pc) (hpc : pc = .mainFork ∨ ∃ p, pc = .fork p) :
    Inv N s' := by
  obtain ⟨hfds, hmain, hpip, hpip1, hchild, hparent⟩ := hi.shape i hle
  have hold : ∀ child parent, (s.newProc s.last child parent).proc s.last =
      { s.proc s.last with pc := parent } := fun child parent =>
    (update_of_ne (by omega) ..).trans (update_self ..)
  have hnew : ∀ child parent, (s.newProc s.last child parent).proc (s.last + 1) =
      { s.proc s.last with pc := child, parent := some s.last } := fun child parent =>
    update_self ..
  have hproc : (s.proc i).pc = pc := hp
  have hlast := hi.eq_last hle
  rw [hp] at hfds hmain hpip hpip1 hchild hlast
  rw [next, hproc] at hnext
  rcases hpc with rfl | ⟨p, rfl⟩ <;> cases hnext <;> cases hlast rfl <;>
    refine hi.newProc ?_ (shape_of (hold _ _) ?_ ?_ ?_ ?_ ?_ hparent)
      (shape_of (hnew _ _) ?_ ?_ ?_ ?_ ?_ ?_) ?_ ?_ ?_ ?_ ?_ ?_ ?_ <;> grind

end

theorem inv_step {cap i : Nat} {s' : Sys} (hi : Inv N s) (hstep : step N cap s i = some s') :
    Inv N s' := by
  obtain ⟨hle, hnext⟩ := Option.ite_none_right_eq_some.mp hstep
  cases hp : s.pc i with
  | mainPipe => exact hi.next_pipe hle hnext hp (.inl rfl)
  | pipe p => exact hi.next_pipe hle hnext hp (.inr ⟨p, rfl⟩)
  | mainFork => exact hi.next_fork hle hnext hp (.inl rfl)
  | fork p => exact hi.next_fork hle hnext hp (.inr ⟨p, rfl⟩)
  | mainWrite n => exact hi.next_mainWrite hle hnext hp
  | mainWait => exact hi.next_wait hle hnext hp (.inl rfl)
  | wait => exact hi.next_wait hle hnext hp (.inr rfl)
  | readPrime => exact hi.next_readPrime hle hnext hp
  | print p => exact hi.next_print hle hnext hp
  | read p => exact hi.next_read hle hnext hp
  | write p n => exact hi.next_write hle hnext hp
  | exited =>
    have hproc : (s.proc i).pc = .exited := hp
    rw [next, hproc] at hnext
    cases hnext
  | _ => exact hi.next_close hle hnext hp (by simp)

theorem inv_start (N : Nat) : Inv N start := by
  have hproc : ∀ i, start.proc i = ⟨.mainPipe, 0, 0, [], none⟩ := fun _ => rfl
  have hpc : ∀ i, start.pc i = .mainPipe := fun _ => rfl
  have hlast : start.last = 0 := rfl
  constructor
  case shape =>
    intro i hi
    obtain rfl : i = 0 := by omega
    constructor <;> simp [hpc, hproc, Pc.fds, Pc.inMain, Pc.piped]
  case data => rfl
  case pipes => rfl
  all_goals simp [hpc, hlast, Pc.top, Pc.made]

end

end Xv6.Primes
