import Xv6.Vm.Files
import Xv6.Lib.Count

/-!
# The system calls keep the books

`inv` says who owns the pages between two system calls: each process that is not
unused its trapframe and its address space, the file table its pipes, the kernel the
pages it took at boot. The reference counts of the files are the numbers of descriptors
that name them. Every system call, and every path through it, leads from `inv` to `inv`.
-/
namespace Xv6.Vm

open Lib.Bytes Lib.Sep Lib.Sep.Assn Function

set_option autoImplicit false

variable {L : Layout}

/-! ## References to files -/

/-- Whether a descriptor names the file `f`. -/
def names (f : Fin NFILE) (x : Option (Fin NFILE)) : Nat := if x = some f then 1 else 0

/-- How many descriptors name the file `f`. -/
def refs (proc : Fin NPROC → Proc) (f : Fin NFILE) : Nat := ∑ i, ∑ fd, names f ((proc i).ofile fd)

theorem refs_setFd (t : Tables) (i : Fin NPROC) (fd : Fin NOFILE) (x : Option (Fin NFILE))
    (f : Fin NFILE) :
    refs (t.setFd i fd x).proc f + names f ((t.proc i).ofile fd) = refs t.proc f + names f x := by
  have h1 : refs (t.setFd i fd x).proc f + ∑ k, names f ((t.proc i).ofile k) =
      refs t.proc f + ∑ k, names f (update (t.proc i).ofile fd x k) :=
    Lib.sum_update (fun p : Proc => ∑ k, names f (p.ofile k)) t.proc i _
  have h2 := Lib.sum_update (names f) (t.proc i).ofile fd x
  omega

theorem refs_congr {proc proc' : Fin NPROC → Proc} (h : ∀ i, (proc' i).ofile = (proc i).ofile) :
    refs proc' = refs proc := by
  funext f
  unfold refs
  simp only [h]

theorem refs_open {t : Tables} {i : Fin NPROC} {fd : Fin NOFILE} (f : Fin NFILE)
    (h : (t.proc i).ofile fd = none) :
    refs (t.setFd i fd (some f)).proc = update (refs t.proc) f (refs t.proc f + 1) := by
  funext g
  have hg := refs_setFd t i fd (some f) g
  rw [h] at hg
  by_cases hgf : g = f
  · rw [hgf, update_self]
    rw [hgf] at hg
    simpa [names] using hg
  · rw [update_of_ne hgf]
    simpa [names, Ne.symm hgf] using hg

theorem refs_shut {t : Tables} {i : Fin NPROC} {fd : Fin NOFILE} {f : Fin NFILE}
    (h : (t.proc i).ofile fd = some f) :
    refs (t.setFd i fd none).proc = update (refs t.proc) f (refs t.proc f - 1) := by
  funext g
  have hg := refs_setFd t i fd none g
  rw [h] at hg
  by_cases hgf : g = f
  · rw [hgf, update_self]
    rw [hgf] at hg
    simp only [names, if_true, reduceCtorEq, if_false] at hg
    omega
  · rw [update_of_ne hgf]
    simpa [names, Ne.symm hgf] using hg

theorem refs_pos {t : Tables} {i : Fin NPROC} {fd : Fin NOFILE} {f : Fin NFILE}
    (h : (t.proc i).ofile fd = some f) : 0 < refs t.proc f := by
  have hg := refs_setFd t i fd none f
  rw [h] at hg
  simp only [names, if_true, reduceCtorEq, if_false] at hg
  omega

/-! ## The processes -/

/-- What holds of every entry of the process table: an unused one has nothing, and only a
process that runs has open files. Such a process also has a working directory. -/
structure ProcOk (p : Proc) : Prop where
  home : p.state = .RUNNABLE → p.cwd ≠ none
  idle : p.state = .UNUSED → p.trapframe = 0 ∧ p.pagetable = 0 ∧ p.sz = 0
  live : p.state ≠ .UNUSED → p.trapframe ≠ 0 ∧ p.pagetable ≠ 0
  closed : p.state ≠ .RUNNABLE → ∀ fd, p.ofile fd = none

/-- The pages of a process, as far as it has them already. -/
def owned (L : Layout) (p : Proc) : Assn Nat Mem :=
  (if p.trapframe = 0 then 1 else own L p.trapframe) *
    if p.pagetable = 0 then 1 else space L p.trapframe p.pagetable (pagesOf p.sz)

/-- The pages of a process that is not unused. -/
def live (L : Layout) (p : Proc) : Assn Nat Mem :=
  own L p.trapframe * space L p.trapframe p.pagetable (pagesOf p.sz)

def procRes (L : Layout) (p : Proc) : Assn Nat Mem := fact (ProcOk p) * owned L p

/-- The processes that are not in `s`. -/
def others (L : Layout) (s : Finset (Fin NPROC)) (proc : Fin NPROC → Proc) : Assn Nat Mem :=
  ∏ j ∈ sᶜ, procRes L (proc j)

theorem owned_eq_live {p : Proc} (ht : p.trapframe ≠ 0) (hp : p.pagetable ≠ 0) :
    owned L p = live L p := by
  rw [owned, if_neg ht, if_neg hp, live]

theorem others_open {s : Finset (Fin NPROC)} {i : Fin NPROC} (h : i ∉ s)
    (proc : Fin NPROC → Proc) :
    others L s proc = procRes L (proc i) * others L (insert i s) proc := by
  unfold others
  rw [← Finset.mul_prod_erase _ _ (Finset.mem_compl.mpr h), Finset.compl_insert]

theorem others_congr {s : Finset (Fin NPROC)} {proc proc' : Fin NPROC → Proc}
    (h : ∀ j, j ∉ s → procRes L (proc' j) = procRes L (proc j)) :
    others L s proc' = others L s proc :=
  Finset.prod_congr rfl fun j hj => h j (Finset.mem_compl.mp hj)

theorem procRes_congr {p p' : Proc} (h1 : p'.state = p.state) (h2 : p'.sz = p.sz)
    (h3 : p'.pagetable = p.pagetable) (h4 : p'.trapframe = p.trapframe)
    (h5 : p'.ofile = p.ofile) (h6 : p'.cwd = p.cwd) : procRes L p' = procRes L p := by
  have hok : ProcOk p' ↔ ProcOk p := by
    constructor
    · intro h
      exact ⟨h1 ▸ h6 ▸ h.home, h1 ▸ h2 ▸ h3 ▸ h4 ▸ h.idle, h1 ▸ h3 ▸ h4 ▸ h.live, h1 ▸ h5 ▸ h.closed⟩
    · intro h
      exact ⟨h1 ▸ h6 ▸ h.home, h1 ▸ h2 ▸ h3 ▸ h4 ▸ h.idle, h1 ▸ h3 ▸ h4 ▸ h.live, h1 ▸ h5 ▸ h.closed⟩
  unfold procRes owned
  rw [hok, h2, h3, h4]

/-- The descriptors of a running process may change. -/
theorem procRes_ofile {p : Proc} (h : p.state = .RUNNABLE) (o : Fin NOFILE → Option (Fin NFILE)) :
    procRes L { p with ofile := o } = procRes L p := by
  have hok : ProcOk { p with ofile := o } ↔ ProcOk p :=
    ⟨fun hp => ⟨hp.home, hp.idle, hp.live, fun hn => absurd h hn⟩,
      fun hp => ⟨hp.home, hp.idle, hp.live, fun hn => absurd h hn⟩⟩
  unfold procRes
  rw [hok]
  rfl

/-! ## The invariant -/

/-- The processes and the kernel's pages. -/
def world (L : Layout) (t : Tables) : Assn Nat Mem := others L ∅ t.proc * owns L t.fixed

/-- Who owns the pages between two system calls. -/
def inv (L : Layout) (t : Tables) : Assn Nat Mem := filesAt L t (refs t.proc) t * world L t

theorem filesAt_mul_world_le (t u : Tables) :
    filesAt L t (refs t.proc) u * world L t ≤ inv L u := by
  intro h hh
  unfold filesAt at hh
  rw [mul_assoc] at hh
  obtain ⟨⟨hu, hr⟩, hh⟩ := fact_mul.mp hh
  have hproc : u.proc = t.proc := by rw [hu]
  have hfixed : u.fixed = t.fixed := by rw [hu]
  have hworld : world L t = world L u := by
    unfold world
    rw [hproc, hfixed]
  rw [inv, hproc, filesAt, mul_assoc, ← hworld]
  exact fact_mul.mpr ⟨⟨rfl, hr⟩, hh⟩

/-- The rest of the world, besides process `i`. -/
def world' (L : Layout) (t : Tables) (i : Fin NPROC) : Assn Nat Mem :=
  others L {i} t.proc * owns L t.fixed

theorem world_eq (t : Tables) (i : Fin NPROC) :
    world L t = procRes L (t.proc i) * world' L t i := by
  unfold world world'
  rw [others_open (Finset.notMem_empty i), insert_empty_eq, mul_assoc]

theorem world'_setProc (t : Tables) (i : Fin NPROC) (p : Proc) :
    world' L (t.setProc i p) i = world' L t i := by
  unfold world'
  congr 1
  apply others_congr
  intro j hj
  show procRes L (update t.proc i p j) = _
  rw [update_of_ne (fun h => hj (Finset.mem_singleton.mpr h))]

theorem world_setProc (t : Tables) (i : Fin NPROC) (p : Proc) :
    world L (t.setProc i p) = procRes L p * world' L t i := by
  rw [world_eq _ i, world'_setProc]
  congr 2
  exact update_self ..

theorem world_setFd {t : Tables} {i : Fin NPROC} (h : (t.proc i).state = .RUNNABLE)
    (fd : Fin NOFILE) (x : Option (Fin NFILE)) : world L (t.setFd i fd x) = world L t := by
  unfold Tables.setFd
  rw [world_setProc, world_eq t i]
  congr 1
  exact procRes_ofile h _

/-- A process that is not unused has all its pages. -/
theorem procRes_le_live {p : Proc} (h : p.state ≠ .UNUSED) :
    procRes L p ≤ fact (ProcOk p) * live L p := by
  apply fact_mul_le
  intro hok
  rw [owned_eq_live (hok.live h).1 (hok.live h).2]
  exact le_fact_mul hok le_rfl

theorem live_le_procRes {p : Proc} (h : p.state ≠ .UNUSED) (hok : ProcOk p) :
    live L p ≤ procRes L p := by
  rw [procRes, owned_eq_live (hok.live h).1 (hok.live h).2]
  exact le_fact_mul hok le_rfl

/-- A program that uses the address space of the process `i` only. -/
theorem spec_user {γ : Type} {t : Tables} {i : Fin NPROC} {f : M γ}
    (h : (t.proc i).state ≠ .UNUSED)
    (hf : Spec L (space L (t.proc i).trapframe (t.proc i).pagetable (pagesOf (t.proc i).sz)) f
      fun _ => space L (t.proc i).trapframe (t.proc i).pagetable (pagesOf (t.proc i).sz)) :
    Spec L (world L t) f fun _ => world L t := by
  rw [world_eq t i]
  apply Triple.pre ?_ (mul_le_mul' (procRes_le_live h) le_rfl)
  rw [mul_assoc]
  apply Triple.of_fact
  intro hok
  apply (hf.frame (own L (t.proc i).trapframe * world' L t i)).conseq
  · exact le_of_eq (by unfold live; ac_rfl)
  · intro _
    refine le_trans (le_of_eq ?_) (mul_le_mul' (live_le_procRes h hok) le_rfl)
    unfold live
    ac_rfl

/-- The rest of the world, with the file table. -/
def context (L : Layout) (t : Tables) (i : Fin NPROC) : Assn Nat Mem :=
  filesAt L t (refs t.proc) t * world' L t i

theorem inv_le_live {t : Tables} {i : Fin NPROC} (h : (t.proc i).state ≠ .UNUSED) :
    inv L t ≤ fact (ProcOk (t.proc i)) * (live L (t.proc i) * context L t i) := by
  unfold inv context
  rw [world_eq t i, mul_left_comm, ← mul_assoc (fact _)]
  exact mul_le_mul' (procRes_le_live h) le_rfl

theorem filesAt_self (t : Tables) (r : Fin NFILE → Nat) :
    filesAt L t r t = fact (∀ f, (t.file f).ref = r f) * filesRes L t.file := by
  have hself : (t = { t with file := t.file }) = True := eq_true rfl
  rw [filesAt, hself, true_and]

theorem refs_update {t : Tables} {i : Fin NPROC} {p : Proc} (h : p.ofile = (t.proc i).ofile) :
    refs (update t.proc i p) = refs t.proc := by
  apply refs_congr
  intro j
  by_cases hj : j = i
  · rw [hj, update_self, h]
  · rw [update_of_ne hj]

theorem filesAt_setProc {t : Tables} {i : Fin NPROC} {p : Proc} (h : p.ofile = (t.proc i).ofile) :
    filesAt L (t.setProc i p) (refs (t.setProc i p).proc) (t.setProc i p) =
      filesAt L t (refs t.proc) t := by
  rw [filesAt_self, filesAt_self]
  exact congrArg (fun r => fact (∀ f, (t.file f).ref = r f) * filesRes L t.file) (refs_update h)

theorem live_le_inv {t : Tables} {i : Fin NPROC} {p : Proc} (h : p.state ≠ .UNUSED) (hok : ProcOk p)
    (ho : p.ofile = (t.proc i).ofile) : live L p * context L t i ≤ inv L (t.setProc i p) := by
  unfold inv context
  rw [filesAt_setProc ho, world_setProc, mul_left_comm]
  exact mul_le_mul' le_rfl (mul_le_mul' (live_le_procRes h hok) le_rfl)

/-! ## `sbrk`, `exec` and the accesses of the process itself -/

/-- A running process may get other pages, and another name. -/
theorem ProcOk.repaged {p : Proc} (h : ProcOk p) (hs : p.state = .RUNNABLE) {pagetable : Nat}
    (hp : pagetable ≠ 0) (sz : Nat) (name : List UInt8) :
    ProcOk { p with pagetable := pagetable, sz := sz, name := name } where
  home := h.home
  idle hn := nomatch hs.symm.trans hn
  live _ := ⟨(h.live (by rw [hs]; decide)).1, hp⟩
  closed hn := absurd hs hn

section Calls

variable {t : Tables} {i : Fin NPROC}

theorem ne_unused (h : (t.proc i).state = .RUNNABLE) : (t.proc i).state ≠ .UNUSED := by
  rw [h]
  decide

theorem does_poke (h : (t.proc i).state = .RUNNABLE) (va : Nat) (bytes : List UInt8) :
    Does L 0 0 t (inv L t) (poke i va bytes) fun _ u => inv L u := by
  unfold inv
  apply Does.pre ?_ (le_of_eq (mul_comm _ _))
  apply does_myproc
  refine ((Does.vm_last (spec_user (ne_unused h) (spec_copyout _ _ va bytes))).frame _).post ?_
  intro _ u
  rw [mul_assoc]
  apply fact_mul_le
  intro hu
  rw [hu]
  exact le_of_eq (mul_comm _ _)

theorem space_ne_zero (tf p n : Nat) : space L tf p n ≤ fact (p ≠ 0) * space L tf p n := by
  rintro h ⟨m, hm⟩
  refine fact_mul.mpr ⟨?_, m, hm⟩
  obtain ⟨g, k, -, -, hg, -⟩ := (fact_mul.mp hm).2
  exact Nat.ne_of_gt (fact_mul.mp (tree_isPage 2 p m g hg)).1.pos

/-- The process `i` gets the address space `p` of `sz` bytes. -/
theorem live_le_inv_repaged (h : (t.proc i).state = .RUNNABLE) (hok : ProcOk (t.proc i)) (p sz : Nat)
    (name : List UInt8) :
    own L (t.proc i).trapframe * space L (t.proc i).trapframe p (pagesOf sz) * context L t i ≤
      inv L (t.setProc i { t.proc i with pagetable := p, sz := sz, name := name }) := by
  refine le_trans (mul_le_mul' (mul_le_mul' le_rfl (space_ne_zero _ p _)) le_rfl) ?_
  rw [mul_left_comm, mul_assoc]
  apply fact_mul_le
  intro hp
  exact live_le_inv (p := { t.proc i with pagetable := p, sz := sz, name := name }) (ne_unused h)
    (hok.repaged h hp sz name) rfl

theorem setProc_self (t : Tables) (i : Fin NPROC) : t.setProc i (t.proc i) = t := by
  unfold Tables.setProc
  rw [update_eq_self]

/-- The size that `growproc` gives a process of `sz` bytes; below zero it does not go. -/
def newSize (sz : Nat) (n : Int32) : Nat := if 0 ≤ sz + n.toInt then (sz + n.toInt).toNat else sz

/-- The outcome `r` of `growproc` for a process with the map `m` and the bytes `c`. -/
def resized (L : Layout) (t : Tables) (i : Fin NPROC) (n : Int32) (m : Nat → Nat) (c : Nat → Mem)
    (r : Int) (u : Tables) : Assn Nat Mem :=
  either
    (any fun m' => any fun c' =>
      fact ((r = 0 ∧ u = t.setProc i { t.proc i with sz := newSize (t.proc i).sz n }) ∧
        Shape L (fun _ => True) (t.proc i).trapframe m' (pagesOf (newSize (t.proc i).sz n)) ∧
        Resized m c (pagesOf (t.proc i).sz) m' c' (pagesOf (newSize (t.proc i).sz n))) *
      spaceWith L (t.proc i).pagetable m' c' (pagesOf (newSize (t.proc i).sz n)))
    (fact (r = -1 ∧ 0 < n.toInt ∧ u = t) *
      spaceWith L (t.proc i).pagetable m c (pagesOf (t.proc i).sz))

theorem does_growproc_with (hN : L.npages < tfPage) (n : Int32) {m : Nat → Nat} {c : Nat → Mem}
    (hs : Shape L (fun _ => True) (t.proc i).trapframe m (pagesOf (t.proc i).sz)) :
    Does L 0 0 t (spaceWith L (t.proc i).pagetable m c (pagesOf (t.proc i).sz)) (growproc L i n.toInt)
      (resized L t i n m c) := by
  have hlo := n.le_toInt
  have hhi := n.toInt_lt
  have hsz := lt_of_pagesOf_le hs.bound
  apply does_myproc
  split
  case isTrue hpos =>
    have hnew : newSize (t.proc i).sz n = (((t.proc i).sz + n.toInt) % 2 ^ 64).toNat := by
      unfold newSize
      rw [if_pos (by omega)]
      omega
    have hlt : (t.proc i).sz < newSize (t.proc i).sz n := by omega
    rw [← hnew]
    refine Does.vm_call (spec_uvmalloc_with hN (by decide) (fun _ => trivial) hs) (mul_one _).symm
      fun r => ?_
    rw [mul_one]
    apply Does.of_either
    · refine Does.of_fact fun hr => ?_
      rw [if_neg (by omega)]
      apply does_setProc
      rw [show r = newSize (t.proc i).sz n by omega]
      refine Does.ret (le_trans ?_ (le_either_left _ _))
      refine any_le fun m' => le_any m' (any_le fun c' => le_any c' (fact_mul_le fun h => ?_))
      exact le_fact_mul ⟨⟨rfl, rfl⟩, h.1, h.2.resized⟩ le_rfl
    · refine Does.of_fact fun hr => ?_
      rw [if_pos hr]
      exact Does.ret (le_trans (le_fact_mul ⟨rfl, hpos, rfl⟩ le_rfl) (le_either_right _ _))
  case isFalse hpos =>
    have hmin : newSize (t.proc i).sz n =
        min (t.proc i).sz (((t.proc i).sz + n.toInt) % 2 ^ 64).toNat := by
      unfold newSize
      split <;> omega
    split
    case isTrue hneg =>
      refine Does.vm_call (spec_uvmdealloc_with hs) (mul_one _).symm fun r => ?_
      rw [mul_one]
      refine Does.of_fact fun hr => ?_
      rw [← hmin] at hr
      have hle : pagesOf (newSize (t.proc i).sz n) ≤ pagesOf (t.proc i).sz := pagesOf_mono (by omega)
      apply does_setProc
      rw [hr]
      refine Does.ret (le_trans ?_ (le_either_left _ _))
      refine le_any _ (le_any c (le_fact_mul ⟨⟨rfl, rfl⟩, ?_, ?_⟩ le_rfl))
      · apply Shape.cleared
        rwa [Nat.add_sub_cancel' hle]
      · exact resized_cleared m c hle
    case isFalse hneg =>
      have hnew : newSize (t.proc i).sz n = (t.proc i).sz := by
        unfold newSize
        rw [if_pos (by omega)]
        omega
      refine Does.ret (le_trans (le_any m (le_any c (le_fact_mul ?_ ?_))) (le_either_left _ _))
      · rw [hnew]
        exact ⟨⟨rfl, (setProc_self t i).symm⟩, hs, Resized.refl _ _ _⟩
      · rw [hnew]

theorem does_growproc (hN : L.npages < tfPage) (h : (t.proc i).state = .RUNNABLE) (n : Int32) :
    Does L 0 0 t (inv L t) (growproc L i n.toInt) fun _ u => inv L u := by
  apply Does.pre ?_ (inv_le_live (ne_unused h))
  refine Does.of_fact fun hok => ?_
  apply Does.pre ?_ (mul_le_mul' (mul_le_mul' le_rfl (spaceOf_le_with _ _)) le_rfl)
  rw [mul_comm (own L _), any_mul, any_mul]
  refine Does.of_any fun m => ?_
  rw [any_mul, any_mul]
  refine Does.of_any fun c => ?_
  rw [mul_assoc, mul_assoc]
  refine Does.of_fact fun hs => ?_
  refine ((does_growproc_with hN n hs).frame _).post fun r u => ?_
  have hlive : ∀ sz m c, Shape L (fun _ => True) (t.proc i).trapframe m (pagesOf sz) →
      spaceWith L (t.proc i).pagetable m c (pagesOf sz) *
        (own L (t.proc i).trapframe * context L t i) ≤ inv L (t.setProc i { t.proc i with sz := sz }) := by
    intro sz m c hs
    refine le_trans ?_ (live_le_inv_repaged h hok (t.proc i).pagetable sz (t.proc i).name)
    rw [mul_left_comm, ← mul_assoc]
    exact mul_le_mul' (mul_le_mul' le_rfl (spaceWith_le hs)) le_rfl
  rw [resized, either_mul]
  apply either_le
  · rw [any_mul]
    refine any_le fun m' => ?_
    rw [any_mul]
    refine any_le fun c' => ?_
    rw [mul_assoc]
    refine fact_mul_le fun hr => ?_
    rw [hr.1.2]
    exact hlive _ _ _ hr.2.1
  · rw [mul_assoc]
    refine fact_mul_le fun hr => ?_
    have hself := hlive (t.proc i).sz m c hs
    rw [show t.setProc i { t.proc i with sz := (t.proc i).sz } = t from setProc_self t i] at hself
    rw [hr.2.2]
    exact hself

theorem does_sys_sbrk (hN : L.npages < tfPage) (h : (t.proc i).state = .RUNNABLE) (n : Int32) :
    Does L 0 0 t (inv L t) (sys_sbrk L i n) fun _ u => inv L u := by
  apply does_myproc
  refine Does.bind (does_growproc hN h n) fun r u => ?_
  split
  case isTrue => exact Does.ret le_rfl
  case isFalse => exact Does.ret le_rfl

theorem live_self_le_inv (h : (t.proc i).state ≠ .UNUSED) (hok : ProcOk (t.proc i)) :
    live L (t.proc i) * context L t i ≤ inv L t := by
  have hle := live_le_inv (L := L) (t := t) (i := i) h hok rfl
  rwa [setProc_self] at hle

/-! ### `exec` -/

/-- The tables once `exec` has released the file that is at `path`. -/
def released (t : Tables) (dir : Directory) (path : List UInt8) : Tables :=
  match dir path with
  | none => t
  | some (ip, _) => t.setInode ip { t.inode ip with locked := false }

theorem released_proc (t : Tables) (dir : Directory) (path : List UInt8) :
    (released t dir path).proc = t.proc := by
  unfold released
  split <;> rfl

/-- The outcome `r` of `exec` for a process that had `F`: it has that still, or another address
space and another name. -/
def execed (L : Layout) (t : Tables) (i : Fin NPROC) (F : Assn Nat Mem) (r : Int) (u : Tables) :
    Assn Nat Mem :=
  either (fact (r = -1 ∧ u = t) * F)
    (any fun x : Nat × Nat × List UInt8 =>
      fact (0 ≤ r ∧ u = t.setProc i { t.proc i with pagetable := x.1, sz := x.2.1, name := x.2.2 }) *
        (own L (t.proc i).trapframe * space L (t.proc i).trapframe x.1 (pagesOf x.2.1)))

section Exec

variable {F : Assn Nat Mem} (hN : L.npages < tfPage) (hF : F ≤ live L (t.proc i))

include hN hF

theorem does_execImage (path : List UInt8) (argv : List Nat) (p sz entry : Nat) :
    Does L 0 0 t (spaceOf L isUser (t.proc i).trapframe p (pagesOf sz) * F)
      (execImage L i path argv p sz entry) (execed L t i F) := by
  apply does_myproc
  apply Does.pre ?_ (mul_le_mul' (spaceOf_bound p _) le_rfl)
  rw [mul_assoc]
  apply Does.of_fact
  intro hb
  have hlt := lt_of_pagesOf_le hb
  rw [PGROUNDUP_eq (by omega)]
  refine Does.vm_call (spec_execStack hN hF entry argv) (mul_one _).symm fun r => ?_
  rw [mul_one]
  cases r with
  | none => exact Does.ret (le_trans (le_fact_mul ⟨rfl, rfl⟩ le_rfl) (le_either_left _ _))
  | some x =>
    apply does_setProc
    refine Does.ret (le_trans ?_ (le_either_right _ _))
    exact le_any (x.1, x.2.1, _) (le_fact_mul ⟨Int.natCast_nonneg _, rfl⟩ le_rfl)

omit hN hF in
/-- Releasing the file again, `exec` leaves the tables as it found them, except for the lock. -/
theorem does_release {γ : Type} {ip : Fin NINODE} {g : S γ} {P : Assn Nat Mem}
    {R : γ → Tables → Assn Nat Mem}
    (h : Does L 0 0 (t.setInode ip { t.inode ip with locked := false }) P g R) :
    Does L 0 0 (({ t with outstanding := t.outstanding + 1 } : Tables).setInode ip
        ⟨(t.inode ip).ref + 1, true⟩) P (iunlockput ip >>= fun _ => end_op >>= fun _ => g) R := by
  have hself : ∀ (u : Tables) (x : Inode), (u.setInode ip x).inode ip = x :=
    fun u x => update_self ..
  unfold iunlockput
  rw [bind_assoc]
  refine does_iunlock (by rw [hself]; exact Nat.le_add_left 1 _) (by rw [hself]) ?_
  apply does_iput
  apply does_end_op
  rw [hself, hself]
  simp only [Tables.setInode, update_idem, Nat.add_sub_cancel, Int.add_sub_cancel]
  exact h

/-- `exec` up to the user stack, once the file is found. -/
def loadFound (L : Layout) (i : Fin NPROC) (ip : Fin NINODE) (image : Image) :
    S (Option (Nat × Nat × Nat)) := do
  ilock ip
  let p ← myproc i
  let (ok, pagetable, sz, entry) ← vm (execFile L p.trapframe image)
  if ok = false then do
    vm (ifDo (pagetable ≠ 0) (proc_freepagetable L pagetable sz))
    iunlockput ip
    end_op
    pure none
  else do
    iunlockput ip
    end_op
    pure (some (pagetable, sz, entry))

/-- `exec` up to the user stack: the new page table, the size of the program in it and its entry
point, if there are. -/
def execLoad (L : Layout) (i : Fin NPROC) (dir : Directory) (path : List UInt8) :
    S (Option (Nat × Nat × Nat)) := do
  begin_op
  let found ← namei dir path
  match found with
  | none => do
    end_op
    pure none
  | some (ip, image) => loadFound L i ip image

/-- `exec` from the user stack on. -/
def execRest (L : Layout) (i : Fin NPROC) (path : List UInt8) (argv : List Nat) :
    Option (Nat × Nat × Nat) → S Int
  | none => pure (-1)
  | some (pagetable, sz, entry) => execImage L i path argv pagetable sz entry

omit hN hF in
theorem exec_eq (dir : Directory) (path : List UInt8) (argv : List Nat) :
    exec L i dir path argv = execLoad L i dir path >>= execRest L i path argv := by
  unfold exec execLoad
  rw [bind_assoc]
  refine congrArg _ (funext fun _ => ?_)
  rw [bind_assoc]
  refine congrArg _ (funext fun found => ?_)
  cases found with
  | none =>
    show (end_op >>= fun _ => pure (-1)) = (end_op >>= fun _ => pure none) >>= execRest L i path argv
    rw [bind_assoc]
    rfl
  | some x =>
    obtain ⟨ip, image⟩ := x
    show execFound L i path argv ip image = loadFound L i ip image >>= execRest L i path argv
    unfold execFound loadFound
    simp only [bind_assoc]
    refine congrArg _ (funext fun _ => congrArg _ (funext fun p => congrArg _ (funext fun y => ?_)))
    obtain ⟨ok, pagetable, sz, entry⟩ := y
    cases ok with
    | false =>
      simp only [if_true, bind_assoc, pure_bind]
      rfl
    | true =>
      simp only [Bool.true_eq_false, if_false, bind_assoc, pure_bind]
      rfl

/-- What is there when `exec` has come to the user stack. -/
def toStack (L : Layout) (tf : Nat) (F : Assn Nat Mem) : Option (Nat × Nat × Nat) → Assn Nat Mem
  | none => F
  | some (pagetable, sz, _) => spaceOf L isUser tf pagetable (pagesOf sz) * F

theorem does_loadFound (ip : Fin NINODE) (image : Image) :
    Does L 0 0 (({ t with outstanding := t.outstanding + 1 } : Tables).setInode ip
        { t.inode ip with ref := (t.inode ip).ref + 1 }) F (loadFound L i ip image) fun r u =>
      fact (u = t.setInode ip { t.inode ip with locked := false }) * toStack L (t.proc i).trapframe F r := by
  have hself : ∀ (u : Tables) (x : Inode), (u.setInode ip x).inode ip = x :=
    fun u x => update_self ..
  apply Does.pre ?_ (show F ≤ fact ((t.proc i).trapframe < 2 ^ 56) * F from ?_)
  swap
  · intro h hh
    refine fact_mul.mpr ⟨?_, hh⟩
    obtain ⟨g, k, -, -, hg, -⟩ := hF h hh
    exact (fact_mul.mp (own_isPage _ g hg)).1.lt
  apply Does.of_fact
  intro htf
  refine does_ilock (by rw [hself]; exact Nat.le_add_left 1 _) ?_
  rw [hself, Tables.setInode, Tables.setInode, update_idem]
  apply does_myproc
  refine Does.vm_call (spec_execFile hN htf image) (one_mul _).symm fun x => ?_
  obtain ⟨ok, pagetable, sz, entry⟩ := x
  show Does L 0 0 _ _ (ite _ _ _) _
  split
  case isTrue hok =>
    refine Does.vm_call (spec_unload (ok, pagetable, sz, entry)) rfl fun _ => ?_
    rw [one_mul]
    refine does_release (t := t) (Does.ret ?_)
    exact le_fact_mul rfl le_rfl
  case isFalse hok =>
    by_cases hp : pagetable = 0
    · rw [loaded, if_pos hp]
      apply Does.of_fact
      intro hc
      exact absurd hc hok
    · rw [loaded_of_ne hp]
      refine does_release (t := t) (Does.ret ?_)
      exact le_fact_mul rfl le_rfl

theorem does_execLoad (dir : Directory) (path : List UInt8) :
    Does L 0 0 t F (execLoad L i dir path) fun r u =>
      fact (u = released t dir path) * toStack L (t.proc i).trapframe F r := by
  apply does_begin_op
  unfold released
  cases hfound : dir path with
  | none =>
    refine does_namei_none hfound ?_
    apply does_end_op
    simp only [Int.add_sub_cancel]
    exact Does.ret (le_fact_mul rfl le_rfl)
  | some x =>
    obtain ⟨ip, image⟩ := x
    refine does_namei_some hfound ?_
    exact does_loadFound hN hF ip image

theorem does_exec (dir : Directory) (path : List UInt8) (argv : List Nat) :
    Does L 0 0 t F (exec L i dir path argv) (execed L (released t dir path) i F) := by
  rw [exec_eq]
  refine Does.bind (does_execLoad hN hF dir path) fun r u => Does.of_fact ?_
  rintro rfl
  cases r with
  | none => exact Does.ret (le_trans (le_fact_mul ⟨rfl, rfl⟩ le_rfl) (le_either_left _ _))
  | some x =>
    have hp := released_proc t dir path
    rw [← hp] at hF
    have himage := does_execImage hN hF path argv x.1 x.2.1 x.2.2
    rw [hp] at himage
    exact himage

/-- The outcome `r` of `sys_exec`. -/
theorem does_sys_exec (upath uargv : Nat) (dir : Directory) :
    Does L 0 0 t F (sys_exec L i upath uargv dir) fun r u =>
      either (fact (r = -1 ∧ u = t) * F) (any fun path => execed L (released t dir path) i F r u) := by
  have hspace : F ≤ space L (t.proc i).trapframe (t.proc i).pagetable (pagesOf (t.proc i).sz) *
      own L (t.proc i).trapframe := le_trans hF (le_of_eq (mul_comm _ _))
  apply does_myproc
  refine Does.vm_call (keep_copyinstr hspace upath MAXPATH) (mul_one _).symm fun x => ?_
  obtain ⟨ok, path⟩ := x
  rw [mul_one]
  apply Does.of_fact
  intro _
  show Does L 0 0 t F (ite _ _ _) _
  split
  case isTrue => exact Does.ret (le_trans (le_fact_mul ⟨rfl, rfl⟩ le_rfl) (le_either_left _ _))
  case isFalse =>
    refine Does.vm_call (spec_argv hspace (t.proc i).sz uargv) (mul_one _).symm fun x => ?_
    obtain ⟨ok, argv⟩ := x
    rw [mul_one]
    show Does L 0 0 t (F * owns L argv) (ite _ _ _) _
    split
    case isTrue =>
      refine Does.vm_call (spec_freeArgs argv) (mul_comm _ _) fun _ => ?_
      rw [one_mul]
      exact Does.ret (le_trans (le_fact_mul ⟨rfl, rfl⟩ le_rfl) (le_either_left _ _))
    case isFalse =>
      refine Does.call (does_exec hN hF dir path argv) rfl fun r u => ?_
      refine Does.vm_call (spec_freeArgs argv) (mul_comm _ _) fun _ => ?_
      rw [one_mul]
      exact Does.ret (le_trans (le_any path le_rfl) (le_either_right _ _))

end Exec

/-- The inode table and the log have no pages. -/
theorem inv_congr {t u : Tables} (hp : u.proc = t.proc) (hf : u.file = t.file) (hx : u.fixed = t.fixed) :
    inv L u = inv L t := by
  unfold inv world
  rw [filesAt_self, filesAt_self, hp, hf, hx]

theorem context_congr {t u : Tables} (hp : u.proc = t.proc) (hf : u.file = t.file)
    (hx : u.fixed = t.fixed) : context L u i = context L t i := by
  unfold context world'
  rw [filesAt_self, filesAt_self, hp, hf, hx]

theorem released_files (t : Tables) (dir : Directory) (path : List UInt8) :
    (released t dir path).file = t.file ∧ (released t dir path).fixed = t.fixed := by
  unfold released
  split <;> exact ⟨rfl, rfl⟩

theorem does_execProc (hN : L.npages < tfPage) (h : (t.proc i).state = .RUNNABLE)
    (upath uargv : Nat) (dir : Directory) :
    Does L 0 0 t (inv L t) (sys_exec L i upath uargv dir) fun _ u => inv L u := by
  apply Does.pre ?_ (inv_le_live (ne_unused h))
  apply Does.of_fact
  intro hok
  refine ((does_sys_exec hN le_rfl upath uargv dir).frame _).post fun r u => ?_
  have hself := live_self_le_inv (L := L) (ne_unused h) hok
  rw [either_mul]
  apply either_le
  · rw [mul_assoc]
    refine fact_mul_le fun hr => ?_
    rw [hr.2]
    exact hself
  rw [any_mul]
  refine any_le fun path => ?_
  have hp := released_proc t dir path
  obtain ⟨hf, hx⟩ := released_files t dir path
  rw [execed, either_mul]
  apply either_le
  · rw [mul_assoc]
    refine fact_mul_le fun hr => ?_
    rw [hr.2, inv_congr hp hf hx]
    exact hself
  · rw [any_mul]
    refine any_le fun x => ?_
    rw [mul_assoc]
    refine fact_mul_le fun hr => ?_
    rw [hr.2, ← context_congr hp hf hx]
    exact live_le_inv_repaged (by rw [hp]; exact h) (by rw [hp]; exact hok) x.1 x.2.1 x.2.2

theorem filesAt_setFd {u : Tables} {r : Fin NFILE → Nat} (fd : Fin NOFILE)
    (x : Option (Fin NFILE)) :
    filesAt L t r u ≤ filesAt L (t.setFd i fd x) r (u.setFd i fd x) := by
  apply fact_mul_le
  rintro ⟨hu, hr⟩
  refine le_fact_mul ⟨?_, hr⟩ le_rfl
  rw [hu]
  rfl

/-- What `fdalloc` for the file `f` leaves of the tables. -/
def fdalloced (L : Layout) (t : Tables) (r : Fin NFILE → Nat) (i : Fin NPROC) (f : Fin NFILE) :
    Option (Fin NOFILE) → Tables → Assn Nat Mem
  | none, u => filesAt L t r u
  | some fd, u => fact ((t.proc i).ofile fd = none) * filesAt L (t.setFd i fd (some f)) r u

theorem does_fdalloc {u : Tables} {r : Fin NFILE → Nat} (f : Fin NFILE) :
    Does L 0 0 u (filesAt L t r u) (fdalloc i f) (fdalloced L t r i f) := by
  apply Triple.of_fact
  rintro ⟨hu, hr⟩
  apply Does.pre ?_ (le_fact_mul (And.intro hu hr) le_rfl)
  apply does_myproc
  split
  case h_1 => exact Does.ret le_rfl
  case h_2 fd hfind =>
    have hnone := List.find?_some hfind
    simp only [decide_eq_true_eq] at hnone
    apply does_setFd
    apply Does.ret
    refine le_fact_mul ?_ (filesAt_setFd fd (some f))
    rw [hu] at hnone
    exact hnone

theorem does_sys_dup (h : (t.proc i).state = .RUNNABLE) (fd : Fin NOFILE) :
    Does L 0 0 t (inv L t) (sys_dup i fd) fun _ u => inv L u := by
  apply does_myproc
  split
  case h_1 => exact Does.ret le_rfl
  case h_2 f hf =>
    refine Does.call (does_fdalloc f) rfl fun x u => ?_
    cases x with
    | none => exact Does.ret (filesAt_mul_world_le t u)
    | some fd' =>
      unfold fdalloced
      rw [mul_assoc]
      apply Does.of_fact
      intro hfd
      refine Does.call (does_filedup (refs_pos hf)) rfl fun _ v => ?_
      apply Does.ret
      rw [← refs_open f hfd, ← world_setFd h fd' (some f)]
      exact filesAt_mul_world_le _ v

theorem does_sys_close (h : (t.proc i).state = .RUNNABLE) (fd : Fin NOFILE) :
    Does L 0 0 t (inv L t) (sys_close L i fd) fun _ u => inv L u := by
  apply does_myproc
  split
  case h_1 => exact Does.ret le_rfl
  case h_2 f hf =>
    apply does_setFd
    apply Does.pre ?_ (mul_le_mul' (filesAt_setFd (i := i) fd none) le_rfl)
    refine Does.call (does_fileclose (refs_pos hf)) rfl fun _ u => ?_
    apply Does.ret
    rw [← refs_shut hf, ← world_setFd h fd none]
    exact filesAt_mul_world_le _ u

/-- The two ends of a pipe that was not handed over are closed again. -/
theorem does_closeBoth {u : Tables} {f0 f1 : Fin NFILE} (hne : f0 ≠ f1)
    (h0 : refs t.proc f0 = 0) (h1 : refs t.proc f1 = 0) :
    Does L 0 0 u
      (filesAt L t (update (update (refs t.proc) f0 1) f1 1) u * world L t)
      (closeBoth L f0 f1) fun _ u => inv L u := by
  have hback : update (update (update (update (refs t.proc)
      f0 1) f1 1) f0 0) f1 0 = refs t.proc := by
    funext g
    grind
  have hclose : Does L 0 0 u
      (filesAt L t (update (update (refs t.proc) f0 1) f1 1) u)
      (closeBoth L f0 f1) fun _ u => filesAt L t (refs t.proc) u := by
    apply does_close_two hne
    · rw [update_of_ne hne, update_self]
    · exact update_self ..
    · intro u
      rw [hback]
      exact Does.ret le_rfl
  exact (hclose.frame _).post fun _ u => filesAt_mul_world_le t u

theorem setFd_proc (fd : Fin NOFILE) (x : Option (Fin NFILE)) :
    (t.setFd i fd x).proc i = (t.proc i).setFd fd x := update_self ..

theorem setFd_setFd (fd fd' : Fin NOFILE) (x y : Option (Fin NFILE)) :
    (t.setFd i fd x).setFd i fd' y = t.setProc i (((t.proc i).setFd fd x).setFd fd' y) := by
  rw [Tables.setFd, setFd_proc]
  unfold Tables.setFd Tables.setProc
  rw [update_idem]

theorem setFd_undo {fd : Fin NOFILE} (h : (t.proc i).ofile fd = none) (x : Option (Fin NFILE)) :
    (t.setFd i fd x).setFd i fd none = t := by
  have hp : ((t.proc i).setFd fd x).setFd fd none = t.proc i := by
    unfold Proc.setFd
    rw [update_idem, ← h, update_eq_self]
  rw [setFd_setFd, hp, setProc_self]

theorem setFd_comm {fd fd' : Fin NOFILE} (h : fd ≠ fd') (x y : Option (Fin NFILE)) :
    (t.setFd i fd x).setFd i fd' y = (t.setFd i fd' y).setFd i fd x := by
  have hp : ((t.proc i).setFd fd x).setFd fd' y = ((t.proc i).setFd fd' y).setFd fd x := by
    unfold Proc.setFd
    rw [Function.update_comm h]
  rw [setFd_setFd, setFd_setFd, hp]

/-- The process copies from the kernel while the file table is being changed. -/
theorem does_user_copyout {γ : Type} {u : Tables} {r : Fin NFILE → Nat} {g : Int → S γ}
    {Q : γ → Tables → Assn Nat Mem} (h : (t.proc i).state = .RUNNABLE) (va : Nat)
    (bytes : List UInt8) (hg : ∀ c, Does L 0 0 u (filesAt L t r u * world L t) (g c) Q) :
    Does L 0 0 u (filesAt L t r u * world L t)
      (vm (copyout (u.proc i).pagetable va bytes) >>= g) Q := by
  apply Does.pre ?_ (mul_le_mul' filesAt_proc le_rfl)
  rw [mul_assoc]
  apply Does.of_fact
  intro hp
  rw [hp]
  refine Does.vm_call (spec_user (ne_unused h) (spec_copyout _ _ va bytes)) (mul_comm _ _) fun c => ?_
  apply (hg c).pre
  exact le_of_eq (mul_comm _ _)

theorem does_pipeTell {u : Tables} (h : (t.proc i).state = .RUNNABLE) {f0 f1 : Fin NFILE}
    {fd0 fd1 : Fin NOFILE} (hne : f0 ≠ f1) (h0 : refs t.proc f0 = 0) (h1 : refs t.proc f1 = 0)
    (hfd0 : (t.proc i).ofile fd0 = none)
    (hfd1 : ((t.setFd i fd0 (some f0)).proc i).ofile fd1 = none) (fdarray : Nat) :
    Does L 0 0 u
      (filesAt L ((t.setFd i fd0 (some f0)).setFd i fd1 (some f1))
        (update (update (refs t.proc) f0 1) f1 1) u * world L t)
      (pipeTell L i fdarray f0 f1 fd0 fd1) fun _ u => inv L u := by
  have hofile : update (t.proc i).ofile fd0 (some f0) fd1 = none := by
    rw [setFd_proc] at hfd1
    exact hfd1
  have hfd : fd0 ≠ fd1 := by
    rintro rfl
    rw [update_self] at hofile
    exact Option.some_ne_none _ hofile
  rw [update_of_ne hfd.symm] at hofile
  have hs0 : ((t.setFd i fd0 (some f0)).proc i).state = .RUNNABLE := by
    rw [setFd_proc]
    exact h
  have hs1 : (((t.setFd i fd0 (some f0)).setFd i fd1 (some f1)).proc i).state = .RUNNABLE := by
    rw [setFd_proc]
    exact hs0
  have hundo : (((t.setFd i fd0 (some f0)).setFd i fd1 (some f1)).setFd i fd0 none).setFd i fd1 none
      = t := by
    rw [setFd_comm hfd.symm, setFd_undo hfd0, setFd_undo hofile]
  have hbad : ∀ u, Does L 0 0 u
      (filesAt L ((t.setFd i fd0 (some f0)).setFd i fd1 (some f1))
        (update (update (refs t.proc) f0 1) f1 1) u * world L t)
      (do setFd i fd0 none; setFd i fd1 none; closeBoth L f0 f1) fun _ u => inv L u := by
    intro u
    apply does_setFd
    apply does_setFd
    apply Does.pre ?_ (mul_le_mul' (le_trans (filesAt_setFd (i := i) fd0 none)
      (filesAt_setFd (i := i) fd1 none)) le_rfl)
    rw [hundo]
    exact does_closeBoth hne h0 h1
  have hrefs : refs ((t.setFd i fd0 (some f0)).setFd i fd1 (some f1)).proc =
      update (update (refs t.proc) f0 1) f1 1 := by
    rw [refs_open f1 hfd1, refs_open f0 hfd0, h0, update_of_ne hne.symm, h1]
  have hworld : world L t = world L ((t.setFd i fd0 (some f0)).setFd i fd1 (some f1)) := by
    rw [world_setFd hs0, world_setFd h]
  rw [hworld] at hbad ⊢
  apply does_myproc
  apply does_user_copyout hs1
  intro r
  split
  case isTrue => exact hbad _
  case isFalse =>
    apply does_user_copyout hs1
    intro r
    split
    case isTrue => exact hbad _
    case isFalse =>
      apply Does.ret
      rw [← hrefs]
      exact filesAt_mul_world_le _ u

theorem does_sys_pipe (h : (t.proc i).state = .RUNNABLE) (fdarray : Nat) :
    Does L 0 0 t (inv L t) (sys_pipe L i fdarray) fun _ u => inv L u := by
  refine Does.call does_pipealloc rfl fun x u => ?_
  cases x with
  | none => exact Does.ret (filesAt_mul_world_le t u)
  | some x =>
    obtain ⟨f0, f1⟩ := x
    unfold madePipe
    rw [mul_assoc]
    apply Does.of_fact
    rintro ⟨hne, h0, h1⟩
    refine Does.call (does_fdalloc f0) rfl fun x u => ?_
    cases x with
    | none => exact does_closeBoth hne h0 h1
    | some fd0 =>
      unfold fdalloced
      rw [mul_assoc]
      apply Does.of_fact
      intro hfd0
      refine Does.call (does_fdalloc f1) rfl fun x u => ?_
      cases x with
      | none =>
        apply does_setFd
        unfold fdalloced
        apply Does.pre ?_ (mul_le_mul' (filesAt_setFd (i := i) fd0 none) le_rfl)
        rw [setFd_undo hfd0]
        exact does_closeBoth hne h0 h1
      | some fd1 =>
        unfold fdalloced
        rw [mul_assoc]
        apply Does.of_fact
        intro hfd1
        exact does_pipeTell h hne h0 h1 hfd0 hfd1 fdarray

/-! ## Allocating and freeing processes -/

/-- An entry of the process table after `freeproc`. -/
def blank (p : Proc) : Proc :=
  { p with trapframe := 0, pagetable := 0, sz := 0, pid := 0, parent := none, name := [],
           xstate := 0, state := .UNUSED }

theorem procOk_blank {p : Proc} (h : ∀ fd, p.ofile fd = none) : ProcOk (blank p) where
  home hn := by cases hn
  idle _ := ⟨rfl, rfl, rfl⟩
  live hn := absurd rfl hn
  closed _ := h

theorem procRes_unused {p : Proc} (h : p.state = .UNUSED) (hok : ProcOk p) : procRes L p = 1 := by
  rw [procRes, owned, fact_true hok, if_pos (hok.idle h).1, if_pos (hok.idle h).2.1, one_mul, one_mul]

theorem does_freeproc :
    Does L 0 0 t (owned L (t.proc i)) (freeproc L i) fun _ u =>
      fact (u = t.setProc i (blank (t.proc i))) := by
  have htf : Spec L (if (t.proc i).trapframe = 0 then 1 else own L (t.proc i).trapframe)
      (ifDo ((t.proc i).trapframe ≠ 0) (kfree L (t.proc i).trapframe)) fun _ => 1 := by
    apply spec_ifDo
    · intro h
      rw [if_neg h]
      exact spec_kfree 0 _
    · intro h
      rw [if_pos (not_not.mp h)]
  have hpt : Spec L (if (t.proc i).pagetable = 0 then 1 else
        space L (t.proc i).trapframe (t.proc i).pagetable (pagesOf (t.proc i).sz))
      (ifDo ((t.proc i).pagetable ≠ 0) (proc_freepagetable L (t.proc i).pagetable (t.proc i).sz))
      fun _ => 1 := by
    apply spec_ifDo
    · intro h
      rw [if_neg h]
      exact spec_proc_freepagetable
    · intro h
      rw [if_pos (not_not.mp h)]
  apply does_myproc
  refine Does.vm_call htf rfl fun _ => ?_
  rw [one_mul]
  refine Does.vm_call hpt (mul_one _).symm fun _ => ?_
  apply does_setProc_last
  rw [mul_one]
  exact le_of_eq (fact_true rfl).symm

/-- The tables when `allocproc` has set up the entry `i` as `p`. -/
def allotted (t : Tables) (i : Fin NPROC) (p : Proc) : Tables :=
  { t with nextpid := t.nextpid + 1, proc := update t.proc i p }

/-- What `allocproc` leaves behind for the entry `i`, when `n` pages were promised. -/
def started (L : Layout) (t : Tables) (n : Nat) (i : Fin NPROC) :
    Option (Fin NPROC) → Tables → Assn Nat Mem
  | none, u => fact (n < 6 ∧ ∃ p, u = allotted t i p ∧ p.state = .UNUSED ∧ ProcOk p)
  | some j, u => any fun p => fact (j = i ∧ u = allotted t i p ∧ p.state = .USED ∧ ProcOk p ∧
      p.sz = 0) * live L p

theorem setProc_setProc (p q : Proc) : (t.setProc i p).setProc i q = t.setProc i q := by
  unfold Tables.setProc
  rw [update_idem]

theorem setProc_proc (p : Proc) : (t.setProc i p).proc i = p := update_self ..

/-- `allocproc` gives the entry back when it finds no memory. -/
theorem does_undo {n : Nat} (hn : n < 6) {p : Proc} {P : Assn Nat Mem} (hP : P ≤ owned L p)
    (hc : ∀ fd, p.ofile fd = none) :
    Does L 0 0 (allotted t i p) P (do freeproc L i; pure none) (started L t n i) := by
  apply Does.pre ?_ hP
  have hfree := does_freeproc (L := L) (t := allotted t i p) (i := i)
  rw [show (allotted t i p).proc i = p from update_self ..] at hfree
  refine Does.bind hfree fun _ u => ?_
  apply Does.ret
  rintro h ⟨hu, hh⟩
  refine ⟨⟨hn, blank p, ?_, rfl, procOk_blank hc⟩, hh⟩
  rw [hu]
  unfold allotted Tables.setProc
  rw [update_idem]

theorem setProc_allotted (p : Proc) :
    ({ t with nextpid := t.nextpid + 1 } : Tables).setProc i p = allotted t i p := rfl

theorem allotted_setProc (p q : Proc) : (allotted t i p).setProc i q = allotted t i q := by
  unfold allotted Tables.setProc
  rw [update_idem]

theorem allotted_proc (p : Proc) : (allotted t i p).proc i = p := update_self ..

theorem does_initProc (n : Nat) (h : (t.proc i).state = .UNUSED) (hok : ProcOk (t.proc i)) :
    Does L n (n - 6) t 1 (initProc L i) (started L t n i) := by
  obtain ⟨-, hpt, hsz⟩ := hok.idle h
  have hc := hok.closed (by rw [h]; decide)
  apply does_tables
  apply does_setTables
  refine Does.vm_call (spec_kalloc n) (one_mul _).symm fun tf => ?_
  rw [mul_one]
  apply does_myproc
  apply does_setProc
  rw [setProc_allotted]
  split
  case isTrue htf =>
    rw [htf, given_zero, ← mul_one (fact _)]
    apply Does.of_fact
    rintro rfl
    refine does_undo (by decide) ?_ hc
    rw [owned, if_pos rfl, if_pos hpt, one_mul]
  case isFalse htf =>
    rw [given_of_ne htf]
    apply Does.pre ?_ (own_isPage tf)
    apply Does.of_fact
    intro hpage
    have hmake : Uses L (n - 1) (n - 1 - 5) 1 (proc_pagetable L tf)
        (made L (fun _ => True) tf (n - 1)) := spec_proc_pagetable (n - 1) hpage.lt
    refine Does.vm_call hmake (one_mul _).symm fun pt => ?_
    apply does_myproc
    apply does_setProc
    rw [allotted_proc, allotted_setProc]
    split
    case isTrue hz =>
      rw [hz, made, if_pos rfl]
      apply Does.of_fact
      intro hn
      rw [show n - 1 - 5 = 0 by omega, show n - 6 = 0 by omega]
      refine does_undo (by omega) ?_ hc
      rw [owned, if_neg htf, if_pos rfl, mul_one]
    case isFalse hz =>
      rw [made_of_ne hz, show n - 1 - 5 = n - 6 by omega]
      apply Does.ret
      refine le_any _ (le_fact_mul ⟨rfl, rfl, rfl, ⟨fun hn => (by cases hn),
        fun hn => (by cases hn), fun _ => ⟨htf, hz⟩, fun _ => hc⟩, hsz⟩ ?_)
      show _ ≤ own L tf * space L tf pt (pagesOf (t.proc i).sz)
      rw [hsz, mul_comm]
      exact le_rfl

/-! ## `fork` -/

theorem inv_procOk (t : Tables) : inv L t ≤ fact (∀ j, ProcOk (t.proc j)) * inv L t := by
  intro h hh
  refine fact_mul.mpr ⟨fun j => ?_, hh⟩
  rw [inv, world_eq t j, procRes, mul_left_comm, mul_assoc] at hh
  exact (fact_mul.mp hh).1

theorem filesAt_allotted {j : Fin NPROC} {p : Proc} (h : p.ofile = (t.proc j).ofile) :
    filesAt L (allotted t j p) (refs (allotted t j p).proc) (allotted t j p) =
      filesAt L t (refs t.proc) t := by
  rw [filesAt_self, filesAt_self]
  exact congrArg (fun r => fact (∀ f, (t.file f).ref = r f) * filesRes L t.file) (refs_update h)

theorem world'_allotted (j : Fin NPROC) (p : Proc) :
    world' L (allotted t j p) j = world' L t j := world'_setProc t j p

/-- An unused process owns nothing. -/
theorem inv_le_context {j : Fin NPROC} {p : Proc} (h : (t.proc j).state = .UNUSED)
    (hok : ProcOk (t.proc j)) (hp : ∀ fd, p.ofile fd = none) :
    inv L t ≤ context L (allotted t j p) j := by
  have ho : p.ofile = (t.proc j).ofile := by
    funext fd
    rw [hp, hok.closed (by rw [h]; decide)]
  rw [inv, context, filesAt_allotted ho, world'_allotted, world_eq t j, procRes_unused h hok, one_mul]

theorem context_le_inv {j : Fin NPROC} (h : (t.proc j).state = .UNUSED) (hok : ProcOk (t.proc j)) :
    context L t j ≤ inv L t := by
  rw [inv, context, world_eq t j, procRes_unused h hok, one_mul]

/-- The loop of `fork` over the open files. -/
theorem does_dupFiles {u : Tables} {j : Fin NPROC} (fds : List (Fin NOFILE))
    (hnodup : fds.Nodup) (hnone : ∀ fd ∈ fds, (t.proc j).ofile fd = none) :
    Does L 0 0 u (filesAt L t (refs t.proc) u) (dupFiles i j fds) fun _ v =>
      any fun o => filesAt L (t.setProc j { t.proc j with ofile := o })
        (refs (t.setProc j { t.proc j with ofile := o }).proc) v := by
  induction fds generalizing t u with
  | nil =>
    apply Does.ret
    apply le_any (t.proc j).ofile
    rw [setProc_self]
  | cons fd fds ih =>
    apply Does.pre ?_ filesAt_proc
    apply Does.of_fact
    intro hp
    apply does_myproc
    rw [hp]
    split
    case h_1 =>
      exact ih (List.nodup_cons.mp hnodup).2 fun fd hfd => hnone fd (List.mem_cons_of_mem _ hfd)
    case h_2 f hf =>
      refine Does.bind (does_filedup (refs_pos hf)) fun _ v => ?_
      apply does_setFd
      have hfd := hnone fd List.mem_cons_self
      apply Does.pre ?_ (filesAt_setFd (i := j) fd (some f))
      rw [← refs_open f hfd]
      refine (ih (List.nodup_cons.mp hnodup).2 ?_).post fun _ v => ?_
      · intro fd' hmem
        rw [setFd_proc]
        show update (t.proc j).ofile fd (some f) fd' = none
        have hne : fd' ≠ fd := fun h => (List.nodup_cons.mp hnodup).1 (h ▸ hmem)
        rw [update_of_ne hne]
        exact hnone fd' (List.mem_cons_of_mem _ hmem)
      · apply any_le
        intro o
        apply le_any o
        rw [Tables.setFd, setProc_setProc, setProc_proc]
        exact le_rfl

theorem context_setProc {p : Proc} (h : p.ofile = (t.proc i).ofile) :
    context L (t.setProc i p) i = context L t i := by
  unfold context
  rw [filesAt_setProc h, world'_setProc]

theorem filesAt_setProc_le {u : Tables} {r : Fin NFILE → Nat} (p : Proc) :
    filesAt L t r u ≤ filesAt L (t.setProc i p) r (u.setProc i p) := by
  apply fact_mul_le
  rintro ⟨hu, hr⟩
  refine le_fact_mul ⟨?_, hr⟩ le_rfl
  rw [hu]
  rfl

/-- The entry of `i` changes at last, while the file table already has. -/
theorem files_le_inv_setProc {u : Tables} {p : Proc} (h : p.ofile = (t.proc i).ofile) :
    filesAt L t (refs t.proc) u * (procRes L p * world' L t i) ≤ inv L (u.setProc i p) := by
  have hle := filesAt_mul_world_le (L := L) (t.setProc i p) (u.setProc i p)
  rw [world_setProc, show refs (t.setProc i p).proc = refs t.proc from refs_update h] at hle
  exact le_trans (mul_le_mul' (filesAt_setProc_le p) le_rfl) hle

/-- `freeproc` of a process that had all its pages. -/
theorem does_freeproc_live (h : (t.proc i).state ≠ .UNUSED) (hok : ProcOk (t.proc i))
    (hc : ∀ fd, (t.proc i).ofile fd = none) :
    Does L 0 0 t (live L (t.proc i) * context L t i) (freeproc L i) fun _ u => inv L u := by
  rw [← owned_eq_live (hok.live h).1 (hok.live h).2]
  refine (does_freeproc.frame _).post fun _ u => ?_
  apply fact_mul_le
  intro hu
  rw [hu, ← context_setProc (p := blank (t.proc i)) rfl]
  apply context_le_inv
  · rw [setProc_proc]
    rfl
  · rw [setProc_proc]
    exact procOk_blank hc

/-- The tables when the child `j` of `i` runs, with the open files `o` and the working directory
`ip`. -/
def begun (t : Tables) (i j : Fin NPROC) (ip : Fin NINODE) (o : Fin NOFILE → Option (Fin NFILE))
    (file : Fin NFILE → File) : Tables :=
  { t with
    file := file
    inode := update t.inode ip { t.inode ip with ref := (t.inode ip).ref + 1 }
    proc := update t.proc j
      { t.proc j with sz := (t.proc i).sz, ofile := o, cwd := some ip,
                      name := safestrcpy NAMESIZE (t.proc i).name, parent := some i,
                      state := .RUNNABLE } }

theorem does_start {j : Fin NPROC} {ip : Fin NINODE} (hij : i ≠ j) (hcwd : (t.proc i).cwd = some ip)
    (hsz : (t.proc j).sz = (t.proc i).sz) (hc : ∀ fd, (t.proc j).ofile fd = none) :
    Does L 0 0 t (filesAt L t (refs t.proc) t)
      (dupFiles i j (List.finRange NOFILE) >>= fun _ => startChild i j) fun r u =>
        any fun o => fact (r = (t.proc j).pid ∧ u = begun t i j ip o u.file) *
          filesAt L u (refs u.proc) u := by
  refine Does.bind (does_dupFiles (List.finRange NOFILE) (List.nodup_finRange _) fun fd _ => hc fd)
    fun _ v => ?_
  apply Does.of_any
  intro o
  unfold filesAt
  apply Does.of_fact
  rintro ⟨hv, hr⟩
  have hproc : v.proc = update t.proc j { t.proc j with ofile := o } := by
    rw [hv]
    rfl
  apply does_myproc
  rw [hproc, update_of_ne hij, hcwd]
  apply does_idup
  apply does_myproc
  apply does_setProc
  refine Does.ret (le_any o (le_fact_mul ⟨?_, ?_⟩ (le_fact_mul ⟨rfl, fun f => ?_⟩ le_rfl)))
  · show ((v.proc j).pid : Int) = _
    rw [hproc, update_self]
  · rw [hv]
    simp only [begun, Tables.setProc, Tables.setInode, update_self, update_idem]
    rw [hsz]
  · refine (hr f).trans (congrFun (refs_congr fun l => ?_) f).symm
    show (update v.proc j _ l).ofile = (update t.proc j _ l).ofile
    rw [hproc]
    by_cases hl : l = j
    · subst hl
      simp only [Tables.setInode, hproc, update_self]
    · rw [update_of_ne hl, update_of_ne hl]

/-- The saved registers of a child, `c'`, are those of its parent, but for `a0`. -/
structure Registers (c c' : Mem) : Prop where
  same : ∀ o < TRAPFRAMESIZE, o < TF_A0 ∨ TF_A0 + 8 ≤ o → c' o = c o
  a0 : getLE c' TF_A0 8 = 0

/-- What there is after `fork` for the parent's address space `Fi`, for the rest `B`, and for the
child `j`, which has copies of the pages with map `m` and bytes `c` and of the trapframe `ci`. -/
def forked (L : Layout) (t : Tables) (i j : Fin NPROC) (ci : Mem) (m : Nat → Nat) (c : Nat → Mem)
    (Fi B : Assn Nat Mem) (r : Int) (u : Tables) : Assn Nat Mem :=
  any fun ip => any fun o => any fun m' => any fun cj =>
    fact ((r = (t.proc j).pid ∧ u = begun t i j ip o u.file) ∧
      (Shape L (fun _ => True) (t.proc j).trapframe m' (pagesOf (t.proc i).sz) ∧
        ∀ v < pagesOf (t.proc i).sz, PTE_FLAGS (m' v) = PTE_FLAGS (m v)) ∧ Registers ci cj) *
    (Fi * (page L (t.proc j).trapframe cj *
      spaceWith L (t.proc j).pagetable m' c (pagesOf (t.proc i).sz)) * (filesAt L u (refs u.proc) u * B))

/-- Nothing has come of `fork`, except that a process identifier is used up. -/
def Unforked (t u : Tables) : Prop :=
  u = t ∨ ∃ j p, (t.proc j).state = .UNUSED ∧ ProcOk (t.proc j) ∧ p.state = .UNUSED ∧ ProcOk p ∧
    u = allotted t j p

section Fork

variable {ci : Mem} {m : Nat → Nat} {c : Nat → Mem} {Fi C B : Assn Nat Mem} (hN : L.npages < tfPage)
  (hFi : Fi ≤ page L (t.proc i).trapframe ci * spaceWith L (t.proc i).pagetable m c (pagesOf (t.proc i).sz))
  (hs : Shape L (fun _ => True) (t.proc i).trapframe m (pagesOf (t.proc i).sz))
  (hcwd : (t.proc i).cwd ≠ none) (hC : C ≤ filesAt L t (refs t.proc) t * B)

include hN hFi hs hcwd hC

theorem does_forkInto {j : Fin NPROC} (hij : i ≠ j) (hj : (t.proc j).state = .USED)
    (hok : ProcOk (t.proc j)) (hsz : (t.proc j).sz = 0) :
    Does L 0 0 t (live L (t.proc j) * (Fi * C)) (forkInto L i j) fun r u =>
      either (fact (r = -1 ∧ u = t.setProc j (blank (t.proc j))) * (Fi * C))
        (forked L t i j ci m c Fi B r u) := by
  have hc := hok.closed (by rw [hj]; decide)
  have hlive := hok.live (by rw [hj]; decide)
  obtain ⟨ip, hip⟩ := Option.ne_none_iff_exists'.mp hcwd
  have hF : Fi * C ≤ spaceWith L (t.proc i).pagetable m c (pagesOf (t.proc i).sz) *
      (page L (t.proc i).trapframe ci * C) := by
    refine le_trans (mul_le_mul' hFi le_rfl) (le_of_eq ?_)
    ac_rfl
  apply does_myproc
  apply does_myproc
  rw [live, hsz, show pagesOf 0 = 0 from rfl]
  refine Does.vm_call (spec_uvmcopy hN (t.proc j).pagetable hs hF) (F := own L (t.proc j).trapframe)
    (by ac_rfl) fun r => ?_
  split
  case isTrue hr =>
    have hnone : copied L (t.proc j).trapframe m c (t.proc j).pagetable (pagesOf (t.proc i).sz) r ≤
        space L (t.proc j).trapframe (t.proc j).pagetable 0 :=
      either_le (any_le fun m' => fact_mul_le fun h => absurd h.1 (by omega)) (fact_mul_le fun _ => le_rfl)
    apply Does.pre ?_ (mul_le_mul' (mul_le_mul' le_rfl hnone) le_rfl)
    refine Does.call (does_freeproc (i := j)) (F := Fi * C) ?_ fun _ u => ?_
    · rw [owned_eq_live hlive.1 hlive.2, live, hsz, show pagesOf 0 = 0 from rfl]
      ac_rfl
    · apply Does.of_fact
      intro hu
      exact Does.ret (le_trans (le_fact_mul ⟨rfl, hu⟩ le_rfl) (le_either_left _ _))
  case isFalse hr =>
    apply does_setProc
    rw [mul_assoc, mul_comm, mul_assoc, copied, either_mul]
    refine Does.of_either ?_ (by rw [mul_assoc]; exact Does.of_fact fun h => absurd h hr)
    rw [any_mul]
    refine Does.of_any fun m' => ?_
    rw [mul_assoc]
    refine Does.of_fact fun hm' => ?_
    rw [mul_left_comm, own, any_mul]
    refine Does.of_any fun d => ?_
    -- the trapframe
    have hsrc : Fi * C ≤ page L (t.proc i).trapframe ci *
        (spaceWith L (t.proc i).pagetable m c (pagesOf (t.proc i).sz) * C) := by
      rw [← mul_assoc]
      exact mul_le_mul' hFi le_rfl
    refine Does.vm_call (spec_memmove (k := TRAPFRAMESIZE) (by decide) hsrc)
      (F := spaceWith L (t.proc j).pagetable m' c (pagesOf (t.proc i).sz)) (by ac_rfl) fun _ => ?_
    rw [mul_assoc]
    refine Does.of_fact fun _ => ?_
    refine Does.vm_call (spec_store (o := TF_A0) (k := 8) (by decide))
      (F := Fi * C * spaceWith L (t.proc j).pagetable m' c (pagesOf (t.proc i).sz)) (by ac_rfl) fun _ => ?_
    have hregs : Registers ci (putLE (fun i => if i < TRAPFRAMESIZE then ci i else d i) TF_A0 8 0) := by
      refine ⟨fun o ho hout => ?_, getLE_putLE_of_lt (by decide)⟩
      rw [putLE_outside (by omega), if_pos ho]
    generalize putLE (fun i => if i < TRAPFRAMESIZE then ci i else d i) TF_A0 8 0 = cj at hregs ⊢
    -- the open files and the rest of the entry
    have hproc : ∀ p, (t.setProc j p).proc i = t.proc i := fun p => update_of_ne hij _ _
    have hstart := does_start (L := L) (t := t.setProc j { t.proc j with sz := (t.proc i).sz }) (i := i)
      (j := j) hij (by rw [hproc]; exact hip) (by rw [setProc_proc, hproc])
      (by rw [setProc_proc]; exact hc)
    rw [filesAt_setProc (p := { t.proc j with sz := (t.proc i).sz }) rfl] at hstart
    apply Does.pre ?_ (mul_le_mul' le_rfl (mul_le_mul' (mul_le_mul' le_rfl hC) le_rfl))
    refine Does.post ((hstart.frame (Fi * (page L (t.proc j).trapframe cj *
      spaceWith L (t.proc j).pagetable m' c (pagesOf (t.proc i).sz)) * B)).pre (le_of_eq ?_)) fun r u => ?_
    · ac_rfl
    · refine le_trans ?_ (le_either_right _ _)
      rw [any_mul]
      refine any_le fun o => ?_
      rw [mul_assoc]
      refine fact_mul_le fun hu => ?_
      refine le_any ip (le_any o (le_any m' (le_any _ (le_fact_mul ⟨⟨?_, ?_⟩, hm'.2, hregs⟩ (le_of_eq ?_)))))
      · rw [hu.1, setProc_proc]
      · rw [hu.2]
        simp only [begun, Tables.setProc, update_idem, update_self,
          update_of_ne hij]
      · ac_rfl

/-- `fork` of the process that has `Fi`, beside the rest `C`. -/
theorem does_fork_with (h : (t.proc i).state = .RUNNABLE)
    (hall : ∀ j, ProcOk (t.proc j)) :
    Does L 0 0 t (Fi * C) (fork L i) fun r u =>
      either (fact (r = -1 ∧ Unforked t u) * (Fi * C))
        (any fun j => any fun p => fact ((t.proc j).state = .UNUSED ∧ p.state = .USED ∧ ProcOk p) *
          forked L (allotted t j p) i j ci m c Fi B r u) := by
  unfold fork allocproc
  rw [bind_assoc]
  apply does_tables
  split
  case h_1 => exact Does.ret (le_trans (le_fact_mul ⟨rfl, Or.inl rfl⟩ le_rfl) (le_either_left _ _))
  case h_2 j hfind =>
    have hj := List.find?_some hfind
    simp only [decide_eq_true_eq] at hj
    have hij : i ≠ j := by
      rintro rfl
      rw [h] at hj
      cases hj
    refine Does.call (does_initProc 0 hj (hall j)) (one_mul _).symm fun r u => ?_
    cases r with
    | none =>
      apply Does.of_fact
      rintro ⟨-, p, rfl, hp, hpok⟩
      refine Does.ret (le_trans (le_fact_mul ⟨rfl, Or.inr ?_⟩ le_rfl) (le_either_left _ _))
      exact ⟨j, p, hj, hall j, hp, hpok, rfl⟩
    | some j' =>
      unfold started
      rw [any_mul]
      apply Does.of_any
      intro p
      rw [mul_assoc]
      apply Does.of_fact
      rintro ⟨rfl, rfl, hp, hpok, hsz⟩
      have hi : (allotted t j' p).proc i = t.proc i := update_of_ne hij _ _
      have hclosed := hpok.closed (by rw [hp]; decide)
      have ho : p.ofile = (t.proc j').ofile := by
        funext fd
        rw [hclosed, (hall j').closed (by rw [hj]; decide)]
      rw [← hi] at hFi hs hcwd
      rw [← filesAt_allotted ho] at hC
      have hinto := does_forkInto hN hFi hs hcwd hC hij (by rw [allotted_proc]; exact hp)
        (by rw [allotted_proc]; exact hpok) (by rw [allotted_proc]; exact hsz)
      rw [allotted_proc] at hinto
      refine hinto.post fun r u => either_le ?_ ?_
      · refine fact_mul_le fun hr => le_trans (le_fact_mul ⟨hr.1, Or.inr ?_⟩ le_rfl) (le_either_left _ _)
        refine ⟨j', blank p, hj, hall j', rfl, procOk_blank hclosed, ?_⟩
        rw [hr.2, allotted_setProc]
      · refine le_trans (le_any j' (le_any p (le_fact_mul ⟨hj, hp, hpok⟩ ?_))) (le_either_right _ _)
        exact le_rfl

end Fork

/-- Open the address space of a process at its map and at its bytes. -/
theorem live_le_with (p : Proc) : live L p ≤ any fun ci => any fun m => any fun c =>
    fact (Shape L (fun _ => True) p.trapframe m (pagesOf p.sz)) *
      (page L p.trapframe ci * spaceWith L p.pagetable m c (pagesOf p.sz)) := by
  unfold live own
  rw [any_mul]
  refine any_le fun ci => le_any ci ?_
  refine le_trans (mul_le_mul' le_rfl (spaceOf_le_with _ _)) ?_
  rw [mul_comm, any_mul]
  refine any_le fun m => le_any m ?_
  rw [any_mul]
  refine any_le fun c => le_any c ?_
  rw [mul_assoc, mul_comm (page _ _ _)]

theorem with_le_live {p : Proc} {ci : Mem} {m : Nat → Nat} {c : Nat → Mem}
    (hs : Shape L (fun _ => True) p.trapframe m (pagesOf p.sz)) :
    page L p.trapframe ci * spaceWith L p.pagetable m c (pagesOf p.sz) ≤ live L p :=
  mul_le_mul' (page_le_own _ _) (spaceWith_le hs)

/-- An entry of the process table that is unused, before and after. -/
theorem inv_allotted {j : Fin NPROC} {p : Proc} (hj : (t.proc j).state = .UNUSED)
    (hok : ProcOk (t.proc j)) (hp : p.state = .UNUSED) (hpok : ProcOk p) :
    inv L t ≤ inv L (allotted t j p) := by
  refine le_trans (inv_le_context hj hok (hpok.closed (by rw [hp]; decide))) (context_le_inv ?_ ?_)
  · rw [allotted_proc]
    exact hp
  · rw [allotted_proc]
    exact hpok

theorem forked_mono {j : Fin NPROC} {ci : Mem} {m : Nat → Nat} {c : Nat → Mem} {r : Int} {u : Tables}
    {Fi Fi' B : Assn Nat Mem} (h : Fi ≤ Fi') :
    forked L t i j ci m c Fi B r u ≤ forked L t i j ci m c Fi' B r u := by
  refine any_le fun ip => le_any ip (any_le fun o => le_any o (any_le fun m' => le_any m'
    (any_le fun cj => le_any cj ?_)))
  exact mul_le_mul' le_rfl (mul_le_mul' (mul_le_mul' h le_rfl) le_rfl)

/-- The parent, the child and the rest after `fork`. -/
theorem forked_le_inv {j : Fin NPROC} {ci : Mem} {m : Nat → Nat} {c : Nat → Mem} {r : Int} {u : Tables}
    (hi : (t.proc i).state = .RUNNABLE) (hoki : ProcOk (t.proc i)) (hj : (t.proc j).state = .UNUSED)
    (hokj : ProcOk (t.proc j)) {p : Proc} (hp : p.state = .USED) (hpok : ProcOk p) :
    forked L (allotted t j p) i j ci m c (live L (t.proc i)) (world' L t i) r u ≤ inv L u := by
  have hij : i ≠ j := by
    rintro rfl
    rw [hi] at hj
    cases hj
  have hpi : (allotted t j p).proc i = t.proc i := update_of_ne hij _ _
  refine any_le fun ip => any_le fun o => any_le fun m' => any_le fun cj => fact_mul_le ?_
  rintro ⟨⟨-, hu⟩, ⟨hs', -⟩, -⟩
  rw [allotted_proc, hpi] at hs' ⊢
  -- the entries of the two processes
  have huj : u.proc j = { p with
      sz := (t.proc i).sz, ofile := o, cwd := some ip, name := safestrcpy NAMESIZE (t.proc i).name,
      parent := some i, state := .RUNNABLE } := by
    rw [hu]
    simp only [begun, update_self, hpi, allotted_proc]
  have hui : ∀ l, l ≠ j → u.proc l = t.proc l := by
    intro l hl
    rw [hu]
    simp only [begun, allotted, update_of_ne hl]
  have hchild : page L p.trapframe cj * spaceWith L p.pagetable m' c (pagesOf (t.proc i).sz) ≤
      procRes L (u.proc j) := by
    have hrun : (u.proc j).state = .RUNNABLE := by rw [huj]
    refine le_trans ?_ (live_le_procRes (by rw [hrun]; decide) ?_)
    · rw [huj]
      exact mul_le_mul' (page_le_own _ _) (spaceWith_le hs')
    · rw [huj]
      exact ⟨fun _ => Option.some_ne_none ip, fun h => (by cases h),
        fun _ => hpok.live (by rw [hp]; decide), fun h => absurd rfl h⟩
  have hworld : procRes L (u.proc j) * (procRes L (u.proc i) * world' L t i) ≤ world L u := by
    have hji : j ∉ ({i} : Finset (Fin NPROC)) := fun h => hij (Finset.mem_singleton.mp h).symm
    have hfixed : u.fixed = t.fixed := by
      rw [hu]
      rfl
    have hothers : others L {j, i} u.proc = others L {j, i} t.proc :=
      others_congr fun l hl => by rw [hui l fun h => hl (by rw [h]; exact Finset.mem_insert_self _ _)]
    rw [world_eq u i]
    unfold world'
    rw [others_open hji, others_open hji, hothers, procRes_unused hj hokj, one_mul, hfixed]
    apply le_of_eq
    ac_rfl
  refine le_trans ?_ (mul_le_mul' le_rfl hworld)
  have hparent : live L (t.proc i) ≤ procRes L (u.proc i) := by
    rw [hui i hij]
    exact live_le_procRes (ne_unused hi) hoki
  refine le_trans (mul_le_mul' (mul_le_mul' hparent hchild) le_rfl) (le_of_eq ?_)
  ac_rfl

theorem does_fork (hN : L.npages < tfPage) (h : (t.proc i).state = .RUNNABLE) :
    Does L 0 0 t (inv L t) (fork L i) fun _ u => inv L u := by
  apply Does.pre ?_ (inv_procOk t)
  refine Does.of_fact fun hall => ?_
  apply Does.pre ?_ (inv_le_live (ne_unused h))
  refine Does.of_fact fun hok => ?_
  apply Does.pre ?_ (mul_le_mul' (live_le_with _) le_rfl)
  rw [any_mul]
  refine Does.of_any fun ci => ?_
  rw [any_mul]
  refine Does.of_any fun m => ?_
  rw [any_mul]
  refine Does.of_any fun c => ?_
  rw [mul_assoc]
  refine Does.of_fact fun hs => ?_
  refine (does_fork_with hN le_rfl hs (hok.home h) le_rfl h hall).post fun r u => either_le ?_ ?_
  · refine fact_mul_le fun hr => le_trans (mul_le_mul' (with_le_live hs) le_rfl) ?_
    refine le_trans (live_self_le_inv (ne_unused h) hok) ?_
    rcases hr.2 with rfl | ⟨j, p, hj, hokj, hp, hpok, rfl⟩
    · exact le_rfl
    · exact inv_allotted hj hokj hp hpok
  · refine any_le fun j => any_le fun p => fact_mul_le fun hp => ?_
    exact le_trans (forked_mono (with_le_live hs)) (forked_le_inv h hok hp.1 (hall j) hp.2.1 hp.2.2)

/-! ## `exit` and `wait` -/

/-- The loop of `exit` over the open files. -/
theorem does_closeFiles {u : Tables} (fds : List (Fin NOFILE)) :
    Does L 0 0 u (filesAt L t (refs t.proc) u) (closeFiles L i fds) fun _ v =>
      any fun o => fact (∀ fd, o fd ≠ none → fd ∉ fds ∧ (t.proc i).ofile fd ≠ none) *
        filesAt L (t.setProc i { t.proc i with ofile := o })
          (refs (t.setProc i { t.proc i with ofile := o }).proc) v := by
  induction fds generalizing t u with
  | nil =>
    apply Does.ret
    apply le_any (t.proc i).ofile
    rw [setProc_self]
    exact le_fact_mul (fun fd hfd => ⟨List.not_mem_nil, hfd⟩) le_rfl
  | cons fd fds ih =>
    apply Does.pre ?_ filesAt_proc
    apply Does.of_fact
    intro hp
    apply does_myproc
    rw [hp]
    split
    case h_1 hnone =>
      refine ih.post fun _ v => ?_
      apply any_le
      intro o
      apply le_any o
      apply fact_mul_le
      intro ho
      refine le_fact_mul (fun fd' hfd' => ⟨?_, (ho fd' hfd').2⟩) le_rfl
      rw [List.mem_cons, not_or]
      refine ⟨fun he => ?_, (ho fd' hfd').1⟩
      rw [he] at hfd'
      exact (ho fd hfd').2 hnone
    case h_2 f hf =>
      refine Does.bind (does_fileclose (refs_pos hf)) fun _ v => ?_
      apply does_setFd
      apply Does.pre ?_ (filesAt_setFd (i := i) fd none)
      rw [← refs_shut hf]
      refine ih.post fun _ v => ?_
      apply any_le
      intro o
      apply le_any o
      apply fact_mul_le
      intro ho
      rw [setFd_proc] at ho
      rw [Tables.setFd, setProc_setProc, setProc_proc]
      refine le_fact_mul (fun fd' hfd' => ?_) le_rfl
      obtain ⟨hmem, hopen⟩ := ho fd' hfd'
      have hopen : update (t.proc i).ofile fd none fd' ≠ none := hopen
      have hne : fd' ≠ fd := by
        rintro rfl
        rw [update_self] at hopen
        exact hopen rfl
      rw [update_of_ne hne] at hopen
      rw [List.mem_cons, not_or]
      exact ⟨⟨hne, hmem⟩, hopen⟩

theorem reparent_proc (t : Tables) (i j : Fin NPROC) : (t.reparent i).proc j =
    { t.proc j with
      parent := if (t.proc j).parent = some i then some t.initproc else (t.proc j).parent } := by
  show ite _ _ _ = _
  split <;> rfl

theorem filesAt_reparent {u : Tables} :
    filesAt L t (refs t.proc) u ≤
      filesAt L (t.reparent i) (refs (t.reparent i).proc) (u.reparent i) := by
  have hrefs : refs (t.reparent i).proc = refs t.proc := by
    apply refs_congr
    intro j
    rw [reparent_proc]
  rw [hrefs]
  apply fact_mul_le
  rintro ⟨hu, hr⟩
  refine le_fact_mul ⟨?_, hr⟩ le_rfl
  rw [hu]
  rfl

/-- Whose child a process is does not matter for its pages. -/
theorem world'_reparent (t : Tables) (i : Fin NPROC) : world' L (t.reparent i) i = world' L t i := by
  unfold world'
  congr 1
  apply others_congr
  intro j _
  rw [reparent_proc]
  exact procRes_congr rfl rfl rfl rfl rfl rfl

/-- The log and the inode table are not in the files. -/
theorem filesAt_inodes {u : Tables} {r : Fin NFILE → Nat} (inode : Fin NINODE → Inode) (n : Int) :
    filesAt L t r u ≤
      filesAt L { t with inode := inode, outstanding := n } r { u with inode := inode, outstanding := n } := by
  apply fact_mul_le
  rintro ⟨hu, hr⟩
  refine le_fact_mul ⟨?_, hr⟩ le_rfl
  rw [hu]

theorem does_leaveCwd {u : Tables} {P : Assn Nat Mem} (h : (u.proc i).cwd ≠ none) :
    Does L 0 0 u P (leaveCwd i) fun _ v => any fun inode => any fun n =>
      fact (v = ({ u with inode := inode, outstanding := n } : Tables).setProc i
        { u.proc i with cwd := none }) * P := by
  obtain ⟨ip, hip⟩ := Option.ne_none_iff_exists'.mp h
  apply does_myproc
  rw [hip]
  apply does_begin_op
  apply does_iput
  apply does_end_op
  exact does_setProc_last (le_any _ (le_any _ (le_fact_mul rfl le_rfl)))

theorem does_exit (h : (t.proc i).state = .RUNNABLE) (status : Nat) (hi : i ≠ t.initproc) :
    Does L 0 0 t (inv L t) (exit L i status) fun _ u => inv L u := by
  apply does_tables
  rw [if_neg hi]
  refine Does.call (does_closeFiles (List.finRange NOFILE)) rfl fun _ u => ?_
  rw [any_mul]
  apply Does.of_any
  intro o
  rw [mul_assoc]
  apply Does.of_fact
  intro ho
  have hnone : ∀ fd, o fd = none := fun fd => by_contra fun hfd =>
    (ho fd hfd).1 (List.mem_finRange fd)
  rw [world_eq t i]
  apply Does.pre ?_ (mul_le_mul' filesAt_proc (mul_le_mul' (procRes_le_live (ne_unused h)) le_rfl))
  rw [mul_assoc, mul_assoc, mul_left_comm (filesAt _ _ _ _)]
  apply Does.of_fact
  intro hu
  apply Does.of_fact
  intro hok
  have hui : u.proc i = { t.proc i with ofile := o } := by rw [hu, setProc_proc]
  refine Does.bind (does_leaveCwd (by rw [hui]; exact hok.home h)) fun _ v => ?_
  refine Does.of_any fun inode => Does.of_any fun n => Does.of_fact ?_
  rintro rfl
  -- the files, seen from the tables after `leaveCwd`
  have hfiles : filesAt L (t.setProc i { t.proc i with ofile := o })
      (refs (t.setProc i { t.proc i with ofile := o }).proc) u ≤
      filesAt L (({ t with inode := inode, outstanding := n } : Tables).setProc i
          { t.proc i with ofile := o, cwd := none })
        (refs (({ t with inode := inode, outstanding := n } : Tables).setProc i
          { t.proc i with ofile := o, cwd := none }).proc)
        (({ u with inode := inode, outstanding := n } : Tables).setProc i
          { t.proc i with ofile := o, cwd := none }) := by
    have hrefs : refs (({ t with inode := inode, outstanding := n } : Tables).setProc i
        { t.proc i with ofile := o, cwd := none }).proc =
        refs (t.setProc i { t.proc i with ofile := o }).proc := by
      apply refs_congr
      intro j
      show (update t.proc i _ j).ofile = (update t.proc i _ j).ofile
      by_cases hj : j = i
      · rw [hj, update_self, update_self]
      · rw [update_of_ne hj, update_of_ne hj]
    refine le_trans (le_trans (filesAt_inodes inode n)
      (filesAt_setProc_le (i := i) { t.proc i with ofile := o, cwd := none })) (le_of_eq ?_)
    rw [hrefs]
    unfold Tables.setProc
    rw [update_idem]
  rw [hui]
  apply does_tables
  apply does_setTables
  apply does_myproc
  apply Does.pre ?_ (mul_le_mul' (le_trans hfiles (filesAt_reparent (i := i))) le_rfl)
  rw [reparent_proc, setProc_proc]
  apply does_setProc_last
  have hlive : live L (t.proc i) ≤ procRes L
      { t.proc i with
        ofile := o, cwd := none, xstate := status, state := .ZOMBIE,
        parent := if (t.proc i).parent = some i then some u.initproc else (t.proc i).parent } :=
    live_le_procRes (p := { t.proc i with
        ofile := o, cwd := none, xstate := status, state := .ZOMBIE,
        parent := if (t.proc i).parent = some i then some u.initproc else (t.proc i).parent })
      (fun h => by cases h)
      ⟨fun h => (by cases h), fun h => (by cases h), fun _ => hok.live (ne_unused h), fun _ => hnone⟩
  refine le_trans (mul_le_mul' le_rfl (mul_le_mul' hlive le_rfl)) ?_
  have hworld : world' L t i = world' L ((({ t with inode := inode, outstanding := n } : Tables).setProc i
      { t.proc i with ofile := o, cwd := none }).reparent i) i := by
    rw [world'_reparent, world'_setProc]
    rfl
  rw [hworld]
  apply files_le_inv_setProc
  rw [reparent_proc, setProc_proc]

theorem does_free_dead {j : Fin NPROC} (hj : (t.proc j).state = .ZOMBIE) :
    Does L 0 0 t (inv L t) (freeproc L j) fun _ u => inv L u := by
  apply Does.pre ?_ (inv_le_live (by rw [hj]; decide))
  apply Does.of_fact
  intro hok
  exact does_freeproc_live (by rw [hj]; decide) hok (hok.closed (by rw [hj]; decide))

theorem does_reap {j : Fin NPROC} (h : (t.proc i).state = .RUNNABLE)
    (hj : (t.proc j).state = .ZOMBIE) (addr : Nat) :
    Does L 0 0 t (inv L t) (reap L i addr j) fun _ u => inv L u := by
  apply does_myproc
  apply does_myproc
  split
  case isTrue => exact Does.bind (does_free_dead hj) fun _ u => Does.ret le_rfl
  case isFalse =>
    apply does_user_copyout h
    intro r
    split
    case isTrue => exact Does.ret le_rfl
    case isFalse => exact Does.bind (does_free_dead hj) fun _ u => Does.ret le_rfl

theorem does_wait (h : (t.proc i).state = .RUNNABLE) (addr : Nat) :
    Does L 0 0 t (inv L t) (wait L i addr) fun _ u => inv L u := by
  apply does_tables
  split
  case h_1 j hfind =>
    have hj := List.find?_some hfind
    simp only [decide_eq_true_eq] at hj
    exact Does.bind (does_reap h hj.2 addr) fun _ u => Does.ret le_rfl
  case h_2 =>
    split
    · exact Does.ret le_rfl
    · exact Does.ret le_rfl

theorem exit_init (status : Nat) (k : Kmem) :
    exit L t.initproc status t k = .error .initExiting := by
  unfold exit
  show (ite (t.initproc = t.initproc) (stop .initExiting) _ : S Unit) t k = _
  rw [if_pos rfl]
  rfl

/-! ## Runs -/

theorem does_discard {γ : Type} {f : S γ} (h : Does L 0 0 t (inv L t) f fun _ u => inv L u) :
    Does L 0 0 t (inv L t) (discard f) fun _ u => inv L u :=
  Does.bind h fun _ _ => Does.ret le_rfl

/-- Every system call of a running process keeps the books, except that `init` may not
exit. -/
theorem does_run (hN : L.npages < tfPage) (h : (t.proc i).state = .RUNNABLE) (call : Call)
    (hexit : ∀ status, call = .exit status → i ≠ t.initproc) :
    Does L 0 0 t (inv L t) (call.run L i) fun _ u => inv L u := by
  cases call with
  | fork => exact does_discard (does_fork hN h)
  | exec upath uargv namei => exact does_discard (does_execProc hN h upath uargv namei)
  | sbrk n => exact does_discard (does_sys_sbrk hN h n)
  | exit status => exact does_exit h status (hexit status rfl)
  | wait addr => exact does_discard (does_wait h addr)
  | pipe fdarray => exact does_discard (does_sys_pipe h fdarray)
  | dup fd => exact does_discard (does_sys_dup h fd)
  | close fd => exact does_discard (does_sys_close h fd)
  | poke va bytes => exact does_discard (does_poke h va bytes)

end Calls

/-- A state of the system in which the books are right. -/
def Good (L : Layout) (s : Sys) : Prop := (inv L s.tab * free L 0 s.kmem) (view L s.kmem)

/-- What may come out of the kernel: a state with the books right, or the panic of an
`init` that exits. -/
def Fine (L : Layout) : Except Panic Sys → Prop
  | .ok s => Good L s
  | .error e => e = .initExiting

theorem good_exec {s : Sys} {f : S Unit} (hs : Good L s)
    (hf : Does L 0 0 s.tab (inv L s.tab) f fun _ u => inv L u) :
    ∃ t, s.exec f = .ok t ∧ Good L t := by
  obtain ⟨c, k, hc, hk⟩ := hf 1 s.kmem (by rw [mul_one]; exact hs)
  rw [mul_one] at hk
  refine ⟨⟨c.2, k⟩, ?_, hk⟩
  unfold Sys.exec
  rw [hc]

/-- The books do not depend on what `kalloc` will find. -/
theorem Good.starve {s : Sys} (hs : Good L s) (oom : List Bool) :
    Good L ⟨s.tab, { s.kmem with oom := oom }⟩ :=
  Assn.mul_right (any_le fun ps => fact_mul_le fun hps => le_any ps
    (le_fact_mul ⟨hps.1, fun h => absurd h (Nat.lt_irrefl 0)⟩ le_rfl)) hs

theorem good_step (hN : L.npages < tfPage) {s : Sys} (hs : Good L s) (l : Label) :
    Fine L (step L s l) := by
  unfold step
  split
  case isFalse => exact hs
  case isTrue hrun =>
    have hs' : Good L ⟨s.tab, { s.kmem with oom := l.oom }⟩ := hs.starve l.oom
    by_cases hexit : ∃ status, l.call = .exit status ∧ l.caller = s.tab.initproc
    · obtain ⟨status, hcall, hinit⟩ := hexit
      have hstop : Sys.exec ⟨s.tab, { s.kmem with oom := l.oom }⟩ (l.call.run L l.caller) =
          .error .initExiting := by
        rw [hcall, hinit, Call.run, Sys.exec, exit_init]
      rw [hstop]
      exact rfl
    · obtain ⟨t, ht, hgood⟩ := good_exec hs' (does_run hN hrun l.call
        fun status hcall hinit => hexit ⟨status, hcall, hinit⟩)
      rw [ht]
      exact hgood

/-- In every run the books are right after every system call. -/
theorem good_run (hN : L.npages < tfPage) {s : Sys} (hs : Good L s) (ls : List Label) :
    Fine L (runCalls L s ls) := by
  induction ls generalizing s with
  | nil => exact hs
  | cons l ls ih =>
    have hstep := good_step hN hs l
    rw [runCalls]
    cases h : step L s l with
    | ok t =>
      rw [h] at hstep
      exact ih hstep
    | error e =>
      rw [h] at hstep
      exact hstep

end Xv6.Vm
