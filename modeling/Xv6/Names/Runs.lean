import Xv6.Names.System

/-!
# Runs of system calls

In every state that calls of any processes reach from `boot`, the reference counts are those of the
descriptors, the open files and the current directories. So a call finds an entry for an inode while
the inodes in use and those that the call takes on the way fit in the table. Nothing else keeps the
table from running full: there are `NFILE` files and `NPROC` processes, and `NINODE` is less.
-/
namespace Xv6.Names

set_option autoImplicit false

open Lib.Hoare

/-- The entries of the inode table that a call may take at a time. -/
def Call.demand : Call → Nat
  | .open _ omode _ => if omode &&& O_CREATE ≠ 0 then 3 else 2
  | .mkdir _ _ => 3
  | .mknod _ _ _ _ => 3
  | .chdir _ _ => 2
  | .dup _ => 0
  | .pipe _ _ => 0
  | .close _ => 0
  | .fork _ => 0
  | .exit => 0
  | .link _ _ _ => 3
  | .unlink _ _ => 2

/-- The inodes in use leave the entries that the call may take. -/
def Spare (w : World) (c : Call) : Prop := (inUse w).card + c.demand ≤ NINODE

instance (w : World) (c : Call) : Decidable (Spare w c) :=
  inferInstanceAs (Decidable (_ ≤ _))

theorem wp_body {w : World} {p : Pid} {E : Panic → Prop} (h : Steady w)
    (hlive : (w.proc p).state = .live) (hE : Lax E) (c : Call) (hspare : Spare w c ∨ E .noInodes) :
    wp (c.body p) (fun _ t => Steady t) E w := by
  have hroom : ∀ n, c.demand = n + 1 → Room w n ∨ E .noInodes := by
    intro n hn
    refine hspare.imp_left fun hs => ?_
    unfold Spare at hs
    unfold Room
    omega
  have hsteady : ∀ {t : World}, At w 0 t → Steady t := fun hat => (h.next hat).steady hat.proc
  cases c with
  | «open» path omode env =>
    apply wp_sysOpen h hlive hE
    apply hroom
    rw [Call.demand]
    split
    · rfl
    · rfl
  | mkdir path env => exact wp_sysMake h hE (hroom 2 rfl) p path _ _ _ env
  | mknod path major minor env => exact wp_sysMake h hE (hroom 2 rfl) p path _ _ _ env
  | chdir path env => exact wp_sysChdir h hlive hE (hroom 1 rfl) path env
  | dup fd => exact wp_sysDup h hlive fd
  | pipe memory copied => exact wp_sysPipe h hlive memory copied
  | close fd => exact wp_sysClose h hlive fd
  | fork memory => exact wp_sysFork h hE p memory
  | exit => exact wp_sysExit h hlive hE
  | link old new env =>
    exact wp_mono (fun _ _ ht => hsteady ht) (fun _ he => he)
      (wp_sysLink h.inodes (hroom 2 rfl) hE p old new env)
  | unlink path env =>
    exact wp_mono (fun _ _ ht => hsteady ht) (fun _ he => he)
      (wp_sysUnlink h.inodes (hroom 1 rfl) hE p path env)

theorem baseRefs_boot (inode : Nat → Inode) (ninodes : Nat) (ip : Id) :
    baseRefs (boot inode ninodes) ip = if ip.val = 0 then 1 else 0 := by
  have hfiles : ∑ f, one ip ((boot inode ninodes).ftable f).kind.holds = 0 :=
    Finset.sum_eq_zero fun _ _ => one_none ip
  have hprocs : ∑ p, one ip ((boot inode ninodes).proc p).cwd =
      one ip (some (⟨0, by decide⟩ : Id)) := by
    apply Finset.sum_eq_single (⟨0, by decide⟩ : Pid)
    · intro p _ hp
      have hval : p.val ≠ 0 := fun h => hp (Fin.ext h)
      dsimp only [boot]
      rw [if_neg hval]
      exact one_none ip
    · intro hmem
      exact absurd (Finset.mem_univ _) hmem
  unfold baseRefs
  rw [hfiles, hprocs, one_some, Nat.zero_add]
  simp only [Fin.ext_iff]

theorem slots_boot (inode : Nat → Inode) (ninodes : Nat) (f : FileId) :
    slots (boot inode ninodes) f = 0 := by
  apply Finset.sum_eq_zero
  intro p _
  dsimp only [boot]
  split
  · exact row_none f
  · exact row_none f

theorem steady_boot (inode : Nat → Inode) (ninodes : Nat) : Steady (boot inode ninodes) where
  inodes := by
    refine ⟨rfl, fun ip => ?_, fun _ _ => rfl, fun x hx => absurd hx (Multiset.notMem_zero x), ?_⟩
    · rw [baseRefs_boot]
      dsimp only [boot]
      split
      · rfl
      · rfl
    · intro ip jp hip hjp _
      dsimp only [boot] at hip hjp
      split at hip
      · split at hjp
        · apply Fin.ext
          omega
        · exact absurd rfl hjp
      · exact absurd rfl hip
  refs := fun f => (slots_boot inode ninodes f).symm
  closed := fun _ _ => rfl
  idle := by
    intro p hp
    dsimp only [boot] at hp ⊢
    split at hp
    · exact absurd rfl hp
    · next hval =>
      rw [if_neg hval]
      exact ⟨rfl, rfl⟩
  pipes := by
    refine ⟨fun _ _ => rfl, fun _ _ h => ?_, fun pi writable => ?_, fun _ _ _ _ h => ?_⟩
    · cases h
    · constructor
      · intro h
        obtain ⟨f, hf⟩ := h
        cases hf
      · intro h
        obtain ⟨x, hx, -⟩ := h
        cases hx
    · cases h

theorem steady_step {w t : World} {a : Act} (h : Steady w) (hstep : step w a = some t) : Steady t := by
  cases a with
  | call p c =>
    simp only [step] at hstep
    split at hstep
    · next hlive =>
      have hwp := wp_body (E := fun _ => True) h hlive (fun _ _ => trivial) c (.inr trivial)
      unfold wp at hwp
      cases hrun : c.body p w with
      | error e =>
        rw [hrun] at hstep
        cases hstep
      | ok r =>
        rw [hrun] at hstep hwp
        cases hstep
        exact hwp
    · cases hstep
  | reap p =>
    simp only [step] at hstep
    split at hstep
    · next hzombie =>
      cases hstep
      have hidle := h.idle p (by rw [hzombie]; decide)
      have hset := Inv.setProc (p := p) h 0 { w.proc p with state := .unused } (fun _ => rfl)
        (fun _ hx => .inl hx) (fun _ => hidle)
      exact hset.steady_of_ofile rfl rfl
    · cases hstep

theorem steady_run {inode : Nat → Inode} {ninodes : Nat} {as : List Act} {w : World}
    (hrun : Lib.run step (boot inode ninodes) as = some w) : Steady w :=
  Lib.run_invariant (I := Steady) (fun _ _ _ hs hstep => steady_step hs hstep)
    (steady_boot inode ninodes) hrun

/-! ### The counts -/

theorem sum_one {ι α : Type} [Fintype ι] [DecidableEq α] (a : α) (o : ι → Option α) :
    ∑ i, one a (o i) = (Finset.univ.filter fun i => o i = some a).card := by
  rw [Finset.card_filter]
  rfl

theorem slots_eq_card (w : World) (f : FileId) :
    slots w f =
      (Finset.univ.filter fun x : Pid × Fin NOFILE => (w.proc x.1).ofile x.2 = some f).card := by
  rw [← sum_one f fun x : Pid × Fin NOFILE => (w.proc x.1).ofile x.2, Fintype.sum_prod_type]
  rfl

theorem Steady.baseRefs_eq {w : World} (h : Steady w) (ip : Id) :
    baseRefs w ip =
      (Finset.univ.filter fun f => (w.ftable f).ref ≠ 0 ∧ (w.ftable f).kind.holds = some ip).card +
      (Finset.univ.filter fun p => (w.proc p).cwd = some ip).card := by
  unfold baseRefs
  rw [sum_one ip fun f => (w.ftable f).kind.holds, sum_one ip fun p => (w.proc p).cwd]
  congr 2
  apply Finset.filter_congr
  intro f _
  rw [iff_and_self]
  intro hholds hzero
  rw [h.closed f ((h.refs f).symm.trans hzero)] at hholds
  cases hholds

/-- The reference counts are exact in every state between calls. -/
theorem references_exact {inode : Nat → Inode} {ninodes : Nat} {as : List Act} {w : World}
    (hrun : Lib.run step (boot inode ninodes) as = some w) :
    (∀ f, (w.ftable f).ref =
      (Finset.univ.filter fun x : Pid × Fin NOFILE => (w.proc x.1).ofile x.2 = some f).card) ∧
    (∀ f, (w.ftable f).ref = 0 → (w.ftable f).kind = .none) ∧
    (∀ ip, (w.itable ip).ref =
      (Finset.univ.filter fun f => (w.ftable f).ref ≠ 0 ∧ (w.ftable f).kind.holds = some ip).card +
      (Finset.univ.filter fun p => (w.proc p).cwd = some ip).card) ∧
    (∀ pi x, w.pipe pi = some x → x.readopen = true ∨ x.writeopen = true) ∧
    (∀ pi writable, (∃ f, (w.ftable f).kind = .pipe pi writable) ↔
      ∃ x, w.pipe pi = some x ∧ x.isOpen writable = true) := by
  have h := steady_run hrun
  refine ⟨fun f => ?_, fun f hf => ?_, fun ip => ?_, h.pipes.opened, h.pipes.ends⟩
  · rw [h.refs f, slots_eq_card]
  · exact h.closed f ((h.refs f).symm.trans hf)
  · rw [h.inodes.refs ip, h.baseRefs_eq ip]
    rfl

/-- A root directory with files of the given names, numbered from 2. -/
def rootWith (names : List (List UInt8)) : Nat → Inode := fun inum =>
  if inum = ROOTINO then
    ⟨.dir, 0, 0, 1, (⟨1, strncpy dot DIRSIZ⟩ :: ⟨1, strncpy dotdot DIRSIZ⟩ ::
      names.zipIdx.map fun x => ⟨.ofNat (x.2 + 2), strncpy x.1 DIRSIZ⟩), []⟩
  else if inum < names.length + 2 then ⟨.file, 0, 0, 1, [], []⟩
  else .fresh .free

/-- Blocks are found, and the buffers are empty at first. -/
def plenty : Env := ⟨fun _ => true, fun _ => List.replicate DIRSIZ 0⟩

/-- A pipe is made, a child has it too, and the parent closes one end of it. -/
def pipeRun : List Act :=
  [.call ⟨0, by decide⟩ (.pipe true true), .call ⟨0, by decide⟩ (.fork true),
    .call ⟨0, by decide⟩ (.close 0), .call ⟨1, by decide⟩ (.chdir [slash] plenty)]

theorem references_exact_pipeRun :
    ∃ w, Lib.run step (boot (rootWith []) 200) pipeRun = some w ∧
      ∀ f, (w.ftable f).ref =
        (Finset.univ.filter fun x : Pid × Fin NOFILE => (w.proc x.1).ofile x.2 = some f).card := by
  have hsome : (Lib.run step (boot (rootWith []) 200) pipeRun).isSome = true := by decide +kernel
  obtain ⟨w, hw⟩ := Option.isSome_iff_exists.mp hsome
  exact ⟨w, hw, (references_exact hw).1⟩

/-! ### The inode table -/

/-- A call for which the table has room does not stop the kernel for want of an entry. -/
theorem call_finds_entries {inode : Nat → Inode} {ninodes : Nat} {as : List Act} {w : World}
    (hrun : Lib.run step (boot inode ninodes) as = some w) {p : Pid} {c : Call}
    (hlive : (w.proc p).state = .live) (hspare : Spare w c) :
    panicOf (c.body p w) ≠ some .noInodes := by
  have hwp := wp_body (E := fun e => e ≠ .noInodes) (steady_run hrun) hlive (fun _ he => he) c
    (.inl hspare)
  unfold wp at hwp
  cases hbody : c.body p w with
  | ok r => simp [panicOf]
  | error e =>
    rw [hbody] at hwp
    simpa [panicOf] using hwp

/-- The name of the `i`-th file. -/
def fileName (i : Nat) : List UInt8 := [128 + UInt8.ofNat i]

/-- Process `p` opens `n` files from the `lo`-th on. -/
def opens (p : Pid) (lo n : Nat) : List Act :=
  (List.range n).map fun i => .call p (.open (slash :: fileName (lo + i)) 0 plenty)

/-- Four processes open 49 files; with the root directory the table is full. -/
def fullRun : List Act :=
  [.call ⟨0, by decide⟩ (.fork true), .call ⟨0, by decide⟩ (.fork true),
    .call ⟨0, by decide⟩ (.fork true)] ++
  opens ⟨0, by decide⟩ 0 16 ++ opens ⟨1, by decide⟩ 16 16 ++ opens ⟨2, by decide⟩ 32 16 ++
  opens ⟨3, by decide⟩ 48 1

/-- One more `open` stops the kernel, though there are files and descriptors left. -/
theorem open_no_inodes :
    ((Lib.run step (boot (rootWith ((List.range 50).map fileName)) 200) fullRun).map fun w =>
      panicOf ((Call.open (slash :: fileName 49) 0 plenty).body ⟨3, by decide⟩ w)) =
        some (some .noInodes) := by
  decide +kernel

theorem call_finds_entries_first :
    ∃ w, Lib.run step (boot (rootWith [fileName 0]) 200) (opens ⟨0, by decide⟩ 0 1) = some w ∧
      panicOf ((Call.open (slash :: fileName 0) 0 plenty).body ⟨0, by decide⟩ w) ≠
        some .noInodes := by
  have hrun : ((Lib.run step (boot (rootWith [fileName 0]) 200) (opens ⟨0, by decide⟩ 0 1)).map
      fun w => decide ((w.proc ⟨0, by decide⟩).state = .live ∧
        Spare w (.open (slash :: fileName 0) 0 plenty))) = some true := by decide +kernel
  obtain ⟨w, hw, hboth⟩ := Option.map_eq_some_iff.mp hrun
  obtain ⟨hlive, hspare⟩ := of_decide_eq_true hboth
  exact ⟨w, hw, call_finds_entries hw hlive hspare⟩

end Xv6.Names
