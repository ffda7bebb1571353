import Xv6.Vm.Calls

/-!
# Boot

`kinit` turns all pages into the free list; from there on every page is accounted for.
With enough of them left for the first process, `main` comes through.
-/
namespace Xv6.Vm

open Lib.Bytes Lib.Sep Lib.Sep.Assn

set_option autoImplicit false

variable {L : Layout} {t : Tables}

/-! ## The pages at the start -/

/-- Whoever owns the whole memory owns each of its pages. -/
theorem own_all (s : Kmem) (ps : Finset Nat) (h : ∀ p ∈ ps, L.IsPage p) :
    (∏ p ∈ ps, own L p : Assn Nat Mem) fun x => if x ∈ ps then view L s x else none := by
  induction ps using Finset.induction_on with
  | empty => exact funext fun x => if_neg (Finset.notMem_empty x)
  | insert p ps hp ih =>
    have hpage := h p (Finset.mem_insert_self p ps)
    rw [Finset.prod_insert hp]
    refine ⟨Heap.single p (pageAt s.mem p), _, fun x => ?_, ?_, ?_,
      ih fun q hq => h q (Finset.mem_insert_of_mem hq)⟩
    · by_cases hx : x = p
      · exact Or.inr (if_neg (hx ▸ hp))
      · exact Or.inl (Heap.single_ne _ hx)
    · funext x
      show _ = (Heap.single p (pageAt s.mem p) x).or (if x ∈ ps then view L s x else none)
      by_cases hx : x = p
      · rw [hx, if_pos (Finset.mem_insert_self p ps), Heap.single_self, Option.some_or,
          view_of_isPage hpage]
      · rw [Heap.single_ne _ hx, Option.none_or]
        simp only [Finset.mem_insert, hx, false_or]
    · exact ⟨_, fact_mul.mpr ⟨hpage, rfl⟩⟩

theorem own_pages (s : Kmem) :
    (∏ i ∈ Finset.range L.npages, own L (PGROUNDUP L.kend + i * PGSIZE) : Assn Nat Mem)
      (view L s) := by
  have hall := own_all (L := L) s L.pages fun p hp => isPage_iff_mem.mpr hp
  have hview : (fun x => if x ∈ L.pages then view L s x else none) = view L s := by
    funext x
    split
    case isTrue => rfl
    case isFalse hx => exact (if_neg fun hp => hx (isPage_iff_mem.mp hp)).symm
  have hinj : Set.InjOn (fun i => PGROUNDUP L.kend + i * PGSIZE) (Finset.range L.npages) := by
    intro a _ b _ hab
    exact Nat.eq_of_mul_eq_mul_right (by decide) (Nat.add_left_cancel hab)
  rw [hview, Layout.pages, Finset.prod_image hinj] at hall
  exact hall

/-! ## The pages that the kernel keeps -/

theorem does_takePages (n k : Nat) :
    Does L (n + k) k t (owns L t.fixed) (takePages n) fun _ u =>
      fact (∃ ps, u = { t with fixed := ps }) * owns L u.fixed := by
  induction n generalizing t with
  | zero =>
    rw [Nat.zero_add]
    exact Does.ret (le_fact_mul ⟨t.fixed, rfl⟩ le_rfl)
  | succ n ih =>
    refine Does.vm_call (spec_kalloc (n + 1 + k)) (one_mul _).symm fun pa => ?_
    split
    case isTrue hpa =>
      rw [hpa, given_zero]
      apply Does.of_fact
      intro hz
      exact absurd hz (by omega)
    case isFalse hpa =>
      rw [given_of_ne hpa, show n + 1 + k - 1 = n + k by omega]
      apply does_tables
      apply does_setTables
      have hcons : own L pa * owns L t.fixed = owns L (pa :: t.fixed) := List.prod_cons.symm
      rw [hcons]
      refine (ih (t := { t with fixed := pa :: t.fixed })).post fun _ u => ?_
      apply fact_mul_le
      rintro ⟨ps, hu⟩
      exact le_fact_mul ⟨ps, hu⟩ le_rfl

/-! ## The first process -/

theorem spec_uvmfirst (hN : L.npages < tfPage) (n : Nat) {tf p : Nat} {src : List UInt8}
    (h : src.length < PGSIZE) :
    Uses L (n + 3) n (space L tf p 0) (uvmfirst p src) fun _ =>
      space L tf p (pagesOf PGSIZE) := by
  rw [uvmfirst, if_neg (Nat.not_le.mpr h), show pagesOf PGSIZE = 1 by decide]
  refine (spec_kalloc (n + 3)).call (one_mul _).symm fun q => ?_
  split
  case isTrue hq =>
    rw [hq, given_zero]
    apply Triple.of_fact
    intro hz
    exact absurd hz (by omega)
  case isFalse hq =>
    rw [given_of_ne hq, show n + 3 - 1 = n + 2 by omega]
    refine (spec_memset q 0).call rfl fun _ => ?_
    apply Triple.pre ?_ (mul_le_mul' (page_le_own q _) le_rfl)
    have hmap : Uses L (n + 2) n (own L q * space L tf p 0)
        (mappages p (0 * PGSIZE) PGSIZE q (PTE_W ||| PTE_R ||| PTE_X ||| PTE_U)) _ :=
      spec_mappages_top hN (n + 2) (by decide) (by decide) trivial
    rw [Nat.zero_mul] at hmap
    refine hmap.bind fun r => ?_
    apply Triple.of_either
    · apply Triple.of_fact
      intro _
      exact spec_put 0 (by omega)
    · apply Triple.of_fact
      intro hr
      exact absurd hr.2 (by omega)

/-- The tables before the first process. -/
structure Fresh (t : Tables) : Prop where
  proc : ∀ i, t.proc i = ⟨.UNUSED, 0, none, 0, 0, 0, 0, fun _ => none, none, []⟩
  file : ∀ f, t.file f = ⟨.FD_NONE, 0, false, false, 0⟩

theorem Fresh.procOk (h : Fresh t) (i : Fin NPROC) : ProcOk (t.proc i) := by
  rw [h.proc i]
  exact ⟨fun hn => (by cases hn), fun _ => ⟨rfl, rfl, rfl⟩, fun hn => absurd rfl hn, fun _ _ => rfl⟩

theorem Fresh.unused (h : Fresh t) (i : Fin NPROC) : (t.proc i).state = .UNUSED := by
  rw [h.proc i]

theorem Fresh.refs (h : Fresh t) (f : Fin NFILE) : refs t.proc f = 0 := by
  unfold Vm.refs
  simp only [h.proc]
  exact Finset.sum_eq_zero fun i _ => Finset.sum_eq_zero fun fd _ => rfl

theorem Fresh.ends (h : Fresh t) : ends t.file = ∅ := by
  unfold Vm.ends
  simp only [h.file]
  rfl

/-- Before the first process only the kernel owns pages. -/
theorem Fresh.le_inv (h : Fresh t) : owns L t.fixed ≤ inv L t := by
  have hfiles : filesAt L t (Vm.refs t.proc) t = 1 := by
    have href : ∀ f, (t.file f).ref = Vm.refs t.proc f := by
      intro f
      rw [h.refs, h.file]
    have hok : FilesOk t.file := by
      constructor
      · intro f _
        rw [h.file]
      · intro f g hf
        rw [h.file] at hf
        exact nomatch hf
    rw [filesAt_self, fact_true href, filesRes, fact_true hok, h.ends, one_mul, one_mul]
    rfl
  have hprocs : others L ∅ t.proc = 1 :=
    Finset.prod_eq_one fun i _ => procRes_unused (h.unused i) (h.procOk i)
  rw [inv, world, hfiles, hprocs, one_mul, one_mul]

theorem does_userinit (hN : L.npages < tfPage) (h : Fresh t) (n : Nat) :
    Does L (n + 9) n t (owns L t.fixed) (userinit L) fun _ u => inv L u := by
  unfold userinit allocproc
  rw [bind_assoc]
  apply does_tables
  split
  case h_1 hnone =>
    have hz := List.find?_eq_none.mp hnone ⟨0, by decide⟩ (List.mem_finRange _)
    exact absurd (h.unused _) (by simpa using hz)
  case h_2 i hfind =>
    have hi := h.unused i
    apply Does.pre ?_ h.le_inv
    refine Does.call (does_initProc (n + 9) hi (h.procOk i)) (one_mul _).symm fun r u => ?_
    cases r with
    | none =>
      apply Does.of_fact
      rintro ⟨hn, -⟩
      exact absurd hn (by omega)
    | some j =>
      unfold started
      rw [any_mul]
      apply Does.of_any
      intro p
      rw [mul_assoc]
      apply Does.of_fact
      rintro ⟨rfl, rfl, hp, hpok, hsz⟩
      have hclosed := hpok.closed (by rw [hp]; decide)
      apply Does.pre ?_ (mul_le_mul' le_rfl (inv_le_context hi (h.procOk j) hclosed))
      rw [show n + 9 - 6 = n + 3 by omega, live, hsz, show pagesOf 0 = 0 from rfl]
      apply does_myproc
      rw [allotted_proc]
      have hfirst : Uses L (n + 3) n (space L p.trapframe p.pagetable 0)
          (uvmfirst p.pagetable initcode) _ := spec_uvmfirst hN n (by decide)
      refine Does.vm_call hfirst (F := own L p.trapframe * context L (allotted t j p) j)
        (by ac_rfl) fun _ => ?_
      rw [mul_left_comm]
      refine Does.vm_call (spec_store_own TF_EPC 8 0 (by decide)) rfl fun _ => ?_
      refine Does.vm_call (spec_store_own TF_SP 8 PGSIZE (by decide)) rfl fun _ => ?_
      apply does_tables
      apply does_setTables
      apply does_idup
      apply does_setProc_last
      generalize hu : Tables.setInode _ ROOTSLOT _ = u
      have hproc : u.proc = (allotted t j p).proc := by
        rw [← hu]
        rfl
      have hcontext : context L u j = context L (allotted t j p) j :=
        context_congr hproc (by rw [← hu]; rfl) (by rw [← hu]; rfl)
      rw [← mul_assoc, ← hcontext]
      show live L { p with sz := PGSIZE, name := initname, cwd := some ROOTSLOT, state := .RUNNABLE } * _ ≤ _
      refine live_le_inv (fun hn => by cases hn) ⟨fun _ => Option.some_ne_none _,
        fun hn => (by cases hn), fun _ => hpok.live (by rw [hp]; decide), fun hn => absurd rfl hn⟩ ?_
      rw [hproc, allotted_proc]

/-- The reset state owns all its pages. -/
theorem fresh_reset (mem : Mem) : Fresh (reset mem).tab := ⟨fun _ => rfl, fun _ => rfl⟩

theorem boot_triple (hN : L.npages < tfPage) {taken : Nat} (h : taken + 9 ≤ L.npages)
    (hfresh : Fresh t) (hfixed : t.fixed = []) :
    Triple (view L) (stock L 0) (free L 0)
      (∏ i ∈ Finset.range L.npages, own L (PGROUNDUP L.kend + i * PGSIZE))
      ((do vm (kinit L); takePages taken; userinit L : S Unit) t) fun x => inv L x.2 := by
  have hrange := stock_freerange (L := L) 0 L.npages (PGROUNDUP L.kend)
  rw [Nat.zero_add] at hrange
  obtain ⟨k, hk⟩ := Nat.exists_eq_add_of_le h
  rw [vm_bind]
  refine (hrange.weaken (stock_le_free _)).bind fun _ => ?_
  rw [show L.npages = taken + (k + 9) by omega]
  have hnone : (1 : Assn Nat Mem) = owns L t.fixed := by
    rw [hfixed]
    rfl
  rw [hnone]
  have hrest : Does L (taken + (k + 9)) k t (owns L t.fixed)
      (do takePages taken; userinit L) fun _ u => inv L u := by
    refine Does.bind (does_takePages taken (k + 9)) fun _ u => ?_
    apply Does.of_fact
    rintro ⟨ps, rfl⟩
    have hps : Fresh { t with fixed := ps } := ⟨hfresh.proc, hfresh.file⟩
    exact does_userinit hN hps k
  exact Triple.weaken hrest (free_mono (Nat.zero_le k))

/-- `main` comes through when nine pages are left for the first process. -/
theorem boot_good (hN : L.npages < tfPage) (mem : Mem) {taken : Nat} (h : taken + 9 ≤ L.npages) :
    ∃ s, boot L mem taken = .ok s ∧ Good L s := by
  have hstart : ((∏ i ∈ Finset.range L.npages, own L (PGROUNDUP L.kend + i * PGSIZE)) *
      (stock L 0 (reset mem).kmem * 1) : Assn Nat Mem) (view L (reset mem).kmem) := by
    have hstock : 1 ≤ stock L 0 (reset mem).kmem * 1 := by
      rw [mul_one]
      exact le_any [] (le_fact_mul ⟨rfl, rfl⟩ (le_of_eq (fact_true rfl).symm))
    apply Assn.mul_right hstock
    rw [mul_one]
    exact own_pages _
  obtain ⟨c, k, hc, hk⟩ := boot_triple hN h (fresh_reset mem) rfl 1 _ hstart
  rw [mul_one] at hk
  refine ⟨⟨c.2, k⟩, ?_, hk⟩
  unfold boot Sys.exec
  rw [hc]

end Xv6.Vm
