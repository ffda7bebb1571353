import Xv6.Vm.Ownership

/-!
# What `growproc`, `fork` and `exec` come to

The calls that build address spaces, seen in the memory itself: what a process has when
the call succeeds, and that a failure leaves everything where it was. The triples of the
calls speak of what is owned; here they are run with the heap itself as the thing owned, so
that a page whose owner did not touch it keeps its bytes.
-/
namespace Xv6.Vm

open Lib.Bytes Lib.Sep Lib.Sep.Assn Function

set_option autoImplicit false

variable {L : Layout}

/-! ## Pages before and after -/

/-- The page `p` is on the free list. -/
def IsFree (s : Kmem) (p : Nat) : Prop := ∃ k, freeAt s.mem s.freelist k = some p

/-- The same pages are free, and those that are not have the same bytes. -/
structure SamePages (L : Layout) (s s' : Kmem) : Prop where
  free : ∀ p, IsFree s' p ↔ IsFree s p
  used : ∀ p, L.IsPage p → ¬IsFree s p → pageAt s'.mem p = pageAt s.mem p

theorem isFree_iff {s : Kmem} {k : Heap Nat Mem} (hp : k.Part (view L s)) (hk : free L 0 s k) {p : Nat} :
    IsFree s p ↔ k p ≠ none := by
  obtain ⟨ps, hk⟩ := hk
  obtain ⟨h1, h2⟩ := names_chain (s := s) s.freelist ps k hp (fact_mul.mp hk).2
  constructor
  · rintro ⟨j, hj⟩
    exact h1 j trivial p hj
  · intro hne
    obtain ⟨j, hj, -⟩ := h2 p hne
    exact ⟨j, hj.2⟩

theorem part_of_exactly {s : Kmem} {g : Heap Nat Mem} {R : Assn Nat Mem} (h : (exactly g * R) (view L s)) :
    g.Part (view L s) := by
  obtain ⟨_, f, -, hv, rfl, -⟩ := h
  rw [hv]
  exact Heap.Part.left fun _ _ h => h

theorem samePages_of_exactly {s s' : Kmem} {g : Heap Nat Mem}
    (h : (exactly g * free L 0 s) (view L s)) (h' : (exactly g * free L 0 s') (view L s')) :
    SamePages L s s' := by
  obtain ⟨_, k, hd, hv, rfl, hk⟩ := h
  obtain ⟨g, k', hd', hv', rfl, hk'⟩ := h'
  have hpart : k.Part (view L s) := by
    rw [hv]
    exact Heap.Part.right hd fun _ _ h => h
  have hpart' : k'.Part (view L s') := by
    rw [hv']
    exact Heap.Part.right hd' fun _ _ h => h
  -- a page of memory is free where nobody owns it
  have hfree : ∀ {t : Kmem} {l : Heap Nat Mem} {p : Nat}, g.Apart l → view L t = g ∪ l → L.IsPage p →
      (l p ≠ none ↔ g p = none) := by
    intro t l p hd hv hp
    constructor
    · exact (hd p).resolve_right
    · intro hg hl
      apply (view_ne_none (s := t)).mpr hp
      rw [hv]
      exact Heap.union_eq_none.mpr ⟨hg, hl⟩
  constructor
  · intro p
    rw [isFree_iff hpart hk, isFree_iff hpart' hk']
    constructor
    · intro hne
      have hp := isPage_of_part hpart' hne
      exact (hfree hd hv hp).mpr ((hfree hd' hv' hp).mp hne)
    · intro hne
      have hp := isPage_of_part hpart hne
      exact (hfree hd' hv' hp).mpr ((hfree hd hv hp).mp hne)
  · intro p hp hn
    rw [isFree_iff hpart hk, hfree hd hv hp] at hn
    obtain ⟨c, hc⟩ := Option.ne_none_iff_exists'.mp hn
    have h1 : view L s p = some c := by
      rw [hv]
      exact Heap.union_of_some_left hc
    have h2 : view L s' p = some c := by
      rw [hv']
      exact Heap.union_of_some_left hc
    rw [view_of_isPage hp] at h1 h2
    exact (Option.some.inj h2).trans (Option.some.inj h1).symm

/-- The entry of process `i`'s page table for the page number `v`. -/
def Sys.pte (s : Sys) (i : Fin NPROC) (v : Nat) : Nat := lookup s.kmem.mem 2 (s.tab.proc i).pagetable v

/-- The bytes of the page that process `i` has at the page number `v`. -/
def Sys.bytes (s : Sys) (i : Fin NPROC) (v : Nat) : Mem := pageAt s.kmem.mem (PTE2PA (s.pte i v))

theorem lt_pagesOf {v sz : Nat} : v < pagesOf sz ↔ v * PGSIZE < sz := by
  unfold pagesOf pagesBetween PGSIZE
  omega

/-- An owned address space as it is in memory. -/
theorem spaceWith_bytes {s : Kmem} {p n : Nat} {m : Nat → Nat} {c : Nat → Mem} {R : Assn Nat Mem}
    (h : (spaceWith L p m c n * R) (view L s)) :
    (∀ v < 2 ^ 27, lookup s.mem 2 p v = m v) ∧ ∀ v < n, pageAt s.mem (PTE2PA (m v)) = c v := by
  unfold spaceWith at h
  constructor
  · intro v hv
    rw [mul_assoc] at h
    obtain ⟨a, b, hd, hab, ha, -⟩ := h
    refine tree_lookup_lt (g := a) ?_ ha hv
    rw [hab]
    exact Heap.Part.left fun _ _ h => h
  · intro v hv
    have hmem : v ∈ Finset.Ico 0 n := Finset.mem_Ico.mpr ⟨Nat.zero_le v, hv⟩
    rw [data, ← Finset.mul_prod_erase _ _ hmem, mul_left_comm, mul_assoc] at h
    exact (content_eq h).symm

/-! ## `growproc` -/

/-- `growproc(n)` has given the process `i` its new size. -/
structure Grew (s u : Sys) (i : Fin NPROC) (n : Int32) : Prop where
  size : ((u.tab.proc i).sz : Int) = (s.tab.proc i).sz + n.toInt
  others : u.tab = s.tab.setProc i { s.tab.proc i with sz := (u.tab.proc i).sz }
  mapped : AddressSpace u.kmem.mem (u.tab.proc i)
  kept : ∀ v, v * PGSIZE < (s.tab.proc i).sz → v * PGSIZE < (u.tab.proc i).sz →
    u.pte i v = s.pte i v ∧ u.bytes i v = s.bytes i v
  zero : ∀ v, PGROUNDUP (s.tab.proc i).sz ≤ v * PGSIZE → v * PGSIZE < (u.tab.proc i).sz →
    u.bytes i v = filled 0

/-- `growproc` has changed nothing, except that pages may have gone to the page table of `i`. -/
structure Ungrown (s u : Sys) (i : Fin NPROC) : Prop where
  tables : u.tab = s.tab
  mapped : ∀ v < 2 ^ 27, u.pte i v = s.pte i v
  bytes : ∀ v, v * PGSIZE < (s.tab.proc i).sz → u.bytes i v = s.bytes i v
  free : ∀ p, IsFree s.kmem p → IsFree u.kmem p ∨
    ∃ path, tableAt u.kmem.mem 2 (u.tab.proc i).pagetable path = some p

/-- `growproc(n)` returns, and does what its value says. -/
def GrowsExactly (L : Layout) (s : Sys) (i : Fin NPROC) (n : Int32) : Prop :=
  ∃ r t k, growproc L i n.toInt s.tab s.kmem = .ok ((r, t), k) ∧
    (r = 0 ∧ Grew s ⟨t, k⟩ i n ∨ r = -1 ∧ Ungrown s ⟨t, k⟩ i)

section Growproc

variable {s : Sys} {i : Fin NPROC} {n : Int32}

/-- A process and the rest of the system, taken apart. -/
theorem good_parts (hg : Good L s) (hi : (s.tab.proc i).state ≠ .UNUSED) : ∃ ci m c,
    ProcOk (s.tab.proc i) ∧
    Shape L (fun _ => True) (s.tab.proc i).trapframe m (pagesOf (s.tab.proc i).sz) ∧
    (spaceWith L (s.tab.proc i).pagetable m c (pagesOf (s.tab.proc i).sz) *
      (free L 0 s.kmem * (page L (s.tab.proc i).trapframe ci * context L s.tab i))) (view L s.kmem) := by
  have h := Assn.mul_left (inv_le_live hi) hg
  rw [mul_assoc] at h
  obtain ⟨hok, h⟩ := fact_mul.mp h
  have h := Assn.mul_left (mul_le_mul' (live_le_with _) le_rfl) h
  rw [any_mul, any_mul] at h
  obtain ⟨ci, h⟩ := h
  rw [any_mul, any_mul] at h
  obtain ⟨m, h⟩ := h
  rw [any_mul, any_mul] at h
  obtain ⟨c, h⟩ := h
  rw [mul_assoc, mul_assoc] at h
  obtain ⟨hs, h⟩ := fact_mul.mp h
  refine ⟨ci, m, c, hok, hs, ?_⟩
  have hperm : ∀ A B C D : Assn Nat Mem, A * B * (C * D) = B * (D * (A * C)) := by
    intro A B C D
    ac_rfl
  rw [← hperm]
  exact h

/-- After a failure, a page that was free is free or in the page table. -/
theorem free_or_table {k k' : Kmem} {p n : Nat} {m : Nat → Nat} {c : Nat → Mem} {g : Heap Nat Mem}
    (h : (spaceWith L p m c n * (free L 0 k * exactly g)) (view L k))
    (h' : (spaceWith L p m c n * (free L 0 k' * exactly g)) (view L k')) {q : Nat} (hq : IsFree k q) :
    IsFree k' q ∨ ∃ path, tableAt k'.mem 2 p path = some q := by
  have hself : ∀ x : Heap Nat Mem, x.Part x := fun x _ _ h => h
  unfold spaceWith at h h'
  rw [mul_assoc] at h h'
  obtain ⟨t, x, htx, hv, -, d, y, hdy, rfl, hd, f, z, hfz, rfl, hf, rfl⟩ := h
  obtain ⟨t', x', htx', hv', ht', d', y', hdy', rfl, hd', f', z', hfz', rfl, hf', hz'⟩ := h'
  obtain rfl := exact_data m c 0 n _ _ hd hd'
  have hpart : f.Part (view L k) := by
    rw [hv]
    exact ((hself _).right htx).right hdy |>.left
  have hfq := (isFree_iff hpart hf).mp hq
  -- the owners besides the free list do not have it
  have hdq : d q = none :=
    (hdy q).resolve_right fun hn => hfq (Heap.union_eq_none.mp hn).1
  have hgq : z' q = none := by
    rw [hz']
    exact (hfz q).resolve_left hfq
  have hview := (view_ne_none (s := k')).mpr (isPage_of_part hpart hfq)
  rw [hv'] at hview
  by_cases htq : t' q = none
  · left
    rw [isFree_iff (k := f') ?_ hf']
    · intro hn
      exact hview (Heap.union_eq_none.mpr ⟨htq, Heap.union_eq_none.mpr
        ⟨hdq, Heap.union_eq_none.mpr ⟨hn, hgq⟩⟩⟩)
    · rw [hv']
      exact ((hself _).right htx').right hdy' |>.left
  · right
    have hpt : t'.Part (view L k') := by
      rw [hv']
      exact (hself _).left
    obtain ⟨path, hpath, -⟩ := (names_tree 2 p m t' hpt ht').2 q htq
    exact ⟨path, hpath.2⟩

/-- `growproc` from a state with the books right. -/
theorem growproc_outcome (hN : L.npages < tfPage) (hg : Good L s) (hi : (s.tab.proc i).state = .RUNNABLE)
    (n : Int32) : ∃ r t k, growproc L i n.toInt s.tab s.kmem = .ok ((r, t), k) ∧
      (r = 0 ∧ (t.proc i).sz = newSize (s.tab.proc i).sz n ∧
          (0 ≤ (s.tab.proc i).sz + n.toInt → Grew s ⟨t, k⟩ i n) ∨
        r = -1 ∧ 0 < n.toInt ∧ Ungrown s ⟨t, k⟩ i) := by
  obtain ⟨ci, m, c, hok, hs, h⟩ := good_parts hg (ne_unused hi)
  obtain ⟨a, x, hax, hv, ha, f, g, hfg, rfl, hf, hrest⟩ := h
  have h : (spaceWith L (s.tab.proc i).pagetable m c (pagesOf (s.tab.proc i).sz) *
      (free L 0 s.kmem * exactly g)) (view L s.kmem) := by
    rw [hv]
    exact mul_intro hax ha (mul_intro hfg hf rfl)
  obtain ⟨hmap, hbytes⟩ := spaceWith_bytes h
  obtain ⟨⟨r, t⟩, k, hrun, hk⟩ := does_growproc_with hN n hs (exactly g) s.kmem h
  refine ⟨r, t, k, hrun, ?_⟩
  -- the books are right again
  have hgood : Good L ⟨t, k⟩ := by
    obtain ⟨x, k', hrun', hk'⟩ := does_growproc hN hi n 1 s.kmem (by rw [mul_one]; exact hg)
    rw [hrun] at hrun'
    cases hrun'
    rw [mul_one] at hk'
    exact hk'
  simp only [resized, either_mul] at hk
  rcases hk with hk | hk
  · left
    rw [any_mul] at hk
    obtain ⟨m', hk⟩ := hk
    rw [any_mul] at hk
    obtain ⟨c', hk⟩ := hk
    rw [mul_assoc] at hk
    obtain ⟨⟨⟨hr, ht⟩, hs', hre⟩, hk⟩ := fact_mul.mp hk
    have hti : t.proc i = { s.tab.proc i with sz := newSize (s.tab.proc i).sz n } := by
      rw [ht, setProc_proc]
    obtain ⟨hmap', hbytes'⟩ := spaceWith_bytes hk
    have hb := hs.bound
    have hb' := hs'.bound
    rw [tfPage_eq] at hb hb'
    have hpte : ∀ v < 2 ^ 27, Sys.pte ⟨t, k⟩ i v = m' v := by
      intro v hv
      rw [← hmap' v hv]
      unfold Sys.pte
      rw [hti]
    refine ⟨hr, by rw [hti], fun hle => ⟨?_, ?_, ?_, ?_, ?_⟩⟩
    · show ((t.proc i).sz : Int) = _
      rw [hti]
      show ((newSize (s.tab.proc i).sz n : Nat) : Int) = _
      unfold newSize
      rw [if_pos hle]
      omega
    · show t = _
      rw [hti]
      exact ht
    · exact addressSpace_of_good hgood (by rw [hti]; exact ne_unused hi)
    · intro v h1 h2
      rw [hti] at h2
      have h1 := lt_pagesOf.mpr h1
      have h2 := lt_pagesOf.mpr h2
      obtain ⟨hm, hc⟩ := hre.kept v h1 h2
      have heq : Sys.pte ⟨t, k⟩ i v = s.pte i v := by
        rw [hpte v (by omega), hm]
        exact (hmap v (by omega)).symm
      refine ⟨heq, ?_⟩
      unfold Sys.bytes
      rw [heq, show s.pte i v = m v from hmap v (by omega), hbytes v h1, ← hc, ← hbytes' v h2, hm]
    · intro v h1 h2
      rw [hti] at h2
      have h2 : v < pagesOf (newSize (s.tab.proc i).sz n) := lt_pagesOf.mpr h2
      have hsz := lt_of_pagesOf_le hs.bound
      rw [PGROUNDUP_eq (by omega)] at h1
      have h1 : pagesOf (s.tab.proc i).sz ≤ v := Nat.le_of_mul_le_mul_right h1 (by decide)
      unfold Sys.bytes
      rw [hpte v (by omega)]
      exact (hbytes' v h2).trans (hre.zero v h1 h2)
  · right
    rw [mul_assoc] at hk
    obtain ⟨⟨hr, hpos, rfl⟩, hspace⟩ := fact_mul.mp hk
    obtain ⟨hmap', hbytes'⟩ := spaceWith_bytes hspace
    have hb := hs.bound
    rw [tfPage_eq] at hb
    have hpte : ∀ v < 2 ^ 27, Sys.pte ⟨s.tab, k⟩ i v = s.pte i v :=
      fun v hv => (hmap' v hv).trans (hmap v hv).symm
    refine ⟨hr, hpos, rfl, hpte, fun v hv => ?_, fun p hp => free_or_table h hspace hp⟩
    have hv := lt_pagesOf.mpr hv
    unfold Sys.bytes
    rw [hpte v (by omega), show s.pte i v = m v from hmap v (by omega), hbytes v hv]
    exact hbytes' v hv

/-- What `growproc` does is what its value says, except below address zero. -/
theorem growsExactly_iff (hN : L.npages < tfPage) (hg : Good L s) (hi : (s.tab.proc i).state = .RUNNABLE)
    (n : Int32) : GrowsExactly L s i n ↔ 0 ≤ (s.tab.proc i).sz + n.toInt := by
  obtain ⟨r, t, k, hrun, hout⟩ := growproc_outcome hN hg hi n
  constructor
  · rintro ⟨r', t', k', hrun', hout'⟩
    rw [hrun] at hrun'
    cases hrun'
    by_contra hneg
    rcases hout with ⟨rfl, hsz, -⟩ | ⟨-, hpos, -⟩
    · rcases hout' with ⟨-, hgrew⟩ | ⟨hr, -⟩
      · have hsize : ((t.proc i).sz : Int) = _ := hgrew.size
        omega
      · omega
    · omega
  · intro hle
    refine ⟨r, t, k, hrun, ?_⟩
    rcases hout with ⟨hr, -, hgrew⟩ | ⟨hr, -, hun⟩
    · exact Or.inl ⟨hr, hgrew hle⟩
    · exact Or.inr ⟨hr, hun⟩

end Growproc

/-- After every run of system calls from boot on, with `kalloc` failing wherever it will:
`growproc` of a running process does what its value says, unless the new size would be negative. -/
theorem growproc_exact (L : Layout) (hN : L.npages < TRAPFRAME / PGSIZE) (mem : Mem) (taken : Nat)
    (h : taken + 9 ≤ L.npages) :
    ∃ s, boot L mem taken = .ok s ∧ ∀ ls, Ends (fun t =>
      ∀ i, (t.tab.proc i).state = .RUNNABLE → ∀ (n : Int32) (oom : List Bool),
        GrowsExactly L ⟨t.tab, { t.kmem with oom := oom }⟩ i n ↔
          0 ≤ ((t.tab.proc i).sz : Int) + n.toInt) (runCalls L s ls) :=
  boot_ends hN mem h fun _ ht _ hi n oom => growsExactly_iff hN (ht.starve oom) hi n

theorem growproc_exact_smallKernel :
    ∃ s, boot smallKernel (fun _ => 5) 100 = .ok s ∧ ∀ ls, Ends (fun t =>
      ∀ i, (t.tab.proc i).state = .RUNNABLE → ∀ (n : Int32) (oom : List Bool),
        GrowsExactly smallKernel ⟨t.tab, { t.kmem with oom := oom }⟩ i n ↔
          0 ≤ ((t.tab.proc i).sz : Int) + n.toInt) (runCalls smallKernel s ls) :=
  growproc_exact smallKernel (by decide) (fun _ => 5) 100 (by decide)

/-- A machine with sixteen pages. -/
def sixteenPages : Layout :=
  { smallKernel with
    phystop := KERNBASE + 17 * PGSIZE
    kend_le := by decide
    phystop_le := by decide }

/-- The first process has one page and asks for two less: `growproc` returns 0 and the size is what
it was. -/
theorem growproc_below_zero :
    ∃ s, boot sixteenPages (fun _ => 5) 0 = .ok s ∧
      (s.tab.proc s.tab.initproc).state = .RUNNABLE ∧ (s.tab.proc s.tab.initproc).sz = PGSIZE ∧
      ((growproc sixteenPages s.tab.initproc (-8192) s.tab s.kmem).toOption.map fun x =>
        (x.1.1, (x.1.2.proc s.tab.initproc).sz)) = some (0, PGSIZE) ∧
      ¬GrowsExactly sixteenPages s s.tab.initproc (-8192) := by
  obtain ⟨s, hs, hgood⟩ := boot_good (L := sixteenPages) (by decide) (fun _ => 5)
    (show 0 + 9 ≤ sixteenPages.npages by decide)
  have hrun : ((boot sixteenPages (fun _ => 5) 0).toOption.map fun s =>
      ((s.tab.proc s.tab.initproc).state, (s.tab.proc s.tab.initproc).sz,
        (growproc sixteenPages s.tab.initproc (-8192) s.tab s.kmem).toOption.map fun x =>
          (x.1.1, (x.1.2.proc s.tab.initproc).sz))) =
      some (.RUNNABLE, PGSIZE, some (0, PGSIZE)) := by decide +kernel
  rw [hs] at hrun
  obtain ⟨hstate, hrest⟩ := Prod.mk.inj (Option.some.inj hrun)
  obtain ⟨hsz, hgrow⟩ := Prod.mk.inj hrest
  refine ⟨s, hs, hstate, hsz, hgrow, ?_⟩
  rw [growsExactly_iff (by decide) hgood hstate, hsz]
  decide

/-! ## `fork` -/

section Fork

variable {s : Sys} {i : Fin NPROC}

/-- Whoever owns the same heap has the same page tables. -/
theorem pte_of_exactly {t u : Tables} {k k' : Kmem} {g : Heap Nat Mem} (hg : inv L t g)
    (h : g.Part (view L k)) (h' : g.Part (view L k')) {j : Fin NPROC} (hj : (t.proc j).state ≠ .UNUSED)
    (hu : u.proc j = t.proc j) {v : Nat} (hv : v < 2 ^ 27) : Sys.pte ⟨u, k'⟩ j v = Sys.pte ⟨t, k⟩ j v := by
  obtain ⟨m, a, -, ha, ht⟩ := tree_of_inv hg hj
  unfold Sys.pte
  rw [hu]
  have h1 := tree_lookup_lt (fun p c hp => h p c (ha p c hp)) ht hv
  have h2 := tree_lookup_lt (fun p c hp => h' p c (ha p c hp)) ht hv
  exact h2.trans h1.symm

end Fork

/-- `sys_exec` has changed nothing; of the file it may have found, the lock is free. -/
structure ExecUndone (L : Layout) (s u : Sys) (i : Fin NPROC) (dir : Directory) : Prop where
  tables : u.tab = s.tab ∨ ∃ path ip image, dir path = some (ip, image) ∧
    u.tab = s.tab.setInode ip { s.tab.inode ip with locked := false }
  mapped : ∀ v < 2 ^ 27, u.pte i v = s.pte i v
  pages : SamePages L s.kmem u.kmem

/-- `sys_exec` returns, and where it returns -1 it has changed nothing. -/
def ExecsOrNot (L : Layout) (s : Sys) (i : Fin NPROC) (upath uargv : Nat) (dir : Directory) : Prop :=
  ∃ r t k, sys_exec L i upath uargv dir s.tab s.kmem = .ok ((r, t), k) ∧
    (r = -1 → ExecUndone L s ⟨t, k⟩ i dir)

theorem released_eq (t : Tables) (dir : Directory) (path : List UInt8) :
    released t dir path = t ∨ ∃ ip image, dir path = some (ip, image) ∧
      released t dir path = t.setInode ip { t.inode ip with locked := false } := by
  unfold released
  cases hp : dir path with
  | none => exact Or.inl rfl
  | some x => exact Or.inr ⟨x.1, x.2, rfl, rfl⟩

theorem execsOrNot {s : Sys} {i : Fin NPROC} (hN : L.npages < tfPage) (hg : Good L s)
    (hi : (s.tab.proc i).state = .RUNNABLE) (upath uargv : Nat) (dir : Directory) :
    ExecsOrNot L s i upath uargv dir := by
  have h := Assn.mul_left (inv_le_live (ne_unused hi)) hg
  rw [mul_assoc] at h
  obtain ⟨hok, _, f, hf, hv, ⟨gi, gc, hd, rfl, hgi, hgc⟩, hfree⟩ := fact_mul.mp h
  have hinv : inv L s.tab (gi ∪ gc) := live_self_le_inv (ne_unused hi) hok _ (mul_intro hd hgi hgc)
  have h : (exactly gi * exactly gc * free L 0 s.kmem) (view L s.kmem) := by
    rw [hv]
    exact mul_intro hf (mul_intro hd rfl rfl) hfree
  obtain ⟨⟨r, t⟩, k, hrun, hk⟩ := does_sys_exec hN (exactly_le hgi) upath uargv dir (exactly gc) s.kmem
    (by rw [mul_comm (free L 0 _), ← mul_assoc]; exact h)
  refine ⟨r, t, k, hrun, ?_⟩
  rintro rfl
  -- whatever way it failed, the tables are as they were and so are the pages
  have hfailed : ∀ u, t = u → (u = s.tab ∨ ∃ path, u = released s.tab dir path) →
      (exactly gi * (free L 0 k * exactly gc)) (view L k) → ExecUndone L s ⟨t, k⟩ i dir := by
    rintro u rfl hu hk
    rw [mul_comm (free L 0 k), ← mul_assoc] at hk
    have h1 := Assn.mul_left (exactly_mul_le gi gc) h
    have h2 := Assn.mul_left (exactly_mul_le gi gc) hk
    have hproc : t.proc i = s.tab.proc i := by
      rcases hu with rfl | ⟨path, rfl⟩
      · rfl
      · rw [released_proc]
    refine ⟨?_, fun v hv => ?_, samePages_of_exactly h1 h2⟩
    · rcases hu with rfl | ⟨path, rfl⟩
      · exact Or.inl rfl
      · rcases released_eq s.tab dir path with he | ⟨ip, image, hp, he⟩
        · exact Or.inl he
        · exact Or.inr ⟨path, ip, image, hp, he⟩
    · exact pte_of_exactly hinv (part_of_exactly h1) (part_of_exactly h2) (ne_unused hi) hproc hv
  rw [either_mul] at hk
  rcases hk with hk | hk
  · rw [mul_assoc] at hk
    obtain ⟨⟨-, ht⟩, hk⟩ := fact_mul.mp hk
    exact hfailed _ ht (Or.inl rfl) hk
  · rw [any_mul] at hk
    obtain ⟨path, hk⟩ := hk
    rw [execed, either_mul] at hk
    rcases hk with hk | hk
    · rw [mul_assoc] at hk
      obtain ⟨⟨-, ht⟩, hk⟩ := fact_mul.mp hk
      exact hfailed _ ht (Or.inr ⟨path, rfl⟩) hk
    · rw [any_mul] at hk
      obtain ⟨x, hk⟩ := hk
      rw [mul_assoc] at hk
      exact absurd (show (0 : Int) ≤ -1 from (fact_mul.mp hk).1.1) (by decide)

/-- After every run of system calls from boot on, with `kalloc` failing wherever it will: whatever the
file that `sys_exec` finds and whatever its arguments, it returns, and where it returns -1 the process
and all pages are as they were, the operation it began has ended and the file is released. -/
theorem failed_exec_changes_nothing (L : Layout) (hN : L.npages < TRAPFRAME / PGSIZE) (mem : Mem)
    (taken : Nat) (h : taken + 9 ≤ L.npages) :
    ∃ s, boot L mem taken = .ok s ∧ ∀ ls, Ends (fun t =>
      ∀ i, (t.tab.proc i).state = .RUNNABLE → ∀ upath uargv dir (oom : List Bool),
        ExecsOrNot L ⟨t.tab, { t.kmem with oom := oom }⟩ i upath uargv dir) (runCalls L s ls) :=
  boot_ends hN mem h fun _ ht _ hi upath uargv dir oom => execsOrNot hN (ht.starve oom) hi upath uargv dir

theorem failed_exec_changes_nothing_smallKernel :
    ∃ s, boot smallKernel (fun _ => 5) 100 = .ok s ∧ ∀ ls, Ends (fun t =>
      ∀ i, (t.tab.proc i).state = .RUNNABLE → ∀ upath uargv dir (oom : List Bool),
        ExecsOrNot smallKernel ⟨t.tab, { t.kmem with oom := oom }⟩ i upath uargv dir)
      (runCalls smallKernel s ls) :=
  failed_exec_changes_nothing smallKernel (by decide) (fun _ => 5) 100 (by decide)

end Xv6.Vm
