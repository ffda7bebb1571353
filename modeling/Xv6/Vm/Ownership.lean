import Xv6.Vm.Boot
import Xv6.Lib.Places

/-!
# Where the pages are

The results about whole runs, from boot on, stated over the memory itself: what the
page table of a process maps, and in which place of the system a page is. The places
are read off the memory and the tables; that there is one for each page comes from the
invariant of the system calls.
-/
namespace Xv6.Vm

open Lib.Bytes Lib.Sep Lib.Sep.Assn

set_option autoImplicit false

/-! ## Reading the page tables -/

/-- The entry that the hardware finds for the page number `v`, in a table of level `l` at
`p`; 0 where a table is missing. -/
def lookup (m : Mem) : Nat → Nat → Nat → Nat
  | 0, p, v => getLE m (p + 8 * (v % 512)) 8
  | l + 1, p, v =>
    let e := getLE m (p + 8 * (v / 512 ^ (l + 1) % 512)) 8
    if e &&& PTE_V = 0 then 0
    else if e &&& (PTE_R ||| PTE_W ||| PTE_X) ≠ 0 then e
    else lookup m l (PTE2PA e) v

/-- The page that is reached through the entries with the given indices, from a table of
level `l` at `p`. -/
def tableAt (m : Mem) : Nat → Nat → List Nat → Option Nat
  | _, p, [] => some p
  | 0, _, _ :: _ => none
  | l + 1, p, x :: path =>
    let e := getLE m (p + 8 * x) 8
    if x < 512 ∧ e &&& PTE_V ≠ 0 then tableAt m l (PTE2PA e) path else none

/-- The page at position `k` of the list that starts at `r`. -/
def freeAt (m : Mem) : Nat → Nat → Option Nat
  | r, 0 => if r = 0 then none else some r
  | r, k + 1 => if r = 0 then none else freeAt m (getLE m r 8) k

/-- The page table of a process maps the pages below its size, the trapframe and the
trampoline, and nothing else. -/
structure AddressSpace (m : Mem) (p : Proc) : Prop where
  mapped : ∀ v < 2 ^ 27, lookup m 2 p.pagetable v &&& PTE_V ≠ 0 ↔
    v * PGSIZE < PGROUNDUP p.sz ∨ v * PGSIZE = TRAPFRAME ∨ v * PGSIZE = TRAMPOLINE
  leaf : ∀ v < 2 ^ 27, lookup m 2 p.pagetable v &&& PTE_V ≠ 0 →
    lookup m 2 p.pagetable v &&& (PTE_R ||| PTE_W ||| PTE_X) ≠ 0
  trapframe : lookup m 2 p.pagetable (TRAPFRAME / PGSIZE) &&& PTE_U = 0
  trampoline : lookup m 2 p.pagetable (TRAMPOLINE / PGSIZE) &&& PTE_U = 0

/-- Where a page can be. -/
inductive Place where
  /-- On the free list, at a position. -/
  | free (k : Nat)
  /-- In the page table of a process, as a table that the indices lead to. -/
  | table (i : Fin NPROC) (path : List Nat)
  /-- Mapped by a process at a page number. -/
  | user (i : Fin NPROC) (v : Nat)
  | trapframe (i : Fin NPROC)
  | pipe (q : Nat)
  /-- Among the pages that the kernel took at boot. -/
  | fixed (k : Nat)

/-- The page in a place. -/
def Sys.held (s : Sys) : Place → Option Nat
  | .free k => freeAt s.kmem.mem s.kmem.freelist k
  | .table i path =>
    if (s.tab.proc i).state = .UNUSED then none
    else tableAt s.kmem.mem 2 (s.tab.proc i).pagetable path
  | .user i v =>
    let e := lookup s.kmem.mem 2 (s.tab.proc i).pagetable v
    if (s.tab.proc i).state = .UNUSED ∨ 2 ^ 27 ≤ v ∨ v * PGSIZE = TRAPFRAME ∨
      v * PGSIZE = TRAMPOLINE ∨ e &&& PTE_V = 0 then none
    else some (PTE2PA e)
  | .trapframe i =>
    if (s.tab.proc i).state = .UNUSED then none else some (s.tab.proc i).trapframe
  | .pipe q =>
    if ∃ f, 0 < (s.tab.file f).ref ∧ (s.tab.file f).type = .FD_PIPE ∧ (s.tab.file f).pipe = q
    then some q else none
  | .fixed k => s.tab.fixed[k]?

variable {L : Layout}

/-! ## Page tables -/

section Tables

variable {s : Kmem}

theorem view_ne_none {p : Nat} : view L s p ≠ none ↔ L.IsPage p := by
  unfold view
  split
  next h => exact ⟨fun _ => h, fun _ => Option.some_ne_none _⟩
  next h => exact ⟨fun hn => absurd rfl hn, fun hp => absurd hp h⟩

theorem isPage_of_part {g : Heap Nat Mem} {p : Nat} (hg : g.Part (view L s)) (h : g p ≠ none) :
    L.IsPage p := by
  obtain ⟨c, hc⟩ := Option.ne_none_iff_exists'.mp h
  apply (view_ne_none (s := s)).mp
  rw [hg p c hc]
  exact Option.some_ne_none c

theorem part_page {g : Heap Nat Mem} {p : Nat} {c : Mem} {P : Assn Nat Mem}
    (hg : g.Part (view L s)) (hp : (page L p c * P) g) : L.IsPage p ∧ c = pageAt s.mem p := by
  obtain ⟨hpage, hc⟩ := page_mul_iff.mp hp
  have hv := hg p c (cell_mul_get hc)
  rw [view_of_isPage hpage] at hv
  exact ⟨hpage, (Option.some.inj hv).symm⟩

theorem entry_pageAt {m : Mem} {p i : Nat} (hi : i < 512) :
    entry (pageAt m p) i = getLE m (p + 8 * i) 8 :=
  (pageAt_field (by unfold PGSIZE; omega)).symm

/-- An entry above the lowest level is not valid or leads to a table. -/
theorem tree_entry {l p x : Nat} {m : Nat → Nat} {g : Heap Nat Mem} (hg : g.Part (view L s))
    (ht : tree L (l + 1) p m g) (hx : x < 512) :
    (getLE s.mem (p + 8 * x) 8 &&& PTE_V = 0 ∧ ∀ k < span (l + 1), m (x * span (l + 1) + k) = 0) ∨
    ∃ t, Branch (getLE s.mem (p + 8 * x) 8) t ∧ L.IsPage t ∧
      ∃ g', Heap.Part g' (view L s) ∧ tree L l t (shift m (x * span (l + 1))) g' := by
  obtain ⟨c, b, a, hd, rfl, hb, ha⟩ := tree_le_any m hx g ht
  have hc := (part_page (hg.right hd) ha).2
  have he : getLE s.mem (p + 8 * x) 8 = entry c x := by rw [hc, entry_pageAt hx]
  rw [he]
  rcases hb with hb | ⟨t, hb⟩
  · exact Or.inl hb.1
  · obtain ⟨ht, hb⟩ := fact_mul.mp hb
    obtain ⟨hpage, -⟩ := fact_mul.mp (tree_isPage _ _ _ _ hb)
    exact Or.inr ⟨t, ht, hpage, b, hg.left, hb⟩

theorem mod_span (l v : Nat) :
    v % span (l + 2) = v / span (l + 1) % 512 * span (l + 1) + v % span (l + 1) := by
  rw [span_succ (l + 1), Nat.mul_comm 512, Nat.mod_mul, Nat.add_comm, Nat.mul_comm (span _)]

theorem tree_lookup {l p : Nat} {m : Nat → Nat} {g : Heap Nat Mem} (hg : g.Part (view L s))
    (ht : tree L l p m g) (v : Nat) : lookup s.mem l p v = m (v % span (l + 1)) := by
  induction l generalizing p m g v with
  | zero =>
    have hv : v % 512 < 512 := Nat.mod_lt _ (by decide)
    obtain ⟨c, hc⟩ := ht
    obtain ⟨hm, hp⟩ := fact_mul.mp hc
    have hc := (part_page (P := 1) hg (by rw [mul_one]; exact hp)).2
    rw [lookup, ← entry_pageAt hv, ← hc, hm _ hv]
    rfl
  | succ l ih =>
    have hi : v / span (l + 1) % 512 < 512 := Nat.mod_lt _ (by decide)
    have hlt : v % span (l + 1) < span (l + 1) := Nat.mod_lt _ (span_pos _)
    rw [lookup, show 512 ^ (l + 1) = span (l + 1) from rfl, mod_span]
    rcases tree_entry hg ht hi with ⟨hz, hempty⟩ | ⟨t, he, hpage, g', hg', ht'⟩
    · rw [if_pos hz, hempty _ hlt]
    · rw [if_neg he.1, if_neg fun h => h he.2.1, he.2.2, ih hg' ht' v]
      rfl

theorem tree_lookup_lt {p : Nat} {m : Nat → Nat} {g : Heap Nat Mem} (hg : g.Part (view L s))
    (ht : tree L 2 p m g) {v : Nat} (hv : v < 2 ^ 27) : lookup s.mem 2 p v = m v := by
  rw [tree_lookup hg ht, show span (2 + 1) = 2 ^ 27 from rfl, Nat.mod_eq_of_lt hv]

/-! ## The places of a page table -/

theorem names_page {ι : Type} {loc : ι → Option Nat} {i : ι} {p : Nat} {c : Mem} (h : loc i = some p) :
    Names (view L s) loc (page L p c) {i} := Names.of_fact fun _ => Names.cell h

theorem names_own {ι : Type} {loc : ι → Option Nat} {i : ι} {p : Nat} (h : loc i = some p) :
    Names (view L s) loc (own L p) {i} := Names.of_any fun _ => names_page h

theorem names_slot {l p x : Nat} {m : Nat → Nat} (hx : x < 512)
    (ih : ∀ t m, Names (view L s) (tableAt s.mem l t) (tree L l t m) Set.univ) :
    Names (view L s) (tableAt s.mem (l + 1) p) (slotAt L l m (pageAt s.mem p) x)
      ((fun path => x :: path) '' Set.univ) := by
  have he : entry (pageAt s.mem p) x = getLE s.mem (p + 8 * x) 8 := entry_pageAt hx
  unfold slotAt slot
  apply Names.of_either
  · rw [← mul_one (fact _)]
    apply Names.of_fact
    intro hz
    apply Lib.Sep.Names.one
    rintro _ ⟨path, -, rfl⟩
    rw [tableAt, ← he, if_neg fun h => h.2 hz.1]
  · apply Names.of_any
    intro t
    apply Names.of_fact
    intro ht
    apply Names.image _ (ih t _)
    intro path _
    rw [tableAt, ← he, if_pos ⟨hx, ht.1⟩, ht.2.2]

theorem names_tree (l p : Nat) (m : Nat → Nat) :
    Names (view L s) (tableAt s.mem l p) (tree L l p m) Set.univ := by
  induction l generalizing p m with
  | zero =>
    apply Names.of_any
    intro c
    apply Names.of_fact
    intro _
    apply (names_page (i := []) rfl).extend (Set.subset_univ _)
    intro path _ hpath
    cases path with
    | nil => exact absurd rfl hpath
    | cons x path => rfl
  | succ l ih =>
    rw [tree_succ]
    apply Names.of_any
    intro c
    apply Names.of_part fun g hg hp => (part_page hg hp).2
    rintro rfl
    have hslots := Names.prod slots fun x hx =>
      names_slot (p := p) (m := m) (mem_slots.mp hx) ih
    apply ((names_page (i := []) rfl).mul hslots).extend (Set.subset_univ _)
    intro path _ hpath
    cases path with
    | nil => exact absurd (Or.inl rfl) hpath
    | cons x path =>
      rw [tableAt, if_neg]
      rintro ⟨hx, -⟩
      apply hpath
      right
      exact Set.mem_biUnion (mem_slots.mpr hx) ⟨path, trivial, rfl⟩

/-! ## The places of lists -/

theorem freeAt_null (m : Mem) (k : Nat) : freeAt m 0 k = none := by
  cases k <;> rfl

theorem names_chain (r : Nat) (ps : List Nat) :
    Names (view L s) (freeAt s.mem r) (chain L r ps) Set.univ := by
  induction ps generalizing r with
  | nil =>
    rw [chain, ← mul_one (fact _)]
    apply Names.of_fact
    rintro rfl
    exact Lib.Sep.Names.one fun k _ => freeAt_null _ k
  | cons p ps ih =>
    apply Names.of_fact
    rintro rfl
    apply Names.of_any
    intro c
    apply Names.of_part fun g hg hp => part_page hg hp
    rintro ⟨hpage, rfl⟩
    have hne : r ≠ 0 := Nat.ne_of_gt hpage.pos
    have hlink : getLE (pageAt s.mem r) 0 8 = getLE s.mem r 8 :=
      (pageAt_field (o := 0) (by decide)).symm
    have hhead : Names (view L s) (freeAt s.mem r) (page L r (pageAt s.mem r)) {0} :=
      names_page (if_neg hne)
    have htail : Names (view L s) (freeAt s.mem r) (chain L (getLE (pageAt s.mem r) 0 8) ps)
        (Nat.succ '' Set.univ) := by
      rw [hlink]
      exact (ih _).image fun k _ => if_neg hne
    apply (hhead.mul htail).extend (Set.subset_univ _)
    intro k _ hk
    cases k with
    | zero => exact absurd (Or.inl rfl) hk
    | succ k => exact absurd (Or.inr ⟨k, trivial, rfl⟩) hk

theorem names_owns (ps : List Nat) :
    Names (view L s) (fun k : Nat => ps[k]?) (owns L ps) Set.univ := by
  induction ps with
  | nil => exact Lib.Sep.Names.one fun k _ => List.getElem?_nil
  | cons p ps ih =>
    have hcons : owns L (p :: ps) = own L p * owns L ps := List.prod_cons
    have hhead : Names (view L s) (fun k : Nat => (p :: ps)[k]?) (own L p) {0} :=
      names_own List.getElem?_cons_zero
    have htail : Names (view L s) (fun k : Nat => (p :: ps)[k]?) (owns L ps) (Nat.succ '' Set.univ) :=
      ih.image fun k _ => List.getElem?_cons_succ
    rw [hcons]
    apply (hhead.mul htail).extend (Set.subset_univ _)
    intro k _ hk
    cases k with
    | zero => exact absurd (Or.inl rfl) hk
    | succ k => exact absurd (Or.inr ⟨k, trivial, rfl⟩) hk

end Tables

/-! ## The places of a process -/

section System

variable {s : Sys} {i : Fin NPROC}

/-- The places that belong to the process `i`. -/
def placesOf (i : Fin NPROC) : Set Place :=
  {.trapframe i} ∪ (Place.table i '' Set.univ ∪ Place.user i '' Set.univ)

theorem page_eq_trapframe {v : Nat} : v * PGSIZE = TRAPFRAME ↔ v = tfPage := by
  unfold TRAPFRAME TRAMPOLINE MAXVA PGSIZE
  rw [tfPage_eq]
  omega

theorem page_eq_trampoline {v : Nat} : v * PGSIZE = TRAMPOLINE ↔ v = trampPage := by
  unfold TRAMPOLINE MAXVA PGSIZE
  rw [trampPage_eq]
  omega

/-- The user mappings of an address space with the map `m`. -/
theorem names_users {tf n : Nat} {m : Nat → Nat} (h : (s.tab.proc i).state ≠ .UNUSED)
    (hs : Shape L (fun _ => True) tf m n)
    (hm : ∀ v < 2 ^ 27, lookup s.kmem.mem 2 (s.tab.proc i).pagetable v = m v) :
    Names (view L s.kmem) s.held (users L m 0 n) (Place.user i '' Set.univ) := by
  have hb := hs.bound
  rw [tfPage_eq] at hb
  have hheld : ∀ v ∈ Finset.Ico 0 n, Names (view L s.kmem) s.held (own L (PTE2PA (m v)))
      {Place.user i v} := by
    intro v hv
    have hv := (Finset.mem_Ico.mp hv).2
    have hvalid := (hs.user v hv).1.valid
    apply names_own
    show ite _ _ _ = _
    rw [hm v (by omega), if_neg]
    rw [page_eq_trapframe, page_eq_trampoline, tfPage_eq, trampPage_eq]
    rintro (hu | hn)
    · exact h hu
    · omega
  apply (Names.prod _ hheld).extend
  · apply Set.iUnion₂_subset
    rintro v _ _ rfl
    exact ⟨v, trivial, rfl⟩
  · rintro _ ⟨v, -, rfl⟩ hv
    have hn : n ≤ v := by
      by_contra hlt
      exact hv (Set.mem_biUnion (Finset.mem_Ico.mpr ⟨Nat.zero_le v, Nat.not_le.mp hlt⟩) rfl)
    show ite _ _ _ = _
    apply if_pos
    right
    rw [page_eq_trapframe, page_eq_trampoline]
    by_cases h27 : 2 ^ 27 ≤ v
    · exact Or.inl h27
    by_cases ht : v = tfPage
    · exact Or.inr (Or.inl ht)
    by_cases hp : v = trampPage
    · exact Or.inr (Or.inr (Or.inl hp))
    right; right; right
    rw [hm v (by omega), hs.rest v (by rw [span_three]; omega) hn ht hp, Nat.zero_and]

theorem names_live (h : (s.tab.proc i).state ≠ .UNUSED) :
    Names (view L s.kmem) s.held (live L (s.tab.proc i)) (placesOf i) := by
  have htf : Names (view L s.kmem) s.held (own L (s.tab.proc i).trapframe) {.trapframe i} :=
    names_own (if_neg h)
  apply htf.mul
  apply Names.of_any
  intro m
  apply Names.of_fact
  intro hs
  have hlookup : ∀ g, Heap.Part g (view L s.kmem) →
      (tree L 2 (s.tab.proc i).pagetable m * users L m 0 (pagesOf (s.tab.proc i).sz)) g →
      ∀ v < 2 ^ 27, lookup s.kmem.mem 2 (s.tab.proc i).pagetable v = m v := by
    rintro g hg ⟨a, b, hd, rfl, ha, -⟩ v hv
    exact tree_lookup_lt hg.left ha hv
  apply Names.of_part hlookup
  intro hm
  apply Names.mul _ (names_users h hs hm)
  exact (names_tree 2 _ m).image fun path _ => if_neg h

theorem names_proc (i : Fin NPROC) :
    Names (view L s.kmem) s.held (procRes L (s.tab.proc i)) (placesOf i) := by
  by_cases h : (s.tab.proc i).state = .UNUSED
  · apply Names.of_fact
    intro hok
    rw [owned, if_pos (hok.idle h).1, if_pos (hok.idle h).2.1, one_mul]
    apply Lib.Sep.Names.one
    rintro _ (rfl | ⟨path, -, rfl⟩ | ⟨v, -, rfl⟩)
    · exact if_pos h
    · exact if_pos h
    · exact if_pos (Or.inl h)
  · apply Names.mono ?_ (procRes_le_live h)
    exact Names.of_fact fun _ => names_live h

/-! ## All places -/

theorem names_files {t : Tables} {r : Fin NFILE → Nat} :
    Names (view L s.kmem) s.held (filesAt L t r s.tab) (Place.pipe '' Set.univ) := by
  apply Names.of_fact
  intro _
  apply Names.of_fact
  intro hok
  have hopen : ∀ q, q ∈ (ends s.tab.file).image Prod.fst ↔
      ∃ f, 0 < (s.tab.file f).ref ∧ (s.tab.file f).type = .FD_PIPE ∧ (s.tab.file f).pipe = q := by
    intro q
    constructor
    · intro hq
      obtain ⟨⟨r, w⟩, hmem, rfl⟩ := Finset.mem_image.mp hq
      obtain ⟨f, ht, hp, -⟩ := mem_ends.mp hmem
      refine ⟨f, Nat.pos_of_ne_zero fun hz => ?_, ht, hp⟩
      exact nomatch ht.symm.trans (hok.idle f hz)
    · rintro ⟨f, -, ht, rfl⟩
      exact Finset.mem_image_of_mem Prod.fst (mem_ends.mpr ⟨f, ht, rfl, rfl⟩)
  have hheld : ∀ q ∈ (ends s.tab.file).image Prod.fst, Names (view L s.kmem) s.held
      (pipeRes L q fun w => decide ((q, w) ∈ ends s.tab.file)) {Place.pipe q} := by
    intro q hq
    apply Names.mono ?_ (pipeRes_le_own q _)
    apply names_own
    rw [Sys.held, if_pos ((hopen q).mp hq)]
  apply (Names.prod _ hheld).extend
  · apply Set.iUnion₂_subset
    rintro q _ _ rfl
    exact ⟨q, trivial, rfl⟩
  · rintro _ ⟨q, -, rfl⟩ hq
    rw [Sys.held, if_neg]
    intro hex
    exact hq (Set.mem_biUnion ((hopen q).mpr hex) rfl)

theorem mem_places {a : Place} (i : Fin NPROC) (h : a ∈ placesOf i) :
    a ∈ ⋃ j ∈ (∅ᶜ : Finset (Fin NPROC)), placesOf j :=
  Set.mem_biUnion (Finset.mem_compl.mpr (Finset.notMem_empty i)) h

theorem names_all : Names (view L s.kmem) s.held (inv L s.tab * free L 0 s.kmem) Set.univ := by
  have hprocs : Names (view L s.kmem) s.held (others L ∅ s.tab.proc) _ :=
    Names.prod _ fun i _ => names_proc i
  have hfixed : Names (view L s.kmem) s.held (owns L s.tab.fixed) (Place.fixed '' Set.univ) :=
    (names_owns _).image fun _ _ => rfl
  have hfree : Names (view L s.kmem) s.held (free L 0 s.kmem) (Place.free '' Set.univ) := by
    apply Names.of_any
    intro ps
    apply Names.of_fact
    intro _
    exact (names_chain _ ps).image fun _ _ => rfl
  apply ((names_files.mul (hprocs.mul hfixed)).mul hfree).extend (Set.subset_univ _)
  intro a _ ha
  exfalso
  apply ha
  cases a with
  | free k => exact Or.inr ⟨k, trivial, rfl⟩
  | fixed k => exact Or.inl (Or.inr (Or.inr ⟨k, trivial, rfl⟩))
  | pipe q => exact Or.inl (Or.inl ⟨q, trivial, rfl⟩)
  | trapframe i => exact Or.inl (Or.inr (Or.inl (mem_places i (Or.inl rfl))))
  | table i path => exact Or.inl (Or.inr (Or.inl (mem_places i (Or.inr (Or.inl ⟨path, trivial, rfl⟩)))))
  | user i v => exact Or.inl (Or.inr (Or.inl (mem_places i (Or.inr (Or.inr ⟨v, trivial, rfl⟩)))))

end System

/-! ## The results -/

/-- Every page that `kinit` handed out is in exactly one place, and no place holds
anything else. -/
def OnePlace (L : Layout) (s : Sys) : Prop :=
  (∀ p, L.IsPage p → ∃! a, s.held a = some p) ∧ ∀ a p, s.held a = some p → L.IsPage p

theorem onePlace_of_good {s : Sys} (h : Good L s) : OnePlace L s := by
  obtain ⟨h1, h2⟩ := names_all (view L s.kmem) (fun _ _ h => h) h
  constructor
  · intro p hp
    obtain ⟨a, ha, huniq⟩ := h2 p (by rw [view_of_isPage hp]; exact Option.some_ne_none _)
    exact ⟨a, ha.2, fun b hb => huniq b ⟨trivial, hb⟩⟩
  · intro a p ha
    by_contra hp
    exact h1 a trivial p ha (if_neg hp)

/-- The page table of a live process, as a part of what is owned. -/
theorem tree_of_inv {t : Tables} {h : Heap Nat Mem} (hh : inv L t h) {i : Fin NPROC}
    (hi : (t.proc i).state ≠ .UNUSED) :
    ∃ m g, Shape L (fun _ => True) (t.proc i).trapframe m (pagesOf (t.proc i).sz) ∧
      Heap.Part g h ∧ tree L 2 (t.proc i).pagetable m g := by
  obtain ⟨-, hlive⟩ := fact_mul.mp (inv_le_live hi h hh)
  unfold live at hlive
  rw [mul_assoc, mul_left_comm] at hlive
  unfold space spaceOf at hlive
  rw [any_mul] at hlive
  obtain ⟨m, hm⟩ := hlive
  rw [mul_assoc] at hm
  obtain ⟨hs, hm⟩ := fact_mul.mp hm
  rw [mul_assoc] at hm
  obtain ⟨a, b, hd, hab, ha, -⟩ := hm
  refine ⟨m, a, hs, ?_, ha⟩
  rw [hab]
  exact Heap.Part.left fun _ _ h => h

/-- The page table of a live process, as a part of memory. -/
theorem tree_of_good {s : Sys} (h : Good L s) {i : Fin NPROC}
    (hi : (s.tab.proc i).state ≠ .UNUSED) :
    ∃ m g, Shape L (fun _ => True) (s.tab.proc i).trapframe m (pagesOf (s.tab.proc i).sz) ∧
      Heap.Part g (view L s.kmem) ∧ tree L 2 (s.tab.proc i).pagetable m g := by
  obtain ⟨a, b, hd, hab, ha, -⟩ := h
  obtain ⟨m, g, hs, hg, ht⟩ := tree_of_inv ha hi
  refine ⟨m, g, hs, fun p c hp => ?_, ht⟩
  rw [hab]
  exact Heap.union_of_some_left (hg p c hp)

/-- The map of a live process's address space, as its page table has it in memory. -/
theorem shape_of_good {s : Sys} (h : Good L s) {i : Fin NPROC}
    (hi : (s.tab.proc i).state ≠ .UNUSED) :
    ∃ m, Shape L (fun _ => True) (s.tab.proc i).trapframe m (pagesOf (s.tab.proc i).sz) ∧
      ∀ v < 2 ^ 27, lookup s.kmem.mem 2 (s.tab.proc i).pagetable v = m v := by
  obtain ⟨m, g, hs, hg, ht⟩ := tree_of_good h hi
  exact ⟨m, hs, fun v hv => tree_lookup_lt hg ht hv⟩

theorem addressSpace_of_good {s : Sys} (h : Good L s) {i : Fin NPROC}
    (hi : (s.tab.proc i).state ≠ .UNUSED) : AddressSpace s.kmem.mem (s.tab.proc i) := by
  obtain ⟨m, hs, hm⟩ := shape_of_good h hi
  have hb := hs.bound
  have hsz := lt_of_pagesOf_le hb
  have hbelow : ∀ v, v * PGSIZE < PGROUNDUP (s.tab.proc i).sz ↔ v < pagesOf (s.tab.proc i).sz := by
    intro v
    rw [PGROUNDUP_eq (by omega)]
    exact Nat.mul_lt_mul_right (by decide)
  -- a page number is mapped for one of three reasons, each with a leaf
  have hleaf : ∀ v < 2 ^ 27, v < pagesOf (s.tab.proc i).sz ∨ v = tfPage ∨ v = trampPage →
      Leaf (m v) := by
    rintro v - (hv | rfl | rfl)
    · exact (hs.user v hv).1
    · exact hs.leaf_trapframe
    · exact hs.leaf_trampoline
  have hzero : ∀ v < 2 ^ 27, ¬(v < pagesOf (s.tab.proc i).sz ∨ v = tfPage ∨ v = trampPage) →
      m v = 0 := by
    intro v hv hn
    rw [not_or, not_or] at hn
    exact hs.rest v hv (Nat.not_lt.mp hn.1) hn.2.1 hn.2.2
  constructor
  · intro v hv
    rw [hm v hv, hbelow, page_eq_trapframe, page_eq_trampoline]
    constructor
    · intro hvalid
      by_contra hn
      rw [hzero v hv hn] at hvalid
      exact hvalid (Nat.zero_and _)
    · intro hmap
      exact (hleaf v hv hmap).valid
  · intro v hv hvalid
    rw [hm v hv] at hvalid ⊢
    have hl : Leaf (m v) := by
      by_contra hn
      rw [hzero v hv fun hmap => hn (hleaf v hv hmap)] at hvalid
      exact hvalid (Nat.zero_and _)
    intro hz
    rw [Nat.and_or_distrib_left, Nat.and_or_distrib_left] at hz
    exact hl.readable (Nat.or_eq_zero_iff.mp (Nat.or_eq_zero_iff.mp hz).1).1
  · rw [hm _ (by decide), show TRAPFRAME / PGSIZE = tfPage from rfl, hs.trapframe, Nat.or_assoc,
      or_and_flags _ _ (by decide)]
    decide
  · rw [hm _ (by decide), show TRAMPOLINE / PGSIZE = trampPage from rfl, hs.trampoline, Nat.or_assoc,
      or_and_flags _ _ (by decide)]
    decide

/-- The end of the machine's memory. -/
def PHYSTOP : Nat := KERNBASE + 128 * 1024 * 1024

/-- A machine whose kernel image is the trampoline page alone. -/
def smallKernel : Layout where
  kend := KERNBASE + PGSIZE
  phystop := PHYSTOP
  trampoline := KERNBASE
  kernbase_le := by decide
  kend_le := by decide
  phystop_le := by decide
  trampoline_lt := by decide
  trampoline_aligned := by decide

/-- A run ends in a state with `P`, or with the panic of an `init` that exits. -/
def Ends (P : Sys → Prop) : Except Panic Sys → Prop
  | .ok s => P s
  | .error e => e = .initExiting

/-- What follows from the books holds after every run from boot on. -/
theorem boot_ends (hN : L.npages < tfPage) (mem : Mem) {taken : Nat} (h : taken + 9 ≤ L.npages)
    {P : Sys → Prop} (hP : ∀ t, Good L t → P t) :
    ∃ s, boot L mem taken = .ok s ∧ ∀ ls, Ends P (runCalls L s ls) := by
  obtain ⟨s, hs, hgood⟩ := boot_good hN mem h
  refine ⟨s, hs, fun ls => ?_⟩
  have hrun := good_run hN hgood ls
  cases hr : runCalls L s ls with
  | ok t =>
    rw [hr] at hrun
    exact hP t hrun
  | error e =>
    rw [hr] at hrun
    exact hrun

/-- In every run of system calls after boot, with `kalloc` failing wherever it will, each
page is in exactly one place after every call; the only panic there is, is that of an
`init` that exits. -/
theorem pages_in_one_place (L : Layout) (hL : L.phystop = PHYSTOP) (mem : Mem) (taken : Nat)
    (h : taken + 9 ≤ L.npages) :
    ∃ s, boot L mem taken = .ok s ∧ ∀ ls, match runCalls L s ls with
      | .ok t => OnePlace L t
      | .error e => e = .initExiting := by
  have hN : L.npages < tfPage := by
    have hk := L.kernbase_le
    unfold Layout.npages
    rw [hL, tfPage_eq]
    unfold PHYSTOP KERNBASE PGSIZE
    omega
  exact boot_ends hN mem h fun t ht => onePlace_of_good ht

theorem pages_in_one_place_smallKernel :
    ∃ s, boot smallKernel (fun _ => 5) 100 = .ok s ∧ ∀ ls, match runCalls smallKernel s ls with
      | .ok t => OnePlace smallKernel t
      | .error e => e = .initExiting :=
  pages_in_one_place smallKernel rfl (fun _ => 5) 100 (by decide)

/-- In every run of system calls after boot, with `kalloc` failing wherever it will, the
address space of every process has its shape; the only panic there is, is that of an
`init` that exits. -/
theorem address_spaces (L : Layout) (hN : L.npages < TRAPFRAME / PGSIZE) (mem : Mem) (taken : Nat)
    (h : taken + 9 ≤ L.npages) :
    ∃ s, boot L mem taken = .ok s ∧ ∀ ls, match runCalls L s ls with
      | .ok t => ∀ i, (t.tab.proc i).state ≠ .UNUSED → AddressSpace t.kmem.mem (t.tab.proc i)
      | .error e => e = .initExiting := by
  exact boot_ends hN mem h fun t ht i hi => addressSpace_of_good ht hi

theorem address_spaces_smallKernel :
    ∃ s, boot smallKernel (fun _ => 5) 100 = .ok s ∧ ∀ ls, match runCalls smallKernel s ls with
      | .ok t => ∀ i, (t.tab.proc i).state ≠ .UNUSED → AddressSpace t.kmem.mem (t.tab.proc i)
      | .error e => e = .initExiting :=
  address_spaces smallKernel (by decide) (fun _ => 5) 100 (by decide)

end Xv6.Vm
