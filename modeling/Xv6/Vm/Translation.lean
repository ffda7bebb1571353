import Xv6.Vm.Ownership

/-!
# Page tables as maps

What `mappages` and `uvmunmap` do to the translation of every address, for any page table
that is a tree of distinct pages beside a free list outside of it. The tree is described
by the memory alone: the pages that indices lead to. From there the heap of the tree is
built, the triples of `walk`, `mappages` and `uvmunmap` are run on it, and the heap after
them is read back as a tree.
-/
namespace Xv6.Vm

open Lib.Bytes Lib.Sep Lib.Sep.Assn Function

set_option autoImplicit false

/-- The table of level `l` at `p` is a tree: a valid entry above the lowest level leads to a
table, and no page is reached in two ways. -/
structure IsTable (L : Layout) (m : Mem) (l p : Nat) : Prop where
  page : ∀ path t, tableAt m l p path = some t → L.IsPage t
  branch : ∀ path t, tableAt m l p path = some t → path.length < l → ∀ x < 512,
    getLE m (t + 8 * x) 8 &&& PTE_V ≠ 0 →
      getLE m (t + 8 * x) 8 &&& (PTE_R ||| PTE_W ||| PTE_X) = 0
  distinct : ∀ path path' t, tableAt m l p path = some t → tableAt m l p path' = some t →
    path = path'

/-- A page table that is a tree, and a free list of pages outside of it. -/
structure PageTree (L : Layout) (s : Kmem) (p : Nat) : Prop where
  table : IsTable L s.mem 2 p
  free : ∀ k q, freeAt s.mem s.freelist k = some q →
    L.IsPage q ∧ ∀ path, tableAt s.mem 2 p path ≠ some q
  once : ∀ k k' q, freeAt s.mem s.freelist k = some q → freeAt s.mem s.freelist k' = some q →
    k = k'

/-- The map that a page table stands for: the frame and the flags of a page number. -/
def translation (m : Mem) (p v : Nat) : Option (Nat × Nat) :=
  let e := lookup m 2 p v
  if e &&& PTE_V = 0 then none else some (PTE2PA e, PTE_FLAGS e)

/-- The `n` page numbers from `v` on lead to the frames from `pa` on. -/
def mapRange (f : Nat → Option (Nat × Nat)) (v n pa perm : Nat) : Nat → Option (Nat × Nat) :=
  fun w => if v ≤ w ∧ w < v + n then some (pa + (w - v) * PGSIZE, perm ||| PTE_V) else f w

/-- The `n` page numbers from `v` on lead nowhere. -/
def unmapRange (f : Nat → Option (Nat × Nat)) (v n : Nat) : Nat → Option (Nat × Nat) :=
  fun w => if v ≤ w ∧ w < v + n then none else f w

variable {L : Layout}

/-! ## From the memory to the heap -/

/-- The pages of a table. -/
def tablePages (m : Mem) (l p : Nat) : Set Nat := {t | ∃ path, tableAt m l p path = some t}

/-- The pages of a table that its entry `x` leads to. -/
def slotPages (m : Mem) (l p x : Nat) : Set Nat := {t | ∃ path, tableAt m l p (x :: path) = some t}

def freePages (m : Mem) (r : Nat) : Set Nat := {q | ∃ k, freeAt m r k = some q}

theorem tablePages_zero (m : Mem) (p : Nat) : tablePages m 0 p = {p} := by
  ext t
  constructor
  · rintro ⟨_ | ⟨x, path⟩, h⟩
    · exact (Option.some.inj h).symm
    · cases h
  · rintro rfl
    exact ⟨[], rfl⟩

theorem tablePages_succ (m : Mem) (l p : Nat) :
    tablePages m (l + 1) p = {p} ∪ ⋃ x ∈ slots, slotPages m (l + 1) p x := by
  ext t
  constructor
  · rintro ⟨_ | ⟨x, path⟩, h⟩
    · exact Or.inl (Option.some.inj h).symm
    · have hx : x < 512 := by
        by_contra hx
        rw [tableAt, if_neg fun h => hx h.1] at h
        cases h
      exact Or.inr (Set.mem_biUnion (mem_slots.mpr hx) ⟨path, h⟩)
  · rintro (rfl | ht)
    · exact ⟨[], rfl⟩
    · obtain ⟨x, -, path, h⟩ := Set.mem_iUnion₂.mp ht
      exact ⟨x :: path, h⟩

theorem slotPages_invalid {m : Mem} {l p x : Nat} (h : getLE m (p + 8 * x) 8 &&& PTE_V = 0) :
    slotPages m (l + 1) p x = ∅ := by
  apply Set.eq_empty_of_forall_notMem
  rintro t ⟨path, ht⟩
  rw [tableAt, if_neg fun hv => hv.2 h] at ht
  cases ht

theorem tableAt_cons {m : Mem} {l p x : Nat} (hx : x < 512)
    (h : getLE m (p + 8 * x) 8 &&& PTE_V ≠ 0) (path : List Nat) :
    tableAt m (l + 1) p (x :: path) = tableAt m l (PTE2PA (getLE m (p + 8 * x) 8)) path :=
  if_pos ⟨hx, h⟩

theorem slotPages_valid {m : Mem} {l p x : Nat} (hx : x < 512)
    (h : getLE m (p + 8 * x) 8 &&& PTE_V ≠ 0) :
    slotPages m (l + 1) p x = tablePages m l (PTE2PA (getLE m (p + 8 * x) 8)) := by
  unfold slotPages tablePages
  simp only [tableAt_cons hx h]

/-- The table that a valid entry leads to. -/
theorem IsTable.sub {m : Mem} {l p x : Nat} (h : IsTable L m (l + 1) p) (hx : x < 512)
    (hv : getLE m (p + 8 * x) 8 &&& PTE_V ≠ 0) : IsTable L m l (PTE2PA (getLE m (p + 8 * x) 8)) := by
  have hcons := tableAt_cons (l := l) hx hv
  constructor
  · intro path t ht
    exact h.page (x :: path) t (by rw [hcons, ht])
  · intro path t ht hl
    exact h.branch (x :: path) t (by rw [hcons, ht]) (Nat.succ_lt_succ hl)
  · intro path path' t ht ht'
    have heq := h.distinct (x :: path) (x :: path') t (by rw [hcons, ht]) (by rw [hcons, ht'])
    exact (List.cons.inj heq).2

theorem page_restrict {s : Kmem} {p : Nat} (h : L.IsPage p) :
    page L p (pageAt s.mem p) ((view L s).restrict {p}) :=
  fact_mul.mpr ⟨h, Heap.restrict_singleton (view_of_isPage h)⟩

theorem slot_index {l i k : Nat} (hi : i < 512) (hk : k < span (l + 1)) :
    (i * span (l + 1) + k) / 512 ^ (l + 1) % 512 = i := by
  have hdiv : (i * span (l + 1) + k) / span (l + 1) = i := by
    rw [Nat.mul_comm, Nat.mul_add_div (span_pos _), Nat.div_eq_of_lt hk, Nat.add_zero]
  have hspan : 512 ^ (l + 1) = span (l + 1) := rfl
  rw [hspan, hdiv, Nat.mod_eq_of_lt hi]

/-- The pages of a tree are the heap of a table with the entries that the hardware finds. -/
theorem tree_of_isTable {s : Kmem} {l p : Nat} (h : IsTable L s.mem l p) :
    tree L l p (lookup s.mem l p) ((view L s).restrict (tablePages s.mem l p)) := by
  induction l generalizing p with
  | zero =>
    rw [tablePages_zero, tree_zero]
    refine ⟨pageAt s.mem p, fact_mul.mpr ⟨fun i hi => ?_, page_restrict (h.page [] p rfl)⟩⟩
    rw [entry_pageAt hi, lookup, Nat.mod_eq_of_lt hi]
  | succ l ih =>
    have hroot : tableAt s.mem (l + 1) p [] = some p := rfl
    rw [tablePages_succ, tree_succ]
    refine ⟨pageAt s.mem p, mul_restrict ?_ (page_restrict (h.page [] p hroot))
      (prod_restrict slots (fun x hx => ?_) fun x _ y _ hne => ?_)⟩
    · rintro _ rfl hu
      obtain ⟨x, -, path, hp⟩ := Set.mem_iUnion₂.mp hu
      exact absurd (h.distinct _ _ _ hroot hp) (List.cons_ne_nil x path).symm
    · have hx := mem_slots.mp hx
      have he : entry (pageAt s.mem p) x = getLE s.mem (p + 8 * x) 8 := entry_pageAt hx
      unfold slotAt
      rw [he]
      by_cases hv : getLE s.mem (p + 8 * x) 8 &&& PTE_V = 0
      · rw [slotPages_invalid hv, Heap.restrict_empty]
        refine one_le_slot hv (fun k hk => ?_) _ rfl
        rw [lookup, slot_index hx hk]
        exact if_pos hv
      · have hb : Branch (getLE s.mem (p + 8 * x) 8) (PTE2PA (getLE s.mem (p + 8 * x) 8)) :=
          ⟨hv, h.branch [] p hroot (Nat.succ_pos l) x hx hv, rfl⟩
        have hsub := ih (h.sub hx hv)
        rw [slotPages_valid hx hv]
        refine le_slot (f := fun t => tree L l t (shift _ (x * span (l + 1)))) hb _ ?_
        refine tree_mono (fun k hk => ?_) _ hsub
        have hlow := tree_lookup (Heap.restrict_part _ _) hsub (x * span (l + 1) + k)
        rw [Nat.mul_add_mod_of_lt hk] at hlow
        unfold shift
        rw [lookup, slot_index hx hk]
        simp only [if_neg hv, hb.2.1, ne_eq, not_true_eq_false, if_false]
        exact hlow.symm
    · rintro t ⟨path, ht⟩ ⟨path', ht'⟩
      exact hne (List.cons.inj (h.distinct _ _ _ ht ht')).1

/-- A free list that names no page twice ends. -/
theorem freeAt_ends {m : Mem} {r : Nat} (hp : ∀ k q, freeAt m r k = some q → L.IsPage q)
    (ho : ∀ k k' q, freeAt m r k = some q → freeAt m r k' = some q → k = k') :
    ∃ k, freeAt m r k = none := by
  by_contra hend
  have hsome : ∀ k, ∃ q, freeAt m r k = some q :=
    fun k => Option.ne_none_iff_exists'.mp fun hn => hend ⟨k, hn⟩
  choose f hf using hsome
  -- more positions than pages
  have hmaps : ∀ k ∈ Finset.range (L.pages.card + 1), f k ∈ L.pages :=
    fun k _ => isPage_iff_mem.mp (hp k (f k) (hf k))
  obtain ⟨i, -, j, -, hne, heq⟩ := Finset.exists_ne_map_eq_of_card_lt_of_maps_to
    (by rw [Finset.card_range]; omega) hmaps
  exact hne (ho i j (f j) (by rw [hf, heq]) (hf j))

theorem freePages_null (m : Mem) : freePages m 0 = ∅ := by
  apply Set.eq_empty_of_forall_notMem
  rintro q ⟨k, hk⟩
  rw [freeAt_null] at hk
  cases hk

theorem freePages_cons {m : Mem} {r : Nat} (hr : r ≠ 0) :
    freePages m r = {r} ∪ freePages m (getLE m r 8) := by
  ext q
  constructor
  · rintro ⟨_ | k, hk⟩
    · rw [freeAt, if_neg hr] at hk
      exact Or.inl (Option.some.inj hk).symm
    · rw [freeAt, if_neg hr] at hk
      exact Or.inr ⟨k, hk⟩
  · rintro (rfl | ⟨k, hk⟩)
    · exact ⟨0, if_neg hr⟩
    · exact ⟨k + 1, (if_neg hr).trans hk⟩

theorem chain_of_freeAt {s : Kmem} {r k : Nat} (hend : freeAt s.mem r k = none)
    (hp : ∀ k q, freeAt s.mem r k = some q → L.IsPage q)
    (ho : ∀ k k' q, freeAt s.mem r k = some q → freeAt s.mem r k' = some q → k = k') :
    ∃ ps, chain L r ps ((view L s).restrict (freePages s.mem r)) := by
  by_cases hr : r = 0
  · rw [hr, freePages_null, Heap.restrict_empty]
    exact ⟨[], rfl, rfl⟩
  induction k generalizing r with
  | zero =>
    rw [freeAt, if_neg hr] at hend
    cases hend
  | succ k ih =>
    have hstep : ∀ j, freeAt s.mem r (j + 1) = freeAt s.mem (getLE s.mem r 8) j := fun j => if_neg hr
    have hhead : freeAt s.mem r 0 = some r := if_neg hr
    have hpage := hp 0 r hhead
    have hlink : getLE (pageAt s.mem r) 0 8 = getLE s.mem r 8 := (pageAt_field (o := 0) (by decide)).symm
    obtain ⟨ps, hps⟩ : ∃ ps, chain L (getLE s.mem r 8) ps
        ((view L s).restrict (freePages s.mem (getLE s.mem r 8))) := by
      by_cases hn : getLE s.mem r 8 = 0
      · rw [hn, freePages_null, Heap.restrict_empty]
        exact ⟨[], rfl, rfl⟩
      · apply ih (by rw [← hstep]; exact hend)
        · intro j q hq
          exact hp (j + 1) q (by rw [hstep, hq])
        · intro j j' q hq hq'
          have h := ho (j + 1) (j' + 1) q (by rw [hstep, hq]) (by rw [hstep, hq'])
          omega
        · exact hn
    rw [freePages_cons hr]
    refine ⟨r :: ps, fact_mul.mpr ⟨rfl, pageAt s.mem r, mul_restrict ?_ (page_restrict hpage) ?_⟩⟩
    · intro q hq hin
      rw [Set.mem_singleton_iff.mp hq] at hin
      obtain ⟨j, hj⟩ := hin
      have h := ho 0 (j + 1) r hhead (by rw [hstep, hj])
      omega
    · rw [hlink]
      exact hps

/-- The heap of the memory: the tree, what `P` owns outside of it, the free list, the rest. -/
theorem heap_of_pageTree {s : Kmem} {p : Nat} (h : PageTree L s p) {P : Assn Nat Mem} {F : Set Nat}
    (hP : P ((view L s).restrict F)) (htable : ∀ q ∈ F, ∀ path, tableAt s.mem 2 p path ≠ some q)
    (hfree : ∀ q ∈ F, ∀ k, freeAt s.mem s.freelist k ≠ some q) :
    ∃ rest : Heap Nat Mem,
      (tree L 2 p (lookup s.mem 2 p) * P * (free L 0 s * exactly rest)) (view L s) := by
  have hp : ∀ k q, freeAt s.mem s.freelist k = some q → L.IsPage q := fun k q hk => (h.free k q hk).1
  obtain ⟨k, hk⟩ := freeAt_ends hp h.once
  obtain ⟨ps, hps⟩ := chain_of_freeAt hk hp h.once
  have hchain : free L 0 s ((view L s).restrict (freePages s.mem s.freelist)) :=
    ⟨ps, fact_mul.mpr ⟨⟨Nat.zero_le _, fun h0 => absurd h0 (Nat.lt_irrefl 0)⟩, hps⟩⟩
  have howned : (tree L 2 p (lookup s.mem 2 p) * P)
      ((view L s).restrict (tablePages s.mem 2 p ∪ F)) := by
    refine mul_restrict ?_ (tree_of_isTable h.table) hP
    rintro q ⟨path, hpath⟩ hq
    exact htable q hq path hpath
  generalize hA : tablePages s.mem 2 p ∪ F = A at howned
  generalize hB : freePages s.mem s.freelist = B at hchain
  have hAB : ∀ q, q ∈ A → q ∉ B := by
    subst hA hB
    rintro q (⟨path, hpath⟩ | hq) ⟨j, hj⟩
    · exact (h.free j q hj).2 path hpath
    · exact hfree q hq j hj
  have huniv : A ∪ (B ∪ (A ∪ B)ᶜ) = Set.univ := by
    rw [← Set.union_assoc]
    exact Set.union_compl_self _
  refine ⟨(view L s).restrict (A ∪ B)ᶜ, ?_⟩
  have hrest : exactly ((view L s).restrict (A ∪ B)ᶜ) ((view L s).restrict (A ∪ B)ᶜ) := rfl
  have hall := mul_restrict (h := view L s) (S := A) (T := B ∪ (A ∪ B)ᶜ) ?_ howned
    (mul_restrict (fun q hq hc => hc (Set.mem_union_right A hq)) hchain hrest)
  · rw [huniv, Heap.restrict_univ] at hall
    exact hall
  · rintro q hq (hb | hc)
    · exact hAB q hq hb
    · exact hc (Set.mem_union_left B hq)

/-! ## From the heap to the memory -/

theorem tree_branch {s : Kmem} {l p : Nat} {m : Nat → Nat} {g : Heap Nat Mem}
    (hg : g.Part (view L s)) (ht : tree L l p m g) {path : List Nat} {t : Nat}
    (hpath : tableAt s.mem l p path = some t) (hl : path.length < l) {x : Nat} (hx : x < 512)
    (hv : getLE s.mem (t + 8 * x) 8 &&& PTE_V ≠ 0) :
    getLE s.mem (t + 8 * x) 8 &&& (PTE_R ||| PTE_W ||| PTE_X) = 0 := by
  induction l generalizing p m g path with
  | zero => exact absurd hl (Nat.not_lt_zero _)
  | succ l ih =>
    cases path with
    | nil =>
      obtain rfl : p = t := Option.some.inj hpath
      rcases tree_entry hg ht hx with ⟨hz, -⟩ | ⟨t, he, -⟩
      · exact absurd hz hv
      · exact he.2.1
    | cons y path =>
      have hy : y < 512 ∧ getLE s.mem (p + 8 * y) 8 &&& PTE_V ≠ 0 := by
        by_contra hy
        rw [tableAt, if_neg hy] at hpath
        cases hpath
      rw [tableAt_cons hy.1 hy.2] at hpath
      rcases tree_entry hg ht hy.1 with ⟨hz, -⟩ | ⟨t', he, -, g', hg', ht'⟩
      · exact absurd hz hy.2
      · rw [he.2.2] at hpath
        exact ih hg' ht' hpath (Nat.lt_of_succ_lt_succ hl)

theorem pageTree_of_heap {s : Kmem} {p : Nat} {m : Nat → Nat} {R : Assn Nat Mem}
    (h : (tree L 2 p m * (free L 0 s * R)) (view L s)) :
    PageTree L s p ∧ ∀ v < 2 ^ 27, lookup s.mem 2 p v = m v := by
  obtain ⟨g, k, hd, hview, hg, f, r, hfr, rfl, ⟨ps, hf⟩, -⟩ := h
  have hpart : (g ∪ (f ∪ r)).Part (view L s) := by
    rw [hview]
    exact fun _ _ h => h
  have hgp := hpart.left
  have hfp := (hpart.right hd).left
  have hf := (fact_mul.mp hf).2
  obtain ⟨ht1, ht2⟩ := names_tree (s := s) 2 p m g hgp hg
  obtain ⟨hf1, hf2⟩ := names_chain (s := s) _ ps f hfp hf
  refine ⟨⟨⟨?_, ?_, ?_⟩, ?_, ?_⟩, fun v hv => tree_lookup_lt hgp hg hv⟩
  · intro path t hpath
    exact isPage_of_part hgp (ht1 path trivial t hpath)
  · intro path t hpath hl x hx hv
    exact tree_branch hgp hg hpath hl hx hv
  · intro path path' t hpath hpath'
    exact (ht2 t (ht1 path trivial t hpath)).unique ⟨trivial, hpath⟩ ⟨trivial, hpath'⟩
  · intro j q hj
    have hq := hf1 j trivial q hj
    refine ⟨isPage_of_part hfp hq, fun path hpath => ?_⟩
    have hnone := (hd q).resolve_left (ht1 path trivial q hpath)
    exact hq (Heap.union_eq_none.mp hnone).1
  · intro j j' q hj hj'
    exact (hf2 q (hf1 j trivial q hj)).unique ⟨trivial, hj⟩ ⟨trivial, hj'⟩

/-! ## `mappages` -/

/-- The map with the entries of the `n` pages from `v` on. -/
def mapped (m : Nat → Nat) (v n pa perm : Nat) : Nat → Nat :=
  fun w => if v ≤ w ∧ w < v + n then PA2PTE (pa + (w - v) * PGSIZE) ||| perm ||| PTE_V else m w

theorem mapped_zero (m : Nat → Nat) (v pa perm : Nat) : mapped m v 0 pa perm = m := by
  funext w
  exact if_neg (by omega)

theorem mapped_update (m : Nat → Nat) (v n pa perm : Nat) :
    mapped (update m v (PA2PTE pa ||| perm ||| PTE_V)) (v + 1) n (pa + PGSIZE) perm =
      mapped m v (n + 1) pa perm := by
  funext w
  unfold mapped
  by_cases hw : w = v
  · rw [hw, if_neg (by omega), update_self, if_pos (by omega), Nat.sub_self, Nat.zero_mul,
      Nat.add_zero]
  · rw [update_of_ne hw]
    by_cases hin : v + 1 ≤ w ∧ w < v + 1 + n
    · have hk : pa + PGSIZE + (w - (v + 1)) * PGSIZE = pa + (w - v) * PGSIZE := by
        unfold PGSIZE
        omega
      rw [if_pos hin, if_pos (by omega), hk]
    · rw [if_neg hin, if_neg (by omega)]

theorem pte_lt_word {pa f : Nat} (hpa : pa < 2 ^ 64) (hf : f < 1024) :
    PA2PTE pa ||| f ||| PTE_V < 256 ^ 8 := by
  have h : PA2PTE pa < 2 ^ 64 := by
    unfold PA2PTE
    rw [Nat.shiftRight_eq_div_pow, Nat.shiftLeft_eq]
    omega
  have hf' : f < 2 ^ 64 := by omega
  exact Nat.or_lt_two_pow (Nat.or_lt_two_pow h hf') (by decide)

/-- The loop maps all the pages, or it runs out of memory after some of them. -/
theorem spec_mappagesLoop {p v n pa perm : Nat} {m : Nat → Nat} (hv : v + n < trampPage + 1)
    (hm : ∀ w, v ≤ w → w ≤ v + n → m w &&& PTE_V = 0) (hpa : pa + n * PGSIZE < 2 ^ 64)
    (hperm : perm < 1024) :
    Spec L (tree L 2 p m) (mappagesLoop p perm n (v * PGSIZE) pa) fun r => any fun k =>
      fact (r = 0 ∧ k = n + 1 ∨ r = -1 ∧ k < n + 1) * tree L 2 p (mapped m v k pa perm) := by
  induction n generalizing v pa m with
  | zero =>
    rw [mappagesLoop]
    apply spec_mapRound (by omega) (hm v le_rfl le_rfl) (pte_lt_word (by omega) hperm) le_rfl
    · intro _
      refine le_any 0 (le_fact_mul (Or.inr ⟨rfl, by omega⟩) ?_)
      rw [mapped_zero]
    · refine Triple.ret _ (le_any 1 (le_fact_mul (Or.inl ⟨rfl, rfl⟩) ?_))
      rw [← mapped_update, mapped_zero]
  | succ n ih =>
    have hstep : v * PGSIZE + PGSIZE = (v + 1) * PGSIZE := by rw [Nat.add_mul, Nat.one_mul]
    have hbound : pa + PGSIZE + n * PGSIZE < 2 ^ 64 := by
      rw [Nat.add_mul] at hpa
      omega
    rw [mappagesLoop]
    apply spec_mapRound (by omega) (hm v le_rfl (by omega)) (pte_lt_word (by omega) hperm) le_rfl
    · intro _
      refine le_any 0 (le_fact_mul (Or.inr ⟨rfl, by omega⟩) ?_)
      rw [mapped_zero]
    · rw [hstep]
      apply (ih (by omega) ?_ hbound).post
      · intro r
        refine any_le fun k => fact_mul_le fun hk => le_any (k + 1) (le_fact_mul ?_ ?_)
        · omega
        · rw [mapped_update]
      · intro w h1 h2
        rw [update_of_ne (by omega)]
        exact hm w (by omega) (by omega)

theorem translation_of_entry {m : Mem} {p v pa f : Nat} (hpa : pa % PGSIZE = 0) (hf : f < 1024)
    (h : lookup m 2 p v = PA2PTE pa ||| f ||| PTE_V) :
    translation m p v = some (pa, f ||| PTE_V) := by
  have hlt : f ||| PTE_V < 1024 := Nat.or_lt_two_pow (n := 10) hf (by decide)
  have hvalid : lookup m 2 p v &&& PTE_V ≠ 0 := by
    rw [h, Nat.or_assoc, or_and_flags pa _ (by decide), Nat.and_or_distrib_right, Nat.and_self]
    exact fun hz => absurd (Nat.or_eq_zero_iff.mp hz).2 (by decide)
  unfold translation
  simp only [if_neg hvalid]
  rw [h, Nat.or_assoc, PTE2PA_or hpa hlt, PTE_FLAGS_or pa hlt]

theorem translation_congr {m m' : Mem} {p v : Nat} (h : lookup m' 2 p v = lookup m 2 p v) :
    translation m' p v = translation m p v := by
  unfold translation
  rw [h]

/-- How many pages `mappages` is asked for. -/
def pageCount (va size : Nat) : Nat := (va + size - 1) / PGSIZE - va / PGSIZE + 1

/-- `mappages` has mapped its range, or a proper part of it from the start on. -/
def MapsRange (L : Layout) (s : Kmem) (p va size pa perm : Nat) : Prop :=
  ∃ r t n, mappages p va size pa perm s = .ok (r, t) ∧ PageTree L t p ∧
    (r = 0 ∧ n = pageCount va size ∨ r = -1 ∧ n < pageCount va size) ∧
    ∀ v < 2 ^ 27, translation t.mem p v = mapRange (translation s.mem p) (va / PGSIZE) n pa perm v

theorem mapsRange {s : Kmem} {p va size pa perm : Nat} (h : PageTree L s p) (hsize : 0 < size)
    (hva : va + size - 1 < MAXVA) (hpa : pa % PGSIZE = 0)
    (hend : pa + pageCount va size * PGSIZE ≤ 2 ^ 64) (hperm : perm < 1024)
    (hfree : ∀ v, va / PGSIZE ≤ v → v ≤ (va + size - 1) / PGSIZE → translation s.mem p v = none) :
    MapsRange L s p va size pa perm := by
  have hle : va / PGSIZE ≤ (va + size - 1) / PGSIZE := Nat.div_le_div_right (by omega)
  have hlast : (va + size - 1) / PGSIZE < trampPage + 1 := by
    rw [trampPage_eq]
    unfold MAXVA at hva
    unfold PGSIZE
    omega
  have hcount : (PGROUNDDOWN (va + size - 1) - PGROUNDDOWN va) / PGSIZE + 1 = pageCount va size := by
    unfold PGROUNDDOWN pageCount
    rw [← Nat.sub_mul, pageno]
  have hunmapped : ∀ w, va / PGSIZE ≤ w →
      w ≤ va / PGSIZE + (PGROUNDDOWN (va + size - 1) - PGROUNDDOWN va) / PGSIZE →
        lookup s.mem 2 p w &&& PTE_V = 0 := by
    intro w h1 h2
    by_contra hv
    have hnone := hfree w h1 (by unfold pageCount at hcount; omega)
    unfold translation at hnone
    simp only [if_neg hv] at hnone
    cases hnone
  generalize hn : (PGROUNDDOWN (va + size - 1) - PGROUNDDOWN va) / PGSIZE = n at *
  have hbound : pa + n * PGSIZE < 2 ^ 64 := by
    rw [← hcount, Nat.add_mul] at hend
    unfold PGSIZE at *
    omega
  have hspec := spec_mappagesLoop (L := L) (p := p) (v := va / PGSIZE)
    (by unfold pageCount at hcount; omega) hunmapped hbound hperm
  obtain ⟨rest, hheap⟩ := heap_of_pageTree h (P := 1) (F := ∅)
    (by rw [Heap.restrict_empty]; exact rfl) (fun q hq => absurd hq (Set.notMem_empty q))
    fun q hq => absurd hq (Set.notMem_empty q)
  rw [mul_one] at hheap
  obtain ⟨r, t, hrun, hafter⟩ := hspec _ s hheap
  rw [any_mul] at hafter
  obtain ⟨k, hafter⟩ := hafter
  rw [mul_assoc] at hafter
  obtain ⟨hk, hafter⟩ := fact_mul.mp hafter
  obtain ⟨htree, hlookup⟩ := pageTree_of_heap hafter
  refine ⟨r, t, k, ?_, htree, by omega, fun v hv => ?_⟩
  · rw [mappages, if_neg (by omega), hn]
    exact hrun
  · have hentry := hlookup v hv
    unfold mapped at hentry
    unfold mapRange
    split
    case isTrue hin =>
      rw [if_pos hin] at hentry
      apply translation_of_entry ?_ hperm hentry
      unfold PGSIZE at *
      omega
    case isFalse hout =>
      rw [if_neg hout] at hentry
      exact translation_congr hentry

/-! ## `uvmunmap` -/

/-- What `uvmunmap` has to be given to free the frames of the `n` pages from `v` on: pages that
nobody else holds, each once. -/
structure Frees (L : Layout) (s : Kmem) (p v n : Nat) : Prop where
  page : ∀ w, v ≤ w → w < v + n → L.IsPage (PTE2PA (lookup s.mem 2 p w))
  table : ∀ w, v ≤ w → w < v + n → ∀ path, tableAt s.mem 2 p path ≠ some (PTE2PA (lookup s.mem 2 p w))
  free : ∀ w, v ≤ w → w < v + n → ∀ k,
    freeAt s.mem s.freelist k ≠ some (PTE2PA (lookup s.mem 2 p w))
  once : ∀ w w', v ≤ w → w < v + n → v ≤ w' → w' < v + n →
    PTE2PA (lookup s.mem 2 p w) = PTE2PA (lookup s.mem 2 p w') → w = w'

/-- The `n` pages from `v` on are mapped, with some access. -/
def MappedRange (m : Mem) (p v n : Nat) : Prop :=
  ∀ w, v ≤ w → w < v + n → ∃ frame flags, translation m p w = some (frame, flags) ∧
    flags &&& (PTE_R ||| PTE_W ||| PTE_X) ≠ 0

/-- `uvmunmap` has unmapped its range. -/
def UnmapsRange (L : Layout) (s : Kmem) (p va npages : Nat) (do_free : Bool) : Prop :=
  ∃ t, uvmunmap L p va npages do_free s = .ok ((), t) ∧ PageTree L t p ∧
    ∀ v < 2 ^ 27, translation t.mem p v = unmapRange (translation s.mem p) (va / PGSIZE) npages v

theorem entry_of_translation {m : Mem} {p v frame flags : Nat}
    (h : translation m p v = some (frame, flags)) (hf : flags &&& (PTE_R ||| PTE_W ||| PTE_X) ≠ 0) :
    lookup m 2 p v &&& PTE_V ≠ 0 ∧ PTE_FLAGS (lookup m 2 p v) ≠ PTE_V := by
  unfold translation at h
  by_cases hv : lookup m 2 p v &&& PTE_V = 0
  · simp only [if_pos hv] at h
    cases h
  · simp only [if_neg hv, Option.some.injEq, Prod.mk.injEq] at h
    refine ⟨hv, fun hflags => hf ?_⟩
    rw [← h.2, hflags]
    decide

/-- The frames that are freed, as a heap of their own. -/
theorem payloads_of_frees {s : Kmem} {p v n : Nat} {do_free : Bool}
    (h : do_free = true → Frees L s p v n) : ∃ F : Set Nat,
    (∏ w ∈ Finset.Ico v (v + n), payload L do_free (lookup s.mem 2 p w)) ((view L s).restrict F) ∧
    (∀ q ∈ F, ∀ path, tableAt s.mem 2 p path ≠ some q) ∧
    ∀ q ∈ F, ∀ k, freeAt s.mem s.freelist k ≠ some q := by
  cases do_free with
  | false =>
    refine ⟨∅, ?_, fun q hq => absurd hq (Set.notMem_empty q), fun q hq => absurd hq (Set.notMem_empty q)⟩
    have hone : ∏ w ∈ Finset.Ico v (v + n), payload L false (lookup s.mem 2 p w) = 1 :=
      Finset.prod_const_one
    rw [hone, Heap.restrict_empty]
    exact rfl
  | true =>
    have h := h rfl
    refine ⟨⋃ w ∈ Finset.Ico v (v + n), {PTE2PA (lookup s.mem 2 p w)},
      prod_restrict _ (fun w hw => ?_) fun w hw w' hw' hne => ?_, fun q hq path => ?_, fun q hq k => ?_⟩
    · have hw := Finset.mem_Ico.mp hw
      exact ⟨_, page_restrict (h.page w hw.1 hw.2)⟩
    · have hw := Finset.mem_Ico.mp hw
      have hw' := Finset.mem_Ico.mp hw'
      rintro _ rfl heq
      exact hne (h.once w w' hw.1 hw.2 hw'.1 hw'.2 heq)
    · obtain ⟨w, hw, rfl⟩ := Set.mem_iUnion₂.mp hq
      have hw := Finset.mem_Ico.mp hw
      exact h.table w hw.1 hw.2 path
    · obtain ⟨w, hw, rfl⟩ := Set.mem_iUnion₂.mp hq
      have hw := Finset.mem_Ico.mp hw
      exact h.free w hw.1 hw.2 k

theorem unmapsRange {s : Kmem} {p va npages : Nat} {do_free : Bool} (h : PageTree L s p)
    (halign : va % PGSIZE = 0) (hva : va + npages * PGSIZE ≤ MAXVA)
    (hmapped : MappedRange s.mem p (va / PGSIZE) npages)
    (hfree : do_free = true → Frees L s p (va / PGSIZE) npages) :
    UnmapsRange L s p va npages do_free := by
  have hv : va / PGSIZE * PGSIZE = va := Nat.div_mul_cancel (Nat.dvd_of_mod_eq_zero halign)
  have hbound : va / PGSIZE + npages ≤ trampPage + 1 := by
    rw [trampPage_eq]
    unfold MAXVA PGSIZE at *
    omega
  have hleaf : ∀ w, va / PGSIZE ≤ w → w < va / PGSIZE + npages →
      lookup s.mem 2 p w &&& PTE_V ≠ 0 ∧ PTE_FLAGS (lookup s.mem 2 p w) ≠ PTE_V := by
    intro w h1 h2
    obtain ⟨frame, flags, htr, hf⟩ := hmapped w h1 h2
    exact entry_of_translation htr hf
  obtain ⟨F, hF, htable, hlist⟩ := payloads_of_frees hfree
  obtain ⟨rest, hheap⟩ := heap_of_pageTree h hF htable hlist
  obtain ⟨u, t, hrun, hafter⟩ := spec_uvmunmap do_free hleaf hbound _ s hheap
  obtain ⟨htree, hlookup⟩ := pageTree_of_heap hafter
  rw [hv] at hrun
  refine ⟨t, hrun, htree, fun w hw => ?_⟩
  have hentry := hlookup w hw
  unfold cleared at hentry
  unfold unmapRange
  split
  case isTrue hin =>
    rw [if_pos hin] at hentry
    unfold translation
    rw [hentry]
    rfl
  case isFalse hout =>
    rw [if_neg hout] at hentry
    exact translation_congr hentry

/-! ## Both together -/

/-- For every page table that is a tree, with a free list outside of it: `mappages` adds a range
to the map it stands for, or a proper part of it when it fails, and `uvmunmap` takes one away.
The table stays a tree. -/
theorem page_tables_refine_map {s : Kmem} {p : Nat} (h : PageTree L s p) :
    (∀ va size pa perm, 0 < size → va + size - 1 < MAXVA → pa % PGSIZE = 0 →
      pa + pageCount va size * PGSIZE ≤ 2 ^ 64 → perm < 1024 →
      (∀ v, va / PGSIZE ≤ v → v ≤ (va + size - 1) / PGSIZE → translation s.mem p v = none) →
      MapsRange L s p va size pa perm) ∧
    ∀ va npages do_free, va % PGSIZE = 0 → va + npages * PGSIZE ≤ MAXVA →
      MappedRange s.mem p (va / PGSIZE) npages →
      (do_free = true → Frees L s p (va / PGSIZE) npages) →
      UnmapsRange L s p va npages do_free :=
  ⟨fun _ _ _ _ hsize hva hpa hend hperm hfree => mapsRange h hsize hva hpa hend hperm hfree,
    fun _ _ _ halign hva hmapped hfree => unmapsRange h halign hva hmapped hfree⟩

/-- An empty page table in the first page of a small kernel, with two pages on the free list. -/
def twoFree : Kmem where
  mem := putLE (fun _ => 0) (KERNBASE + 2 * PGSIZE) 8 (KERNBASE + 3 * PGSIZE)
  freelist := KERNBASE + 2 * PGSIZE
  oom := []

theorem twoFree_root {x : Nat} (hx : x < 512) : getLE twoFree.mem (KERNBASE + PGSIZE + 8 * x) 8 = 0 := by
  have hdisj : KERNBASE + PGSIZE + 8 * x + 8 ≤ KERNBASE + 2 * PGSIZE := by
    unfold PGSIZE
    omega
  have hmem : twoFree.mem = putLE (fun _ => 0) (KERNBASE + 2 * PGSIZE) 8 (KERNBASE + 3 * PGSIZE) := rfl
  rw [hmem, getLE_putLE_disjoint _ (Or.inr hdisj), getLE_zeros]

theorem twoFree_translation (v : Nat) : translation twoFree.mem (KERNBASE + PGSIZE) v = none := by
  have hroot := twoFree_root (Nat.mod_lt (v / 512 ^ 2) (by decide : 0 < 512))
  rw [translation, lookup, hroot, Nat.zero_and, if_pos rfl]
  rfl

theorem twoFree_tableAt (path : List Nat) :
    tableAt twoFree.mem 2 (KERNBASE + PGSIZE) path = if path = [] then some (KERNBASE + PGSIZE) else none := by
  cases path with
  | nil => rfl
  | cons x path =>
    rw [if_neg (List.cons_ne_nil x path), tableAt]
    apply if_neg
    rintro ⟨hx, hv⟩
    apply hv
    rw [twoFree_root hx, Nat.zero_and]

theorem twoFree_freeAt (k : Nat) : freeAt twoFree.mem twoFree.freelist k =
    if k = 0 then some (KERNBASE + 2 * PGSIZE) else if k = 1 then some (KERNBASE + 3 * PGSIZE) else none := by
  have h1 : getLE twoFree.mem (KERNBASE + 2 * PGSIZE) 8 = KERNBASE + 3 * PGSIZE :=
    getLE_putLE_of_lt (by decide)
  have h2 : getLE twoFree.mem (KERNBASE + 3 * PGSIZE) 8 = 0 :=
    (getLE_putLE_disjoint _ (Or.inl (by decide))).trans (getLE_zeros _ _)
  have hne1 : twoFree.freelist ≠ 0 := by decide
  have hne2 : KERNBASE + 3 * PGSIZE ≠ 0 := by decide
  rcases k with _ | _ | k
  · exact if_neg hne1
  · rw [freeAt, if_neg hne1]
    show freeAt _ (getLE twoFree.mem (KERNBASE + 2 * PGSIZE) 8) 0 = _
    rw [h1]
    exact if_neg hne2
  · rw [freeAt, if_neg hne1]
    show freeAt _ (getLE twoFree.mem (KERNBASE + 2 * PGSIZE) 8) (k + 1) = _
    rw [h1, freeAt, if_neg hne2, h2, freeAt_null, if_neg (by omega), if_neg (by omega)]

theorem twoFree_pageTree : PageTree smallKernel twoFree (KERNBASE + PGSIZE) := by
  have hroot : ∀ path t, tableAt twoFree.mem 2 (KERNBASE + PGSIZE) path = some t →
      path = [] ∧ t = KERNBASE + PGSIZE := by
    intro path t h
    rw [twoFree_tableAt] at h
    split at h
    case isTrue hp => exact ⟨hp, (Option.some.inj h).symm⟩
    case isFalse => cases h
  have hlist : ∀ k q, freeAt twoFree.mem twoFree.freelist k = some q →
      k = 0 ∧ q = KERNBASE + 2 * PGSIZE ∨ k = 1 ∧ q = KERNBASE + 3 * PGSIZE := by
    intro k q h
    rw [twoFree_freeAt] at h
    split at h
    case isTrue hk => exact Or.inl ⟨hk, (Option.some.inj h).symm⟩
    case isFalse =>
      split at h
      case isTrue hk => exact Or.inr ⟨hk, (Option.some.inj h).symm⟩
      case isFalse => cases h
  refine ⟨⟨?_, ?_, ?_⟩, ?_, ?_⟩
  · intro path t h
    rw [(hroot path t h).2]
    decide
  · intro path t h _ x hx hv
    obtain ⟨-, rfl⟩ := hroot path t h
    have hnone := twoFree_tableAt [x]
    rw [tableAt_cons hx hv, if_neg (List.cons_ne_nil x [])] at hnone
    cases hnone
  · intro path path' t h h'
    rw [(hroot path t h).1, (hroot path' t h').1]
  · intro k q h
    rcases hlist k q h with ⟨-, rfl⟩ | ⟨-, rfl⟩
    · refine ⟨by decide, fun path hp => absurd (hroot path _ hp).2 (by decide)⟩
    · refine ⟨by decide, fun path hp => absurd (hroot path _ hp).2 (by decide)⟩
  · intro k k' q h h'
    have h1 := hlist k q h
    have h2 := hlist k' q h'
    unfold PGSIZE at h1 h2
    omega

/-- `mappages` and then `uvmunmap` with `do_free`, and page 1 before and after the second. -/
theorem twoFree_runs : ((mappages (KERNBASE + PGSIZE) 0 PGSIZE (KERNBASE + 3 * PGSIZE)
    (PTE_R ||| PTE_W) twoFree).toOption.bind fun x =>
      (uvmunmap smallKernel (KERNBASE + PGSIZE) 0 1 true x.2).toOption.map fun y =>
        (x.1, translation x.2.mem (KERNBASE + PGSIZE) 1,
          (translation y.2.mem (KERNBASE + PGSIZE) 1).isSome)) = some (0, none, true) := by
  decide +kernel

/-- The page that becomes the lowest table is mapped as user memory as well. -/
theorem twoFree_mapped : ∃ t,
    mappages (KERNBASE + PGSIZE) 0 PGSIZE (KERNBASE + 3 * PGSIZE) (PTE_R ||| PTE_W) twoFree =
      .ok (0, t) ∧ PageTree smallKernel t (KERNBASE + PGSIZE) ∧
    MappedRange t.mem (KERNBASE + PGSIZE) 0 1 := by
  have hmaps : MapsRange smallKernel twoFree (KERNBASE + PGSIZE) 0 PGSIZE (KERNBASE + 3 * PGSIZE)
      (PTE_R ||| PTE_W) := by
    exact mapsRange twoFree_pageTree (by decide) (by decide) (by decide) (by decide) (by decide)
      fun v _ _ => twoFree_translation v
  obtain ⟨r, t, n, hok, ht, hn, htr⟩ := hmaps
  have hrun := twoFree_runs
  rw [hok] at hrun
  obtain ⟨y, -, hy⟩ := Option.map_eq_some_iff.mp hrun
  obtain rfl : r = 0 := congrArg Prod.fst hy
  refine ⟨t, hok, ht, fun w _ hw => ?_⟩
  obtain rfl : w = 0 := by omega
  have hcount : pageCount 0 PGSIZE = 1 := by decide
  refine ⟨_, _, (htr 0 (by decide)).trans (if_pos ⟨by decide, ?_⟩), by decide⟩
  rw [hcount] at hn
  show 0 < 0 + n
  omega

theorem page_tables_refine_map_twoFree :
    MapsRange smallKernel twoFree (KERNBASE + PGSIZE) 0 PGSIZE (KERNBASE + 3 * PGSIZE) (PTE_R ||| PTE_W) ∧
    ∃ t, PageTree smallKernel t (KERNBASE + PGSIZE) ∧
      UnmapsRange smallKernel t (KERNBASE + PGSIZE) 0 1 false := by
  obtain ⟨t, -, ht, hmapped⟩ := twoFree_mapped
  exact ⟨(page_tables_refine_map twoFree_pageTree).1 _ _ _ _ (by decide) (by decide) (by decide)
    (by decide) (by decide) fun v _ _ => twoFree_translation v, t, ht,
    (page_tables_refine_map ht).2 0 1 false (by decide) (by decide) hmapped
      fun h => absurd h (by decide)⟩

/-- `uvmunmap` with `do_free` on a page that maps the table it is mapped by: `kfree` fills the
table with ones, and page 1 is mapped afterwards. -/
theorem unmap_frees_own_table : ∃ t, PageTree smallKernel t (KERNBASE + PGSIZE) ∧
    MappedRange t.mem (KERNBASE + PGSIZE) 0 1 ∧
    ¬UnmapsRange smallKernel t (KERNBASE + PGSIZE) 0 1 true := by
  obtain ⟨t, hok, ht, hmapped⟩ := twoFree_mapped
  refine ⟨t, ht, hmapped, ?_⟩
  rintro ⟨u, hrun, -, htr⟩
  have hcomposed := twoFree_runs
  rw [hok] at hcomposed
  simp only [Except.toOption, Option.bind_some] at hcomposed
  rw [hrun] at hcomposed
  simp only [Option.map_some, Option.some.injEq, Prod.mk.injEq] at hcomposed
  have hone := htr 1 (by decide)
  have hother : unmapRange (translation t.mem (KERNBASE + PGSIZE)) (0 / PGSIZE) 1 1 =
      translation t.mem (KERNBASE + PGSIZE) 1 := if_neg (by decide)
  rw [hother, hcomposed.2.1] at hone
  rw [hone] at hcomposed
  exact absurd hcomposed.2.2 (by decide)

end Xv6.Vm
