import Xv6.Vm.Alloc
import Mathlib.Algebra.BigOperators.Intervals

/-!
# Page tables in memory

`tree l p m` owns the page-table pages of a table of level `l` rooted at page `p`;
`m` gives the entry of every page number below it, 0 where nothing is mapped.
`treeAt` is the same table opened at one page number, whose entry lies at a known
address: what `walk` returns. The leaf pages are not part of the tree.
-/
namespace Xv6.Vm

open Lib.Bytes Lib.Sep Lib.Sep.Assn Function

set_option autoImplicit false

/-- The `i`-th entry of the table with the bytes `c`. -/
def entry (c : Mem) (i : Nat) : Nat := getLE c (8 * i) 8

/-- The indices of a table. -/
@[irreducible] def slots : Finset Nat := Finset.range 512

/-- How many page numbers one entry of a table of level `l` stands for. -/
def span (l : Nat) : Nat := 512 ^ l

/-- The part of the map from page number `base` on. -/
def shift (m : Nat → Nat) (base : Nat) : Nat → Nat := fun k => m (base + k)

/-- The entry `e` leads to the table at `t`: it is valid and gives no access of its own. -/
def Branch (e t : Nat) : Prop :=
  e &&& PTE_V ≠ 0 ∧ e &&& (PTE_R ||| PTE_W ||| PTE_X) = 0 ∧ PTE2PA e = t

/-- What an entry `e` of a table above the lowest level leads to: nothing, or a table that
`sub` describes. -/
def slot (sub : Nat → Assn Nat Mem) (empty : Prop) (e : Nat) : Assn Nat Mem :=
  either (fact (e &&& PTE_V = 0 ∧ empty)) (any fun t => fact (Branch e t) * sub t)

variable (L : Layout)

def tree : Nat → Nat → (Nat → Nat) → Assn Nat Mem
  | 0, p, m => any fun c => fact (∀ i < 512, entry c i = m i) * page L p c
  | l + 1, p, m => any fun c => page L p c * ∏ i ∈ slots,
      slot (fun t => tree l t (shift m (i * span (l + 1))))
        (∀ k < span (l + 1), m (i * span (l + 1) + k) = 0) (entry c i)

/-- The slot `i` of a table of level `l + 1`. -/
def slotAt (l : Nat) (m : Nat → Nat) (c : Mem) (i : Nat) : Assn Nat Mem :=
  slot (fun t => tree L l t (shift m (i * span (l + 1))))
    (∀ k < span (l + 1), m (i * span (l + 1) + k) = 0) (entry c i)

/-- The table of level `l + 1` with the bytes `c`, except for what its slot `j` leads to. -/
def around (l p : Nat) (m : Nat → Nat) (c : Mem) (j : Nat) : Assn Nat Mem :=
  page L p c * ∏ i ∈ slots.erase j, slotAt L l m c i

/-- The tree, opened at the page number `v`; its entry lies at address `r`. -/
def treeAt : Nat → Nat → (Nat → Nat) → Nat → Nat → Assn Nat Mem
  | 0, p, m, v, r => fact (r = p + 8 * v) * tree L 0 p m
  | l + 1, p, m, v, r => any fun c => any fun t =>
      fact (Branch (entry c (v / span (l + 1))) t) *
        (treeAt l t (shift m (v / span (l + 1) * span (l + 1))) (v % span (l + 1)) r *
          around L l p m c (v / span (l + 1)))

variable {L}

theorem tree_zero (p : Nat) (m : Nat → Nat) :
    tree L 0 p m = any fun c => fact (∀ i < 512, entry c i = m i) * page L p c := rfl

theorem tree_succ (l p : Nat) (m : Nat → Nat) :
    tree L (l + 1) p m = any fun c => page L p c * ∏ i ∈ slots, slotAt L l m c i := rfl

theorem treeAt_zero (p v r : Nat) (m : Nat → Nat) :
    treeAt L 0 p m v r = fact (r = p + 8 * v) * tree L 0 p m := rfl

theorem treeAt_succ (l p v r : Nat) (m : Nat → Nat) :
    treeAt L (l + 1) p m v r = any fun c => any fun t =>
      fact (Branch (entry c (v / span (l + 1))) t) *
        (treeAt L l t (shift m (v / span (l + 1) * span (l + 1))) (v % span (l + 1)) r *
          around L l p m c (v / span (l + 1))) := rfl

theorem mem_slots {i : Nat} : i ∈ slots ↔ i < 512 := by
  rw [slots]
  exact Finset.mem_range

theorem span_pos (l : Nat) : 0 < span l := Nat.pow_pos (by decide)

theorem span_succ (l : Nat) : span (l + 1) = 512 * span l := by
  unfold span
  rw [Nat.pow_succ, Nat.mul_comm]

theorem slot_lt {l i k : Nat} (hi : i < 512) (hk : k < span (l + 1)) :
    i * span (l + 1) + k < span (l + 2) := by
  have h : (i + 1) * span (l + 1) ≤ 512 * span (l + 1) := Nat.mul_le_mul_right _ hi
  rw [Nat.add_mul] at h
  rw [span_succ (l + 1)]
  omega

theorem index_lt {l v : Nat} (hv : v < span (l + 2)) : v / span (l + 1) < 512 := by
  rw [span_succ (l + 1)] at hv
  exact Nat.div_lt_of_lt_mul (by rw [Nat.mul_comm]; exact hv)

/-! ## Slots -/

/-- The entry that `walk` writes for a new table. -/
theorem branch_new {t : Nat} (ht : t % PGSIZE = 0) : Branch (PA2PTE t ||| PTE_V) t := by
  refine ⟨?_, ?_, PTE2PA_or ht (by decide)⟩
  · rw [or_and_flags t _ (by decide)]
    decide
  · rw [or_and_flags t _ (by decide)]
    decide

theorem one_le_slot {sub : Nat → Assn Nat Mem} {empty : Prop} {e : Nat} (he : e &&& PTE_V = 0)
    (h : empty) : 1 ≤ slot sub empty e := by
  rw [← fact_true (show e &&& PTE_V = 0 ∧ empty from ⟨he, h⟩)]
  exact le_either_left _ _

theorem le_slot {f : Nat → Assn Nat Mem} {empty : Prop} {e t : Nat} (he : Branch e t) : f t ≤ slot f empty e :=
  le_trans (le_any t (le_fact_mul he le_rfl)) (le_either_right _ _)

theorem slot_le {sub : Nat → Assn Nat Mem} {empty : Prop} {e : Nat} {P : Assn Nat Mem}
    (h0 : e &&& PTE_V = 0 → empty → 1 ≤ P) (h1 : ∀ t, Branch e t → sub t ≤ P) :
    slot sub empty e ≤ P := by
  apply either_le
  · rintro h ⟨he, rfl⟩
    exact h0 he.1 he.2 ∅ rfl
  · exact any_le fun t => fact_mul_le (h1 t)

theorem slot_mono {sub sub' : Nat → Assn Nat Mem} {empty empty' : Prop} (e : Nat)
    (hs : ∀ t, sub t ≤ sub' t) (he : empty → empty') : slot sub empty e ≤ slot sub' empty' e :=
  slot_le (fun h0 hz => one_le_slot h0 (he hz)) fun t ht => le_trans (hs t) (le_slot ht)

theorem tree_mono {l p : Nat} {m m' : Nat → Nat} (h : ∀ k < span (l + 1), m k = m' k) :
    tree L l p m ≤ tree L l p m' := by
  induction l generalizing p m m' with
  | zero =>
    rw [tree_zero, tree_zero]
    apply any_le
    intro c
    apply fact_mul_le
    intro hc
    refine le_any c (le_fact_mul ?_ le_rfl)
    intro i hi
    rw [hc i hi, h i hi]
  | succ l ih =>
    rw [tree_succ, tree_succ]
    apply any_le
    intro c
    apply le_any c
    refine mul_le_mul' le_rfl (Finset.prod_le_prod' fun i hi => ?_)
    have hlt : ∀ k < span (l + 1), m (i * span (l + 1) + k) = m' (i * span (l + 1) + k) :=
      fun k hk => h _ (slot_lt (mem_slots.mp hi) hk)
    apply slot_mono
    · intro t
      exact ih hlt
    · intro hz k hk
      rw [← hlt k hk]
      exact hz k hk

/-- A table only depends on the map below it. -/
theorem tree_congr {l p : Nat} {m m' : Nat → Nat} (h : ∀ k < span (l + 1), m k = m' k) :
    tree L l p m = tree L l p m' :=
  le_antisymm (tree_mono h) (tree_mono fun k hk => (h k hk).symm)

theorem tree_le_slotAt {l i t : Nat} {c : Mem} (m : Nat → Nat) (he : Branch (entry c i) t) :
    tree L l t (shift m (i * span (l + 1))) ≤ slotAt L l m c i :=
  le_slot (f := fun t => tree L l t (shift m (i * span (l + 1)))) he

theorem slotAt_congr {l i : Nat} {m m' : Nat → Nat} {c c' : Mem} (he : entry c i = entry c' i)
    (h : ∀ k < span (l + 1), m (i * span (l + 1) + k) = m' (i * span (l + 1) + k)) :
    slotAt L l m c i = slotAt L l m' c' i := by
  unfold slotAt
  rw [he]
  apply le_antisymm
  · exact slot_mono _ (fun t => tree_mono h) fun hz k hk => (h k hk).symm.trans (hz k hk)
  · exact slot_mono _ (fun t => tree_mono fun k hk => (h k hk).symm)
      fun hz k hk => (h k hk).trans (hz k hk)

theorem around_mul_slotAt {l p j : Nat} (m : Nat → Nat) (c : Mem) (hj : j < 512) :
    slotAt L l m c j * around L l p m c j ≤ tree L (l + 1) p m := by
  rw [tree_succ]
  apply le_any c
  unfold around
  rw [mul_left_comm, Finset.mul_prod_erase slots (slotAt L l m c) (mem_slots.mpr hj)]

theorem tree_le_any {l p j : Nat} (m : Nat → Nat) (hj : j < 512) :
    tree L (l + 1) p m ≤ any fun c => slotAt L l m c j * around L l p m c j := by
  rw [tree_succ]
  apply any_le
  intro c
  apply le_any c
  unfold around
  rw [mul_left_comm, Finset.mul_prod_erase slots (slotAt L l m c) (mem_slots.mpr hj)]

/-- The root of a table is a page. -/
theorem tree_isPage (l p : Nat) (m : Nat → Nat) : tree L l p m ≤ fact (L.IsPage p) * tree L l p m := by
  intro h ht
  refine fact_mul.mpr ⟨?_, ht⟩
  cases l with
  | zero =>
    obtain ⟨c, hc⟩ := ht
    exact (fact_mul.mp (fact_mul.mp hc).2).1
  | succ l =>
    obtain ⟨c, hc⟩ := ht
    exact (page_mul_iff.mp hc).1

theorem treeAt_le {l p v r : Nat} {m : Nat → Nat} (hv : v < span (l + 1)) :
    treeAt L l p m v r ≤ tree L l p m := by
  induction l generalizing p v m with
  | zero =>
    rw [treeAt_zero]
    exact fact_mul_le fun _ => le_rfl
  | succ l ih =>
    rw [treeAt_succ]
    apply any_le
    intro c
    apply any_le
    intro t
    apply fact_mul_le
    intro he
    refine le_trans (mul_le_mul' ?_ le_rfl) (around_mul_slotAt m c (index_lt hv))
    exact le_trans (ih (Nat.mod_lt _ (span_pos _))) (tree_le_slotAt m he)

/-! ## The bytes of a table -/

theorem entry_putLE_same {c : Mem} {i e : Nat} (he : e < 256 ^ 8) :
    entry (putLE c (8 * i) 8 e) i = e := getLE_putLE_of_lt he

theorem entry_putLE_ne (c : Mem) {i j : Nat} (e : Nat) (h : j ≠ i) :
    entry (putLE c (8 * i) 8 e) j = entry c j := getLE_putLE_disjoint c (by omega)

theorem entry_filled_zero (i : Nat) : entry (filled 0) i = 0 := by
  have hz : filled 0 = fun _ => 0 := funext fun x => ite_self _
  rw [entry, hz, getLE_zeros]

/-- A zeroed page is a table of any level that maps nothing. -/
theorem filled_le_tree {l p : Nat} {m : Nat → Nat} (h : ∀ k < span (l + 1), m k = 0) :
    page L p (filled 0) ≤ tree L l p m := by
  cases l with
  | zero =>
    rw [tree_zero]
    refine le_any (filled 0) (le_fact_mul ?_ le_rfl)
    intro i hi
    rw [entry_filled_zero, h i (by unfold span; omega)]
  | succ l =>
    rw [tree_succ]
    apply le_any (filled 0)
    have hs : (1 : Assn Nat Mem) ≤ ∏ i ∈ slots, slotAt L l m (filled 0) i := by
      apply Finset.one_le_prod'
      intro i hi
      apply one_le_slot (by rw [entry_filled_zero, Nat.zero_and])
      intro k hk
      exact h _ (slot_lt (mem_slots.mp hi) hk)
    calc page L p (filled 0) = page L p (filled 0) * 1 := (mul_one _).symm
      _ ≤ _ := mul_le_mul' le_rfl hs

/-! ## `walk` -/

/-- What `walk` leaves behind when it returns `r` for the page number `v`. With 0 it has
found no table, and if it was to allocate, there were not the `l` pages it may need. -/
def found (L : Layout) (alloc : Bool) (n l p : Nat) (m : Nat → Nat) (v r : Nat) : Assn Nat Mem :=
  if r = 0 then fact ((alloc = false → m v = 0) ∧ (alloc → n < l)) * tree L l p m
  else treeAt L l p m v r

theorem found_zero (alloc : Bool) (n l p v : Nat) (m : Nat → Nat) :
    found L alloc n l p m v 0 =
      fact ((alloc = false → m v = 0) ∧ (alloc → n < l)) * tree L l p m := if_pos rfl

theorem found_of_ne {r : Nat} (alloc : Bool) (n l p v : Nat) (m : Nat → Nat) (hr : r ≠ 0) :
    found L alloc n l p m v r = treeAt L l p m v r := if_neg hr

/-- What was found below the slot `i` for `v` is found in the whole table. -/
theorem found_mul_around {alloc : Bool} {n n' l p v w r t i : Nat} {m : Nat → Nat} {c : Mem}
    (hi : v / span (l + 1) = i) (hw : v % span (l + 1) = w) (hlt : i < 512)
    (he : Branch (entry c i) t) (hn : n' ≤ n + 1) :
    found L alloc n l t (shift m (i * span (l + 1))) w r * around L l p m c i ≤
      found L alloc n' (l + 1) p m v r := by
  subst hi hw
  by_cases hr : r = 0
  · rw [hr, found_zero, found_zero, mul_assoc]
    apply fact_mul_le
    intro hz
    apply le_fact_mul
    · constructor
      · intro ha
        have h := hz.1 ha
        unfold shift at h
        rw [Nat.div_add_mod'] at h
        exact h
      · intro ha
        have h := hz.2 ha
        omega
    · exact le_trans (mul_le_mul' (tree_le_slotAt m he) le_rfl) (around_mul_slotAt m c hlt)
  · rw [found_of_ne _ _ _ _ _ _ hr, found_of_ne _ _ _ _ _ _ hr, treeAt_succ]
    exact le_any c (le_any t (le_fact_mul he le_rfl))

/-- Filling a slot changes nothing else. -/
theorem around_putLE {l p j e : Nat} (m : Nat → Nat) (c : Mem) :
    page L p (putLE c (8 * j) 8 e) * ∏ i ∈ slots.erase j, slotAt L l m c i =
      around L l p m (putLE c (8 * j) 8 e) j := by
  unfold around
  rw [Finset.prod_congr rfl fun i hi =>
    slotAt_congr (entry_putLE_ne c e (Finset.ne_of_mem_erase hi)).symm fun _ _ => rfl]

/-- A table whose slot `i` is empty. -/
theorem around_le_tree {l p i : Nat} {m : Nat → Nat} {c : Mem} (hlt : i < 512)
    (he : entry c i &&& PTE_V = 0) (hz : ∀ k < span (l + 1), m (i * span (l + 1) + k) = 0) :
    around L l p m c i ≤ tree L (l + 1) p m := by
  refine le_trans ?_ (around_mul_slotAt m c hlt)
  exact le_mul_of_one_le_left' (one_le_slot he hz)

/-- The branch of `walk` at an entry that leads to no table yet. -/
theorem spec_walk_fresh {n va l p v w i : Nat} {m : Nat → Nat} {c : Mem} {alloc : Bool}
    (hi : v / span (l + 1) = i) (hw : v % span (l + 1) = w) (hlt : i < 512)
    (hz : ∀ k < span (l + 1), m (i * span (l + 1) + k) = 0) (he : entry c i &&& PTE_V = 0)
    (ih : ∀ t, Uses L (n - 1) (n - 1 - l) (tree L l t (shift m (i * span (l + 1))))
      (walkLoop va alloc l t) (found L alloc (n - 1) l t (shift m (i * span (l + 1))) w)) :
    Uses L n (n - 1 - l) (around L l p m c i)
      (kalloc >>= fun t => if t = 0 then pure 0 else do
        memset t 0 PGSIZE
        store (p + 8 * i) 8 (PA2PTE t ||| PTE_V)
        walkLoop va alloc l t)
      (found L alloc n (l + 1) p m v) := by
  refine (spec_kalloc n).call (one_mul _).symm fun t => ?_
  split
  case isTrue ht =>
    rw [ht, given_zero]
    apply Triple.of_fact
    intro hn
    apply (Triple.ret _ ?_).weaken (free_mono (by omega))
    rw [found_zero]
    refine le_fact_mul ⟨fun _ => ?_, fun _ => by omega⟩ (around_le_tree hlt he hz)
    have h := hz w (hw ▸ Nat.mod_lt _ (span_pos _))
    rw [← hi, ← hw, Nat.div_add_mod'] at h
    exact h
  case isFalse ht =>
    rw [given_of_ne ht]
    refine (spec_memset t 0).call rfl fun _ => ?_
    apply Triple.pre ?_ (mul_le_mul' (page_isPage t _) le_rfl)
    rw [mul_assoc]
    apply Triple.of_fact
    intro hpage
    have hstore := spec_store (L := L) (n := n - 1) (p := p) (o := 8 * i) (k := 8)
      (v := PA2PTE t ||| PTE_V) (c := c) (by unfold PGSIZE; omega)
    refine hstore.call
      (F := page L t (filled 0) * ∏ j ∈ slots.erase i, slotAt L l m c j)
      (by unfold around; ac_rfl) fun _ => ?_
    rw [mul_left_comm, around_putLE]
    have htree : page L t (filled 0) ≤ tree L l t (shift m (i * span (l + 1))) := filled_le_tree hz
    apply ((ih t).frame _).conseq (mul_le_mul' htree le_rfl)
    intro r
    apply found_mul_around hi hw hlt ?_ (by omega)
    rw [entry_putLE_same (pte_lt hpage.lt (by decide))]
    exact branch_new hpage.1

theorem spec_walkLoop (va : Nat) (alloc : Bool) (n l p : Nat) (m : Nat → Nat) :
    Uses L n (n - l) (tree L l p m) (walkLoop va alloc l p)
      (found L alloc n l p m (va / PGSIZE % span (l + 1))) := by
  induction l generalizing n p m with
  | zero =>
    apply Triple.pre ?_ (tree_isPage 0 p m)
    apply Triple.of_fact
    intro hp
    apply Triple.ret
    have hpos := hp.pos
    rw [found_of_ne _ _ _ _ _ _ (by omega), treeAt_zero]
    apply le_fact_mul ?_ le_rfl
    rw [PX_eq, pow_zero, Nat.div_one, span, Nat.zero_add, pow_one]
  | succ l ih =>
    have hi : va / PGSIZE % span (l + 2) / span (l + 1) = PX (l + 1) va := by
      rw [span_succ (l + 1), Nat.mul_comm, Nat.mod_mul_right_div_self, PX_eq]
      rfl
    have hw : va / PGSIZE % span (l + 2) % span (l + 1) = va / PGSIZE % span (l + 1) :=
      Nat.mod_mod_of_dvd _ (Dvd.intro_left _ (span_succ (l + 1)).symm)
    have hlt := PX_lt (l + 1) va
    rw [walkLoop]
    apply Triple.pre ?_ (tree_le_any m hlt)
    apply Triple.of_any
    intro c
    have hload := spec_load (L := L) (n := n) (p := p) (o := 8 * PX (l + 1) va) (k := 8) (c := c)
      (by unfold PGSIZE; omega)
    refine hload.call (F := slotAt L l m c _ * ∏ i ∈ slots.erase (PX (l + 1) va), slotAt L l m c i)
      (by unfold around; ac_rfl) fun e => ?_
    rw [mul_assoc]
    apply Triple.of_fact
    intro hload
    have he : e = entry c (PX (l + 1) va) := hload
    rw [mul_left_comm, slotAt, slot, either_mul]
    apply Triple.of_either
    · apply Triple.of_fact
      intro hz
      rw [if_neg (by rw [he]; exact fun h => h hz.1)]
      split
      case isTrue ha =>
        apply (Triple.ret _ ?_).weaken (free_mono (by omega))
        rw [found_zero]
        refine le_fact_mul ⟨fun _ => ?_, fun h => ?_⟩ (around_le_tree hlt hz.1 hz.2)
        · have h := hz.2 _ (Nat.mod_lt (va / PGSIZE % span (l + 2)) (span_pos _))
          rw [← hi, Nat.div_add_mod'] at h
          exact h
        · rw [ha] at h
          exact absurd h Bool.false_ne_true
      case isFalse =>
        rw [show n - (l + 1) = n - 1 - l by omega]
        exact spec_walk_fresh hi hw hlt hz.2 hz.1 fun t => ih (n - 1) t _
    · rw [any_mul]
      apply Triple.of_any
      intro t
      rw [mul_assoc]
      apply Triple.of_fact
      intro ht
      rw [he, if_pos ht.1, ht.2.2]
      apply (((ih n t _).frame _).post ?_).weaken (free_mono (by omega))
      intro r
      exact found_mul_around hi hw hlt ht (by omega)

/-- The page numbers below `MAXVA` are those of a table of level 2, and some are left. -/
theorem vpn_lt {va : Nat} (h : va < MAXVA) : va / PGSIZE < span 3 := by
  unfold MAXVA at h
  unfold PGSIZE span
  omega

theorem spec_walk {va : Nat} (alloc : Bool) (n p : Nat) (m : Nat → Nat) (h : va < MAXVA) :
    Uses L n (n - 2) (tree L 2 p m) (walk p va alloc) (found L alloc n 2 p m (va / PGSIZE)) := by
  rw [walk, if_neg (Nat.not_le.mpr h)]
  have hw := spec_walkLoop (L := L) va alloc n 2 p m
  rw [Nat.mod_eq_of_lt (vpn_lt h)] at hw
  exact hw

theorem reads_walkLoop (va l p : Nat) : Reads (walkLoop va false l p) := by
  induction l generalizing p with
  | zero => exact Reads.pure _
  | succ l ih =>
    rw [walkLoop]
    refine (reads_load _ _).bind fun pte => ?_
    split
    · exact ih _
    · rw [if_pos rfl]
      exact Reads.pure _

theorem reads_walk (p va : Nat) : Reads (walk p va false) := by
  unfold walk
  split
  · exact reads_panic _
  · exact reads_walkLoop va 2 p

/-! ## Reading and writing the entry that was found -/

theorem spec_load_at {n l p v r : Nat} {m : Nat → Nat} (hv : v < span (l + 1)) :
    Uses L n n (treeAt L l p m v r) (load r 8) fun e => fact (e = m v) * treeAt L l p m v r := by
  induction l generalizing p v m with
  | zero =>
    have hv : v < 512 := hv
    rw [treeAt_zero]
    apply Triple.of_fact
    intro hr
    rw [tree_zero]
    apply Triple.of_any
    intro c
    apply Triple.of_fact
    intro hc
    rw [hr]
    apply (spec_load (o := 8 * v) (by unfold PGSIZE; omega)).post
    intro e
    apply fact_mul_le
    intro he
    apply le_fact_mul (he.trans (hc v hv))
    exact le_fact_mul rfl (le_any c (le_fact_mul hc le_rfl))
  | succ l ih =>
    rw [treeAt_succ]
    apply Triple.of_any
    intro c
    apply Triple.of_any
    intro t
    apply Triple.of_fact
    intro he
    apply ((ih (Nat.mod_lt _ (span_pos _))).frame _).post
    intro e
    rw [mul_assoc]
    apply fact_mul_le
    intro hm
    unfold shift at hm
    rw [Nat.div_add_mod'] at hm
    exact le_fact_mul hm (le_any c (le_any t (le_fact_mul he le_rfl)))

/-- An update at one page number, seen from the slot for it. -/
theorem shift_update_self {v n : Nat} (m : Nat → Nat) (e : Nat) :
    shift (update m v e) (v / n * n) = update (shift m (v / n * n)) (v % n) e := by
  funext k
  unfold shift
  by_cases hk : k = v % n
  · rw [hk, Nat.div_add_mod', update_self, update_self]
  · have hne : v / n * n + k ≠ v := by
      have := Nat.div_add_mod' v n
      omega
    rw [update_of_ne hne, update_of_ne hk]

/-- The same update is not seen from another slot. -/
theorem update_other_slot {l v i k : Nat} (m : Nat → Nat) (e : Nat) (hi : i ≠ v / span (l + 1))
    (hk : k < span (l + 1)) :
    update m v e (i * span (l + 1) + k) = m (i * span (l + 1) + k) := by
  apply update_of_ne
  intro h
  apply hi
  rw [← h, Nat.mul_comm, Nat.mul_add_div (span_pos _), Nat.div_eq_of_lt hk, Nat.add_zero]

theorem around_update {l p v : Nat} (m : Nat → Nat) (c : Mem) (e : Nat) :
    around L l p m c (v / span (l + 1)) =
      around L l p (update m v e) c (v / span (l + 1)) := by
  unfold around
  rw [Finset.prod_congr rfl fun i hi => slotAt_congr rfl fun k hk =>
    (update_other_slot m e (Finset.ne_of_mem_erase hi) hk).symm]

theorem spec_store_at {n l p v r e : Nat} {m : Nat → Nat} (hv : v < span (l + 1)) (he : e < 256 ^ 8) :
    Uses L n n (treeAt L l p m v r) (store r 8 e) fun _ => treeAt L l p (update m v e) v r := by
  induction l generalizing p v m with
  | zero =>
    have hv : v < 512 := hv
    rw [treeAt_zero]
    apply Triple.of_fact
    intro hr
    rw [tree_zero]
    apply Triple.of_any
    intro c
    apply Triple.of_fact
    intro hc
    rw [hr]
    apply (spec_store (o := 8 * v) (by unfold PGSIZE; omega)).post
    intro _
    refine le_fact_mul rfl (le_any (putLE c (8 * v) 8 e) (le_fact_mul ?_ le_rfl))
    intro i hi
    by_cases hiv : i = v
    · rw [hiv, update_self, entry_putLE_same he]
    · rw [update_of_ne hiv, entry_putLE_ne c e hiv, hc i hi]
  | succ l ih =>
    rw [treeAt_succ]
    apply Triple.of_any
    intro c
    apply Triple.of_any
    intro t
    apply Triple.of_fact
    intro ht
    apply ((ih (Nat.mod_lt _ (span_pos _))).frame _).post
    intro _
    rw [treeAt_succ, shift_update_self, around_update m c e]
    exact le_any c (le_any t (le_fact_mul ht le_rfl))

/-! ## `freewalk` -/

/-- The loop of `freewalk` over the `n` slots from `i` on, when `g` frees what a slot
leads to. -/
theorem spec_freewalkLoop {g : Nat → M Unit} {f : Nat → Nat → Assn Nat Mem}
    {z : Nat → Prop} (hsub : ∀ j < 512, ∀ t, Spec L (f j t) (g t) fun _ => 1)
    (p n i : Nat) (c : Mem) (hn : i + n ≤ 512) :
    Spec L (page L p c * ∏ j ∈ Finset.Ico i (i + n), slot (f j) (z j) (entry c j))
      (freewalkLoop g p n i) fun _ => own L p := by
  induction n generalizing i c with
  | zero =>
    apply Triple.ret
    rw [Nat.add_zero, Finset.Ico_self, Finset.prod_empty, mul_one]
    exact page_le_own p c
  | succ n ih =>
    have hload := spec_load (L := L) (n := 0) (p := p) (o := 8 * i) (k := 8) (c := c)
      (by unfold PGSIZE; omega)
    rw [freewalkLoop, Finset.prod_eq_prod_Ico_succ_bot (by omega)]
    refine hload.call rfl fun e => ?_
    rw [mul_assoc]
    apply Triple.of_fact
    intro he
    have he : e = entry c i := he
    have hrest : i + (n + 1) = i + 1 + n := by omega
    rw [mul_left_comm, hrest, slot, either_mul]
    apply Triple.of_either
    · -- an z slot
      apply Triple.of_fact
      intro hz
      have hV : ¬e &&& PTE_V ≠ 0 := by
        rw [he]
        exact fun h => h hz.1
      rw [if_neg fun h => hV h.1, if_neg hV]
      exact ih (i + 1) c (by omega)
    · -- a table below
      rw [any_mul]
      apply Triple.of_any
      intro t
      rw [mul_assoc]
      apply Triple.of_fact
      intro ht
      rw [he, if_pos ⟨ht.1, ht.2.1⟩, ht.2.2]
      refine (hsub i (by omega) t).call rfl fun _ => ?_
      rw [one_mul]
      have hstore := spec_store (L := L) (n := 0) (p := p) (o := 8 * i) (k := 8) (v := 0) (c := c)
        (by unfold PGSIZE; omega)
      refine hstore.call rfl fun _ => ?_
      rw [Finset.prod_congr rfl fun j hj => by
        rw [← entry_putLE_ne c 0 (show j ≠ i by have := Finset.mem_Ico.mp hj; omega)]]
      exact ih (i + 1) _ (by omega)

theorem prod_slots (f : Nat → Assn Nat Mem) : ∏ i ∈ slots, f i = ∏ i ∈ Finset.Ico 0 (0 + 512), f i := by
  rw [slots, Nat.zero_add, Finset.range_eq_Ico]

/-- `freewalk` gives back every page of a table that maps nothing. -/
theorem spec_freewalk {l p : Nat} {m : Nat → Nat} (h : ∀ k < span (l + 1), m k = 0) :
    Spec L (tree L l p m) (freewalk L (l + 1) p) fun _ => 1 := by
  induction l generalizing p m with
  | zero =>
    rw [tree_zero]
    apply Triple.of_any
    intro c
    apply Triple.of_fact
    intro hc
    have hloop := spec_freewalkLoop (L := L) (g := freewalk L 0)
      (f := fun _ _ => fact False) (z := fun _ => True)
      (fun _ _ _ => by
        rw [← mul_one (fact False)]
        exact Triple.of_fact False.elim)
      p 512 0 c le_rfl
    rw [freewalk]
    refine (hloop.pre ?_).bind fun _ => spec_kfree 0 p
    apply le_mul_of_one_le_right'
    apply Finset.one_le_prod'
    intro i hi
    have hi := Finset.mem_Ico.mp hi
    apply one_le_slot ?_ trivial
    rw [hc i (by omega), h i (by unfold span; omega), Nat.zero_and]
  | succ l ih =>
    rw [tree_succ]
    apply Triple.of_any
    intro c
    have hloop := spec_freewalkLoop (L := L) (g := freewalk L (l + 1))
      (f := fun i t => tree L l t (shift m (i * span (l + 1))))
      (z := fun i => ∀ k < span (l + 1), m (i * span (l + 1) + k) = 0)
      (fun i hi t => ih fun k hk => h _ (slot_lt hi hk)) p 512 0 c le_rfl
    rw [prod_slots, freewalk]
    exact hloop.bind fun _ => spec_kfree 0 p

end Xv6.Vm
