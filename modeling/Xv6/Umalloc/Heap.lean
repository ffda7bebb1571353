import Xv6.Umalloc.Model

/-!
# The free list

The free list is a circular list that starts at `base` and goes through the free blocks in
increasing order; each block ends before the next one starts, with a gap. `free` and `carve`
are shown to keep that, and to keep the free blocks and the given live ones a tiling of the
same memory.
-/
namespace Xv6.Umalloc

open Function

set_option autoImplicit false

open Lib (Extent Path Tiles search)

/-- The circular list over `base` and the free blocks `l`. -/
structure FreeList (base : Nat) (h : Heap) (l : List Nat) : Prop where
  path : Path h.ptr base (base :: l) base
  freep : h.freep ∈ base :: l
  size_base : h.size base = 0
  spaced : (base :: l).Pairwise fun a b => a + h.size a < b

/-- The blocks with the given headers. -/
def blocks (size : Nat → Nat) (l : List Nat) : List Extent := l.map fun a => (a, size a)

@[simp] theorem blocks_nil (size : Nat → Nat) : blocks size [] = [] := rfl

@[simp] theorem blocks_cons (size : Nat → Nat) (a : Nat) (l : List Nat) :
    blocks size (a :: l) = (a, size a) :: blocks size l := rfl

theorem mem_blocks {size : Nat → Nat} {l : List Nat} {a : Nat} (ha : a ∈ l) :
    (a, size a) ∈ blocks size l := List.mem_map.mpr ⟨a, ha, rfl⟩

theorem blocks_congr {size size' : Nat → Nat} {l : List Nat} (h : ∀ a ∈ l, size' a = size a) :
    blocks size' l = blocks size l := List.map_congr_left fun a ha => by rw [h a ha]

theorem blocks_update (size : Nat → Nat) {a n : Nat} {l : List Nat} (ha : a ∉ l) :
    blocks (update size a n) (a :: l) = (a, n) :: blocks size l := by
  rw [blocks_cons, update_self, blocks_congr]
  intro b hb
  exact update_of_ne (by rintro rfl; exact ha hb) _ _

theorem blocks_perm (size : Nat → Nat) {l k : List Nat} (h : l.Perm k) :
    (blocks size l).Perm (blocks size k) := h.map _

/-- The headers of a tiling are distinct. -/
theorem nodup_of_tiles {size : Nat → Nat} {l : List Nat} {M : Set Nat}
    (h : Tiles (blocks size l) M) : l.Nodup := by
  have := h.nodup_starts
  rwa [blocks, List.map_map, show (Prod.fst ∘ fun a => (a, size a)) = id from rfl, List.map_id]
    at this

/-- Two blocks of a tiling do not overlap. -/
theorem apart_of_tiles {size : Nat → Nat} {l : List Nat} {M : Set Nat}
    (h : Tiles (blocks size l) M) {a b : Nat} (ha : a ∈ l) (hb : b ∈ l) (hab : a < b) :
    a + size a ≤ b := h.end_le_start (mem_blocks ha) (mem_blocks hb) hab

namespace FreeList

variable {base : Nat} {h : Heap} {l l₁ l₂ : List Nat} {x : Nat}

theorem sorted (hl : FreeList base h l) : (base :: l).Pairwise (· < ·) := by
  refine hl.spaced.imp ?_
  intro a b hab
  omega

theorem nodup (hl : FreeList base h l) : (base :: l).Nodup := hl.sorted.imp ne_of_lt

theorem base_lt (hl : FreeList base h l) (hx : x ∈ l) : base < x :=
  List.rel_of_pairwise_cons hl.sorted hx

/-- The link of a node is the next node, or `base` at the end. -/
theorem ptr_eq (hl : FreeList base h l) (hs : base :: l = l₁ ++ x :: l₂) :
    h.ptr x = l₂.headD base := by
  have hp := hl.path
  rw [hs] at hp
  obtain ⟨y, -, hy⟩ := Path.append.mp hp
  obtain ⟨rfl, hy⟩ := hy
  cases l₂ with
  | nil => exact hy
  | cons z l₂ => exact hy.1.symm

/-- The order of the nodes, around one of them. -/
theorem sorted_split (hl : FreeList base h l) (hs : base :: l = l₁ ++ x :: l₂) :
    (∀ y ∈ l₁, y < x) ∧ ∀ y ∈ l₂, x < y := by
  have hp := hl.sorted
  rw [hs, List.pairwise_append, List.pairwise_cons] at hp
  exact ⟨fun y hy => hp.2.2 y hy x List.mem_cons_self, hp.2.1.1⟩

end FreeList

/-- The size of one node may change as long as the node ends before the next one. -/
theorem spaced_update {size : Nat → Nat} {l₁ l₂ : List Nat} {p n : Nat}
    (h : (l₁ ++ p :: l₂).Pairwise fun a b => a + size a < b) (hn : ∀ y ∈ l₂, p + n < y) :
    (l₁ ++ p :: l₂).Pairwise fun a b => a + update size p n a < b := by
  obtain ⟨h₁, h₂, hcross⟩ := List.pairwise_append.mp h
  obtain ⟨hp, h₂⟩ := List.pairwise_cons.mp h₂
  have hsame : ∀ a, a ≠ p → update size p n a = size a := fun a ha =>
    update_of_ne ha _ _
  have hl₁ : ∀ a ∈ l₁, a ≠ p := by
    rintro a ha rfl
    have := hcross a ha a List.mem_cons_self
    omega
  have hl₂ : ∀ a ∈ l₂, a ≠ p := by
    rintro a ha rfl
    have := hp a ha
    omega
  refine List.pairwise_append.mpr ⟨?_, List.pairwise_cons.mpr ⟨?_, ?_⟩, ?_⟩
  · refine h₁.imp_of_mem fun {a b} ha _ hab => ?_
    rwa [hsame a (hl₁ a ha)]
  · intro y hy
    rw [update_self]
    exact hn y hy
  · refine h₂.imp_of_mem fun {a b} ha _ hab => ?_
    rwa [hsame a (hl₂ a ha)]
  · intro a ha b hb
    rw [hsame a (hl₁ a ha)]
    exact hcross a ha b hb

/-- The free list split where a new block belongs. -/
theorem exists_split {base : Nat} {l : List Nat} {bp : Nat}
    (hs : (base :: l).Pairwise (· < ·)) (hbase : base < bp) (hbp : bp ∉ l) :
    ∃ l₁ p l₂, base :: l = l₁ ++ p :: l₂ ∧ p < bp ∧ ∀ y ∈ l₂, bp < y := by
  induction l generalizing base with
  | nil => exact ⟨[], base, [], rfl, hbase, by simp⟩
  | cons y l ih =>
    obtain ⟨hlt, htail⟩ := List.pairwise_cons.mp hs
    rw [List.mem_cons, not_or] at hbp
    rcases Nat.lt_or_gt_of_ne hbp.1 with hy | hy
    · refine ⟨[], base, y :: l, rfl, hbase, ?_⟩
      intro z hz
      rcases List.mem_cons.mp hz with rfl | hz
      · exact hy
      · exact hy.trans (List.rel_of_pairwise_cons htail hz)
    · obtain ⟨l₁, p, l₂, heq, hp, hl₂⟩ := ih htail hy hbp.2
      exact ⟨base :: l₁, p, l₂, by rw [heq]; rfl, hp, hl₂⟩

section Free

variable {base bp p : Nat} {h : Heap} {l l₁ l₂ live : List Nat} {M : Set Nat}

/-- The loop of `free` ends at the last node before the block. -/
theorem search_place (hl : FreeList base h l) (hs : base :: l = l₁ ++ p :: l₂) (hp : p < bp)
    (hl₂ : ∀ y ∈ l₂, bp < y) (hbase : base < bp) {n : Nat} (hn : l.length < n) :
    search h.ptr (h.place bp) n h.freep = some p := by
  have hfound : h.place bp p = true := by
    have hptr := hl.ptr_eq hs
    cases l₂ with
    | nil =>
      have hle : base ≤ p := by
        have := hl.sorted_split hs
        cases l₁ with
        | nil => cases hs; exact le_refl _
        | cons y l₁ => cases hs; exact (this.1 _ List.mem_cons_self).le
      simp only [List.headD_nil] at hptr
      simp [Heap.place, hptr, hp, hle]
    | cons y l₂ =>
      have := hl₂ y List.mem_cons_self
      simp only [List.headD_cons] at hptr
      simp [Heap.place, hptr, hp, this]
  have hother : ∀ x ∈ l₁ ++ l₂, h.place bp x = false := by
    intro x hx
    rcases List.mem_append.mp hx with hx | hx
    · -- before `p` the next node is not beyond `p`
      obtain ⟨u, v, rfl⟩ := List.append_of_mem hx
      have hs' : base :: l = u ++ x :: (v ++ p :: l₂) := by rw [hs]; simp
      have hptr := hl.ptr_eq hs'
      have hlt := (hl.sorted_split hs').2
      have hle := (hl.sorted_split hs).1
      cases v with
      | nil =>
        have := hlt p (by simp)
        simp only [List.nil_append, List.headD_cons] at hptr
        simp only [Heap.place, hptr, Bool.or_eq_false_iff, Bool.and_eq_false_iff,
          decide_eq_false_iff_not]
        omega
      | cons y v =>
        have := hlt y (by simp)
        have := hle y (by simp)
        simp only [List.cons_append, List.headD_cons] at hptr
        simp only [Heap.place, hptr, Bool.or_eq_false_iff, Bool.and_eq_false_iff,
          decide_eq_false_iff_not]
        omega
    · have hbx := hl₂ x hx
      obtain ⟨u, v, rfl⟩ := List.append_of_mem hx
      have hs' : base :: l = (l₁ ++ p :: u) ++ x :: v := by rw [hs]; simp
      have hptr := hl.ptr_eq hs'
      have hlt := (hl.sorted_split hs').2
      cases v with
      | nil =>
        simp only [List.headD_nil] at hptr
        simp only [Heap.place, hptr, Bool.or_eq_false_iff, Bool.and_eq_false_iff,
          decide_eq_false_iff_not]
        omega
      | cons y v =>
        have := hlt y (by simp)
        simp only [List.headD_cons] at hptr
        simp only [Heap.place, hptr, Bool.or_eq_false_iff, Bool.and_eq_false_iff,
          decide_eq_false_iff_not]
        omega
  have hpath := hl.path
  have hfreep := hl.freep
  have hlen := congrArg List.length hs
  rw [hs] at hpath hfreep
  refine Lib.search_circle hpath hfound hother hfreep ?_
  simp only [List.length_append, List.length_cons] at hlen
  omega

theorem notMem_of_tiles {size : Nat → Nat} {bp : Nat} {l : List Nat}
    (ht : Tiles (blocks size (bp :: l)) M) : bp ∉ l :=
  (List.nodup_cons.mp (nodup_of_tiles ht)).1

/-- Sums of sizes do not wrap in memory of less than `2 ^ 32` units. -/
theorem uint_size {n : Nat} {bs : List Extent} (hM : ∀ x ∈ M, base < x ∧ x < 2 ^ 32)
    (ht : Tiles ((bp, n) :: bs) M) : uint n = n := by
  have hend := ht.end_le (b := (bp, n)) List.mem_cons_self fun x hx => (hM x hx).2
  have hbase := (hM _ (ht.mem_start (b := (bp, n)) List.mem_cons_self)).1
  exact Nat.mod_eq_of_lt (by dsimp only at hend hbase; omega)

/-- The block has been joined with its successor or linked to it, and belongs behind `p`: the
list from `base` to `p`, with the free blocks `k`, and the list from the block on. -/
structure Linked (base : Nat) (h : Heap) (l₁ : List Nat) (p bp : Nat) (k l₂ live : List Nat)
    (M : Set Nat) : Prop where
  split : base :: k = l₁ ++ [p]
  front : Path h.ptr base l₁ p
  back : Path h.ptr bp (bp :: l₂) base
  size_base : h.size base = 0
  spaced : (base :: (k ++ l₂)).Pairwise fun a b => a + h.size a < b
  above : ∀ y ∈ l₂, bp + h.size bp < y
  below : p < bp
  base_below : base < bp
  tiles : Tiles (blocks h.size (bp :: (k ++ l₂ ++ live))) M

variable {k : List Nat}

/-- Only the header of the new block has changed. -/
theorem linked_of {h' : Heap} {l₂' : List Nat} (hl : FreeList base h (k ++ l₂))
    (hs : base :: k = l₁ ++ [p]) (hp : p < bp) (hbase : base < bp) (hbp : bp ∉ k ++ l₂)
    (hlink : ∀ a ≠ bp, h'.ptr a = h.ptr a) (hsize : ∀ a ≠ bp, h'.size a = h.size a)
    (hsub : l₂'.Sublist l₂) (hback : Path h'.ptr bp (bp :: l₂') base)
    (habove : ∀ y ∈ l₂', bp + h'.size bp < y)
    (ht : Tiles (blocks h'.size (bp :: (k ++ l₂' ++ live))) M) :
    Linked base h' l₁ p bp k l₂' live M where
  split := hs
  front := by
    have hpath := hl.path
    rw [← List.cons_append, hs, List.append_assoc] at hpath
    obtain ⟨q, hfront, hq⟩ := Path.append.mp hpath
    obtain rfl : p = q := hq.1
    refine hfront.congr fun x hx => hlink x ?_
    rintro rfl
    have hx' : x ∈ base :: k := hs ▸ List.mem_append_left _ hx
    rcases List.mem_cons.mp hx' with rfl | hk
    · exact lt_irrefl _ hbase
    · exact hbp (List.mem_append_left _ hk)
  back := hback
  size_base := by rw [hsize base hbase.ne, hl.size_base]
  spaced := by
    have hsub' := ((List.Sublist.refl k).append hsub).cons_cons base
    refine (hl.spaced.sublist hsub').imp_of_mem ?_
    intro a b ha _ hab
    have hne : a ≠ bp := by
      rintro rfl
      rcases List.mem_cons.mp (hsub'.subset ha) with rfl | ha
      · exact lt_irrefl _ hbase
      · exact hbp ha
    rwa [hsize a hne]
  above := habove
  below := hp
  base_below := hbase
  tiles := ht

theorem joinNext_spec (hl : FreeList base h (k ++ l₂)) (hs : base :: k = l₁ ++ [p])
    (hp : p < bp) (hl₂ : ∀ y ∈ l₂, bp < y) (hbase : base < bp)
    (hM : ∀ x ∈ M, base < x ∧ x < 2 ^ 32)
    (ht : Tiles (blocks h.size (bp :: (k ++ l₂ ++ live))) M) :
    ∃ l₂', Linked base (h.joinNext bp p) l₁ p bp k l₂' live M ∧ l₂'.length ≤ l₂.length ∧
      h.size bp ≤ (h.joinNext bp p).size bp ∧
      ∀ a ≠ bp, (h.joinNext bp p).size a = h.size a := by
  have hbp : bp ∉ k ++ l₂ := fun hmem => notMem_of_tiles ht (List.mem_append_left _ hmem)
  have hnodes : base :: (k ++ l₂) = l₁ ++ p :: l₂ := by
    rw [← List.cons_append, hs, List.append_assoc]
    rfl
  have hptr := hl.ptr_eq hnodes
  have hpath := hl.path
  rw [hnodes] at hpath
  obtain ⟨q, -, hq, hback⟩ := Path.append.mp hpath
  obtain rfl : p = q := hq
  have hle : ∀ y ∈ l₂, bp + h.size bp ≤ y := fun y hy =>
    apart_of_tiles ht List.mem_cons_self (by simp [hy]) (hl₂ y hy)
  by_cases hadj : bp + h.size bp = h.ptr p
  · -- the successor is a block, and `bp` takes it over
    obtain ⟨y, t, rfl⟩ : ∃ y t, l₂ = y :: t := by
      cases l₂ with
      | nil =>
        simp only [List.headD_nil] at hptr
        omega
      | cons y t => exact ⟨y, t, rfl⟩
    simp only [List.headD_cons] at hptr
    have hjoin : Tiles ((bp, h.size bp + h.size y) :: blocks h.size (k ++ t ++ live)) M := by
      refine Tiles.join (ht.perm ?_)
      rw [hadj, hptr, blocks_cons]
      refine List.Perm.cons _ ?_
      refine blocks_perm h.size (k := y :: (k ++ t ++ live)) ?_
      rw [List.append_assoc, List.append_assoc]
      exact List.perm_middle
    have hfits := uint_size hM hjoin
    rw [Heap.joinNext, if_pos hadj, hptr, hfits]
    refine ⟨t, linked_of hl hs hp hbase hbp ?_ ?_ (List.sublist_cons_self y t) ?_ ?_ ?_,
      by simp, ?_, ?_⟩
    · exact fun a ha => update_of_ne ha _ _
    · exact fun a ha => update_of_ne ha _ _
    · refine ⟨rfl, ?_⟩
      have hbpt : bp ∉ t := fun hmem => hbp (by simp [hmem])
      rw [hptr] at hback
      simpa using hback.2.update hbpt _
    · intro z hz
      have hyz : y + h.size y < z := by
        have := hl.spaced
        rw [hnodes, List.pairwise_append, List.pairwise_cons, List.pairwise_cons] at this
        exact this.2.1.2.1 z hz
      simp only [update_self]
      omega
    · have hbp' : bp ∉ k ++ t ++ live := fun hmem => notMem_of_tiles ht (by
        simp only [List.mem_append, List.mem_cons] at hmem ⊢
        tauto)
      simpa only [blocks_update h.size hbp'] using hjoin
    · simp
    · exact fun a ha => update_of_ne ha _ _
  · rw [Heap.joinNext, if_neg hadj]
    refine ⟨l₂, linked_of hl hs hp hbase hbp ?_ (fun _ _ => rfl) (List.Sublist.refl _)
      ?_ ?_ ht, le_refl _, le_refl _, fun _ _ => rfl⟩
    · exact fun a ha => update_of_ne ha _ _
    · refine ⟨rfl, ?_⟩
      have hbpl : bp ∉ l₂ := fun hmem => hbp (by simp [hmem])
      simpa using hback.update hbpl _
    · -- the first node is not adjacent, the others are behind it
      intro y hy
      show bp + h.size bp < y
      cases l₂ with
      | nil => contradiction
      | cons z t =>
        simp only [List.headD_cons] at hptr
        have hz := hle z List.mem_cons_self
        rcases List.mem_cons.mp hy with rfl | hy
        · omega
        · have := (hl.sorted_split (show _ = (l₁ ++ [p]) ++ z :: t by rw [hnodes]; simp)).2 y hy
          omega

/-- The block `bp` has become part of the free list of at most `n` blocks; the live blocks are
as they were. -/
def Inserted (base : Nat) (h : Heap) (bp : Nat) (live : List Nat) (M : Set Nat) (n : Nat)
    (h' : Heap) : Prop :=
  ∃ l, FreeList base h' l ∧ Tiles (blocks h'.size (l ++ live)) M ∧ l.length ≤ n ∧
    (∀ a ∈ live, h'.size a = h.size a) ∧ ∃ a ∈ l, h.size bp ≤ h'.size a

namespace Linked

theorem nodes (hk : Linked base h l₁ p bp k l₂ live M) : base :: (k ++ l₂) = l₁ ++ p :: l₂ := by
  rw [← List.cons_append, hk.split, List.append_assoc]
  rfl

/-- The predecessor is a block and takes the new one over. -/
theorem join (hk : Linked base h l₁ p bp k l₂ live M) (hM : ∀ x ∈ M, base < x ∧ x < 2 ^ 32)
    (hadj : p + h.size p = bp) :
    Inserted base h bp live M ((k ++ l₂).length + 1)
      { ptr := update h.ptr p (h.ptr bp)
        size := update h.size p (uint (h.size p + h.size bp))
        freep := p } := by
  obtain ⟨k', rfl, rfl⟩ : ∃ k', l₁ = base :: k' ∧ k = k' ++ [p] := by
    have hsplit := hk.split
    cases l₁ with
    | nil =>
      cases hsplit
      have := hk.size_base
      have := hk.base_below
      omega
    | cons a k' =>
      cases hsplit
      exact ⟨k', rfl, rfl⟩
  have hperm : (k' ++ [p] ++ l₂ ++ live).Perm (p :: (k' ++ l₂ ++ live)) := by
    simp only [List.append_assoc]
    exact List.perm_middle
  have hjoin : Tiles ((p, h.size p + h.size bp) :: blocks h.size (k' ++ l₂ ++ live)) M := by
    refine Tiles.join (hk.tiles.perm ?_)
    rw [hadj]
    exact blocks_perm h.size (k := p :: bp :: (k' ++ l₂ ++ live))
      ((hperm.cons bp).trans (List.Perm.swap ..))
  rw [uint_size hM hjoin]
  have hrest : p ∉ k' ++ l₂ ++ live := by
    have := (hperm.cons bp).nodup_iff.mp (nodup_of_tiles hk.tiles)
    exact (List.nodup_cons.mp (List.nodup_cons.mp this).2).1
  simp only [List.mem_append, not_or] at hrest
  have hpb : p ≠ base := by
    rintro rfl
    have := hk.size_base
    have := hk.base_below
    omega
  refine ⟨k' ++ [p] ++ l₂, ⟨?_, by simp, ?_, ?_⟩, ?_, Nat.le_succ _, ?_, p, by simp, ?_⟩
  · -- up to `p`, and from what followed the new block
    rw [hk.nodes]
    refine (hk.front.update (by simp [hpb, hrest.1.1]) _).trans ⟨rfl, ?_⟩
    simpa using hk.back.2.update hrest.1.2 _
  · exact (update_of_ne (Ne.symm hpb) _ _).trans hk.size_base
  · have hspaced := hk.spaced
    rw [hk.nodes] at hspaced ⊢
    refine spaced_update hspaced ?_
    intro y hy
    have := hk.above y hy
    omega
  · refine Tiles.perm ?_ (blocks_perm _ hperm.symm)
    rw [blocks_update h.size (by simpa [and_assoc] using hrest)]
    exact hjoin
  · intro a ha
    exact update_of_ne (by rintro rfl; exact hrest.2 ha) _ _
  · simp

/-- The new block is linked behind its predecessor. -/
theorem link (hk : Linked base h l₁ p bp k l₂ live M) (hadj : p + h.size p ≠ bp) :
    Inserted base h bp live M ((k ++ l₂).length + 1)
      { h with ptr := update h.ptr p bp, freep := p } := by
  have hbp : bp ∉ k ++ l₂ ++ live := notMem_of_tiles hk.tiles
  have hpk : p ∈ base :: k := by
    rw [hk.split]
    simp
  have hspaced := hk.spaced
  rw [hk.nodes, List.pairwise_append, List.pairwise_cons] at hspaced
  obtain ⟨hsp₁, ⟨hspp, hsp₂⟩, hcross⟩ := hspaced
  have hlt : p + h.size p < bp := by
    have hend : p + h.size p ≤ bp := by
      rcases List.mem_cons.mp hpk with rfl | hmem
      · rw [hk.size_base]
        exact hk.base_below.le
      · exact apart_of_tiles hk.tiles (by simp [hmem]) List.mem_cons_self hk.below
    omega
  have hpl₁ : p ∉ l₁ := by
    intro hmem
    have := hcross p hmem p List.mem_cons_self
    omega
  have hpl₂ : p ∉ bp :: l₂ := by
    rw [List.mem_cons, not_or]
    refine ⟨hk.below.ne, fun hmem => ?_⟩
    have := hspp p hmem
    omega
  have hnodes : base :: (k ++ bp :: l₂) = l₁ ++ p :: bp :: l₂ := by
    rw [← List.cons_append, hk.split, List.append_assoc]
    rfl
  refine ⟨k ++ bp :: l₂, ⟨?_, ?_, hk.size_base, ?_⟩, ?_, by simp [Nat.add_assoc], fun _ _ => rfl, bp,
    by simp, le_refl _⟩
  · rw [hnodes]
    refine (hk.front.update hpl₁ _).trans ⟨rfl, ?_⟩
    rw [update_self]
    exact hk.back.update hpl₂ _
  · rw [hnodes]
    simp
  · rw [hnodes, List.pairwise_append, List.pairwise_cons, List.pairwise_cons]
    refine ⟨hsp₁, ⟨?_, hk.above, hsp₂⟩, ?_⟩
    · intro y hy
      rcases List.mem_cons.mp hy with rfl | hy
      · exact hlt
      · exact hspp y hy
    · intro a ha b hb
      have hap := hcross a ha p List.mem_cons_self
      simp only [List.mem_cons] at hb
      rcases hb with rfl | rfl | hb
      · exact hap
      · show a + h.size a < b
        omega
      · exact hcross a ha b (List.mem_cons_of_mem _ hb)
  · refine hk.tiles.perm (blocks_perm _ ?_)
    simp only [List.append_assoc, List.cons_append]
    exact List.perm_middle.symm

end Linked

/-- `free` puts a block into the list, joined with its neighbours, and keeps everything else. -/
theorem free_spec (hl : FreeList base h l) (hbase : base < bp)
    (hM : ∀ x ∈ M, base < x ∧ x < 2 ^ 32)
    (ht : Tiles (blocks h.size (bp :: (l ++ live))) M) {n : Nat} (hn : l.length < n) :
    ∃ h', h.free n bp = some h' ∧ Inserted base h bp live M (l.length + 1) h' := by
  have hbp : bp ∉ l := fun hmem => notMem_of_tiles ht (List.mem_append_left _ hmem)
  obtain ⟨l₁, p, l₂, hs, hp, hl₂⟩ := exists_split hl.sorted hbase hbp
  obtain ⟨k, hk, rfl⟩ : ∃ k, base :: k = l₁ ++ [p] ∧ l = k ++ l₂ := by
    cases l₁ with
    | nil =>
      cases hs
      exact ⟨[], rfl, rfl⟩
    | cons a l₁ =>
      cases hs
      exact ⟨l₁ ++ [p], rfl, by simp⟩
  obtain ⟨l₂', hlinked, hlen, hle, hsize⟩ := joinNext_spec hl hk hp hl₂ hbase hM ht
  have hne : ∀ a ∈ live, a ≠ bp := by
    rintro a ha rfl
    exact notMem_of_tiles ht (List.mem_append_right _ ha)
  refine ⟨_, by rw [Heap.free, search_place hl hs hp hl₂ hbase hn]; rfl, ?_⟩
  have hins : Inserted base (h.joinNext bp p) bp live M ((k ++ l₂').length + 1)
      { (h.joinNext bp p).joinPrev bp p with freep := p } := by
    unfold Heap.joinPrev
    split
    · next hadj => exact hlinked.join hM hadj
    · next hadj => exact hlinked.link hadj
  obtain ⟨l', hl', ht', hlen', hlive, a, ha, hbig⟩ := hins
  rw [List.length_append] at hlen' ⊢
  exact ⟨l', hl', ht', by omega, fun b hb => (hlive b hb).trans (hsize b (hne b hb)), a, ha, hle.trans hbig⟩

end Free

end Xv6.Umalloc
