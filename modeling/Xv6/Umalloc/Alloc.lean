import Xv6.Umalloc.Heap
import Mathlib.Data.List.Perm.Subperm

/-!
# Allocation, and runs of a program that uses the heap

`malloc` goes once round the free list; if no block is large enough it asks for more core and
then finds the block that has been freed into the list. The result is cut off the end of a
free block, or is the whole block. Over a run, the free blocks and the live ones tile the
memory that `morecore` has got.
-/
namespace Xv6.Umalloc

open Function

set_option autoImplicit false

open Lib (Extent Path Tiles run run_invariant)

/-! ### Taking a block from the free list -/

section Carve

variable {base prevp p n : Nat} {h : Heap} {l live : List Nat} {M : Set Nat}

/-- A block of the given size has been taken from the free list. -/
def Taken (base : Nat) (h : Heap) (live : List Nat) (M : Set Nat) (n : Nat) (r : Heap × Nat) :
    Prop :=
  ∃ l, FreeList base r.1 l ∧ Tiles (blocks r.1.size (l ++ r.2 :: live)) M ∧ r.1.size r.2 = n ∧
    ∀ a ∈ live, r.1.size a = h.size a

/-- The predecessor of a free block in the list. -/
theorem FreeList.exists_pred (hl : FreeList base h l) (hprev : prevp ∈ base :: l)
    (hptr : h.ptr prevp = p) (hp : p ∈ l) :
    ∃ l₁ l₂, base :: l = l₁ ++ prevp :: p :: l₂ := by
  obtain ⟨l₁, l₂, hs⟩ := List.append_of_mem hprev
  have hnext := hl.ptr_eq hs
  cases l₂ with
  | nil =>
    simp only [List.headD_nil] at hnext
    have := hl.base_lt hp
    omega
  | cons y l₂ =>
    simp only [List.headD_cons] at hnext
    exact ⟨l₁, l₂, by rw [hs, ← hptr, hnext]⟩

/-- The whole block is taken. -/
theorem unlink_spec (hl : FreeList base h l) (hprev : prevp ∈ base :: l)
    (hptr : h.ptr prevp = p) (hp : p ∈ l) (ht : Tiles (blocks h.size (l ++ live)) M) :
    Taken base h live M (h.size p)
      ({ h with ptr := update h.ptr prevp (h.ptr p), freep := prevp }, p) := by
  obtain ⟨l₁, l₂, hs⟩ := hl.exists_pred hprev hptr hp
  obtain ⟨l', hl', hperm⟩ : ∃ l', base :: l' = l₁ ++ prevp :: l₂ ∧ l.Perm (p :: l') := by
    cases l₁ with
    | nil =>
      cases hs
      exact ⟨l₂, rfl, .refl _⟩
    | cons a l₁ =>
      cases hs
      have hmid : ((l₁ ++ [prevp]) ++ p :: l₂).Perm (p :: ((l₁ ++ [prevp]) ++ l₂)) :=
        List.perm_middle
      exact ⟨l₁ ++ prevp :: l₂, rfl, by simpa using hmid⟩
  have hnodup := hl.nodup
  rw [hs, List.nodup_append, List.nodup_cons] at hnodup
  obtain ⟨-, ⟨hn₂, -⟩, hn₁⟩ := hnodup
  rw [List.mem_cons, not_or] at hn₂
  have hpath := hl.path
  rw [hs] at hpath
  obtain ⟨q, hfront, hq⟩ := Path.append.mp hpath
  obtain ⟨rfl, rfl, hback⟩ := hq
  have hsub : (l₁ ++ prevp :: l₂).Sublist (l₁ ++ prevp :: h.ptr prevp :: l₂) :=
    (List.Sublist.refl l₁).append ((List.sublist_cons_self _ l₂).cons_cons prevp)
  refine ⟨l', ⟨?_, ?_, hl.size_base, ?_⟩, ?_, rfl, fun _ _ => rfl⟩
  · rw [hl']
    refine (hfront.update (fun hmem => hn₁ _ hmem _ List.mem_cons_self rfl) _).trans ⟨rfl, ?_⟩
    rw [update_self]
    exact hback.update hn₂.2 _
  · rw [hl']
    simp
  · rw [hl']
    have hspaced := hl.spaced
    rw [hs] at hspaced
    exact hspaced.sublist hsub
  · refine ht.perm (blocks_perm _ ?_)
    exact (hperm.append_right live).trans List.perm_middle.symm

/-- The end of the block is cut off. -/
theorem cut_spec (hl : FreeList base h l) (hprev : prevp ∈ base :: l) (hp : p ∈ l) (hn : 0 < n)
    (hsize : n < h.size p) (ht : Tiles (blocks h.size (l ++ live)) M) :
    Taken base h live M n
      ({ h with
          size := update (update h.size p (h.size p - n)) (p + (h.size p - n)) n
          freep := prevp },
        p + (h.size p - n)) := by
  have hbase := hl.base_lt hp
  have hq : p + (h.size p - n) ∉ l ++ live := by
    intro hmem
    have := apart_of_tiles ht (List.mem_append_left _ hp) hmem (by omega)
    omega
  have hqb : base ≠ p + (h.size p - n) := by omega
  obtain ⟨l₁, l₂, rfl⟩ := List.append_of_mem hp
  have hperm : (l₁ ++ p :: l₂ ++ live).Perm (p :: (l₁ ++ l₂ ++ live)) := by
    simp only [List.append_assoc, List.cons_append]
    exact List.perm_middle
  have hpl : p ∉ l₁ ++ l₂ ++ live :=
    (List.nodup_cons.mp (hperm.nodup_iff.mp (nodup_of_tiles ht))).1
  have hcut : Tiles ((p, h.size p - n) :: (p + (h.size p - n), n) ::
      blocks h.size (l₁ ++ l₂ ++ live)) M := by
    refine Tiles.cut (by omega) hn ?_
    rw [Nat.sub_add_cancel hsize.le]
    exact ht.perm (blocks_perm _ hperm)
  -- the new header is not one of the old ones
  have hsame : ∀ a ∈ base :: (l₁ ++ p :: l₂ ++ live), update
      (update h.size p (h.size p - n)) (p + (h.size p - n)) n a =
        update h.size p (h.size p - n) a := by
    intro a ha
    refine update_of_ne ?_ _ _
    rintro rfl
    rcases List.mem_cons.mp ha with heq | ha
    · omega
    · exact hq ha
  refine ⟨l₁ ++ p :: l₂, ⟨hl.path, hprev, ?_, ?_⟩, ?_, update_self .., ?_⟩
  · dsimp only
    rw [hsame base List.mem_cons_self, update_of_ne hbase.ne]
    exact hl.size_base
  · have hspaced := hl.spaced
    rw [← List.cons_append] at hspaced ⊢
    have hless := spaced_update (n := h.size p - n) hspaced fun y hy => by
      have := (List.pairwise_cons.mp (List.pairwise_append.mp hspaced).2.1).1 y hy
      omega
    refine hless.imp_of_mem fun {a b} ha _ hab => ?_
    dsimp only
    rwa [hsame a (List.mem_append_left live ha)]
  · refine hcut.perm ?_
    have hmove : (p :: (p + (h.size p - n)) :: (l₁ ++ l₂ ++ live)).Perm
        (l₁ ++ p :: l₂ ++ (p + (h.size p - n)) :: live) := by
      refine List.Perm.trans ?_ List.perm_middle.symm
      exact (List.Perm.swap ..).trans (hperm.symm.cons _)
    refine List.Perm.trans (List.Perm.of_eq ?_) (blocks_perm _ hmove)
    simp only [blocks_cons, update_self]
    rw [hsame p (by simp), update_self, blocks_congr]
    intro a ha
    have hap : a ≠ p := by
      rintro rfl
      exact hpl ha
    rw [hsame a, update_of_ne hap]
    exact List.mem_cons_of_mem _ (hperm.mem_iff.mpr (List.mem_cons_of_mem _ ha))
  · intro a ha
    have hap : a ≠ p := by
      rintro rfl
      exact hpl (List.mem_append_right _ ha)
    dsimp only
    rw [hsame a (by simp [ha]), update_of_ne hap]

theorem carve_spec (hl : FreeList base h l) (hprev : prevp ∈ base :: l) (hptr : h.ptr prevp = p)
    (hp : p ∈ l) (hn : 0 < n) (hsize : n ≤ h.size p) (ht : Tiles (blocks h.size (l ++ live)) M) :
    Taken base h live M n (h.carve n prevp p) := by
  unfold Heap.carve
  split
  · next heq =>
    rw [← heq]
    exact unlink_spec hl hprev hptr hp ht
  · exact cut_spec hl hprev hp hn (by omega) ht

end Carve

/-! ### Adding memory -/

/-- The header of a region above all earlier memory has been stored. -/
structure Fresh (base hp n : Nat) (h : Heap) (l live : List Nat) (M : Set Nat) (h' : Heap) : Prop where
  list : FreeList base h' l
  tiles : Tiles (blocks h'.size (hp :: (l ++ live))) (M ∪ Set.Ico hp (hp + n))
  bounds : ∀ x ∈ M ∪ Set.Ico hp (hp + n), base < x ∧ x < 2 ^ 32
  sizes : ∀ a ∈ live, h'.size a = h.size a
  size : h'.size hp = n

section Region

variable {base hp n k : Nat} {h : Heap} {l live : List Nat} {M : Set Nat}

theorem fresh_region (hl : FreeList base h l) (ht : Tiles (blocks h.size (l ++ live)) M)
    (hbase : base < hp) (hM : ∀ x ∈ M, base < x ∧ x < hp) (hn : 0 < n) (hend : hp + n ≤ 2 ^ 32) :
    Fresh base hp n h l live M { h with size := update h.size hp n } := by
  have hne : ∀ a ∈ base :: (l ++ live), a ≠ hp := by
    rintro a ha rfl
    rcases List.mem_cons.mp ha with rfl | ha
    · exact lt_irrefl _ hbase
    · exact lt_irrefl _ (hM a (ht.mem_start (mem_blocks ha))).2
  have hsize : ∀ a ∈ base :: (l ++ live), update h.size hp n a = h.size a := fun a ha =>
    update_of_ne (hne a ha) _ _
  refine ⟨⟨hl.path, hl.freep, ?_, ?_⟩, ?_, ?_, fun b hb => hsize b (by simp [hb]),
    update_self ..⟩
  · exact (hsize base List.mem_cons_self).trans hl.size_base
  · refine hl.spaced.imp_of_mem fun {a b} ha _ hab => ?_
    dsimp only
    rwa [hsize a (List.mem_append_left live ha)]
  · dsimp only
    rw [blocks_update h.size (fun hin => hne hp (List.mem_cons_of_mem _ hin) rfl)]
    exact ht.add hn fun x hx => (hM x hx).2
  · rintro x (hx | ⟨hx, hx'⟩)
    · have := hM x hx
      omega
    · omega

/-- A region above all earlier memory becomes part of the free list. -/
theorem Fresh.free {h' : Heap} (hf : Fresh base hp n h l live M h') (hbase : base < hp)
    (hk : l.length < k) :
    ∃ h'' l', h'.free k hp = some h'' ∧ FreeList base h'' l' ∧
      Tiles (blocks h''.size (l' ++ live)) (M ∪ Set.Ico hp (hp + n)) ∧
      l'.length ≤ l.length + 1 ∧ (∀ a ∈ live, h''.size a = h.size a) ∧ ∃ a ∈ l', n ≤ h''.size a := by
  obtain ⟨h'', hfree, l', hl', ht', hlen, hlive, a, ha, hbig⟩ :=
    free_spec hf.list hbase hf.bounds hf.tiles hk
  exact ⟨h'', l', hfree, hl', ht', hlen, fun b hb => (hlive b hb).trans (hf.sizes b hb), a, ha,
    hf.size ▸ hbig⟩

end Region

/-! ### The heap of a process -/

/-- The memory that `morecore` has got. -/
def Sys.memory (s : Sys) : Set Nat := {x | ∃ r ∈ s.regions, r.1 ≤ x ∧ x < r.1 + r.2}

/-- The free list has been made, and `l` are the free blocks. -/
structure Inv (base : Nat) (s : Sys) (l : List Nat) : Prop where
  list : FreeList base s.toHeap l
  tiles : Tiles (blocks s.size (l ++ s.live)) s.memory
  bounds : ∀ x ∈ s.memory, base < x ∧ x < s.brk
  base_pos : 0 < base
  base_lt : base < s.brk

namespace Inv

variable {base : Nat} {s s' : Sys} {l : List Nat}

theorem mem_memory (h : Inv base s l) {a : Nat} (ha : a ∈ l ++ s.live) : a ∈ s.memory :=
  h.tiles.mem_start (mem_blocks ha)

theorem length_le (h : Inv base s l) : l.length ≤ s.brk := by
  have hsub : l ⊆ List.range s.brk := fun a ha =>
    List.mem_range.mpr (h.bounds a (h.mem_memory (List.mem_append_left _ ha))).2
  have hnd : l.Nodup := (List.nodup_cons.mp h.list.nodup).2
  simpa using (List.subperm_of_subset hnd hsub).length_le

theorem freep_ne_zero (h : Inv base s l) : s.freep ≠ 0 := by
  have hb := h.base_pos
  rcases List.mem_cons.mp h.list.freep with heq | hmem
  · omega
  · have := h.list.base_lt hmem
    omega

/-- `free` of a live block. -/
theorem free (h : Inv base s l) (hbrk : s.brk ≤ 2 ^ 32) {bp : Nat} (hbp : bp ∈ s.live) :
    ∃ h' l', s.toHeap.free s.fuel bp = some h' ∧
      Inv base { s with toHeap := h', live := s.live.erase bp } l' ∧
      ∀ a ∈ s.live.erase bp, h'.size a = s.size a := by
  have hmem := h.mem_memory (List.mem_append_right l hbp)
  have ht : Tiles (blocks s.size (bp :: (l ++ s.live.erase bp))) s.memory := by
    refine h.tiles.perm (blocks_perm _ ?_)
    exact ((List.perm_cons_erase hbp).append_left l).trans List.perm_middle
  have hlen := h.length_le
  obtain ⟨h', hfree, l', hl', ht', -, hlive, -⟩ := free_spec (n := s.fuel) h.list (h.bounds bp hmem).1
    (fun x hx => ⟨(h.bounds x hx).1, (h.bounds x hx).2.trans_le hbrk⟩) ht
    (by unfold Sys.fuel; omega)
  exact ⟨h', l', hfree, ⟨hl', ht', h.bounds, h.base_pos, h.base_lt⟩, hlive⟩

/-- What `morecore` asks `sbrk` for. -/
def core (nu : Nat) : Nat := if nu < 4096 then 4096 else nu

/-- `morecore` adds a region as a free block. -/
theorem morecore (h : Inv base s l) {nu hp : Nat} (hhp : s.brk ≤ hp) (hbrk : hp + core nu ≤ 2 ^ 32) :
    ∃ s' l', s.morecore nu (some hp) = some (s', some s'.freep) ∧ Inv base s' l' ∧
      l'.length ≤ l.length + 1 ∧ s'.brk = hp + core nu ∧ s'.live = s.live ∧ (∀ a ∈ s.live, s'.size a = s.size a) ∧
      ∃ a ∈ l', nu ≤ s'.size a := by
  have hpos : 4096 ≤ core nu ∧ nu ≤ core nu := by
    unfold core
    split <;> omega
  have hlen := h.length_le
  have hbase := h.base_lt
  have hfresh := fresh_region h.list h.tiles (hbase.trans_le hhp)
    (fun x hx => ⟨(h.bounds x hx).1, (h.bounds x hx).2.trans_le hhp⟩)
    (show 0 < core nu by omega) hbrk
  obtain ⟨h', l', hfree, hl', ht', hlen', hlive, a, ha, hbig⟩ :=
    hfresh.free (k := hp + core nu + 2) (hbase.trans_le hhp) (by omega)
  let s' : Sys := { s with
    toHeap := h'
    brk := hp + core nu
    regions := (hp, core nu) :: s.regions }
  have hmem : s'.memory = s.memory ∪ Set.Ico hp (hp + core nu) := by
    ext x
    simp only [Sys.memory, s', Set.mem_ofPred_eq, List.exists_mem_cons_iff, Set.mem_union,
      Set.mem_Ico]
    exact or_comm
  have hbounds : ∀ x ∈ s'.memory, base < x ∧ x < s'.brk := by
    intro x hx
    rw [hmem] at hx
    rcases hx with hx | ⟨hx, hx'⟩
    · have := h.bounds x hx
      exact ⟨this.1, by show x < hp + core nu; omega⟩
    · exact ⟨by omega, hx'⟩
  refine ⟨s', l', ?_, ⟨hl', by rw [hmem]; exact ht', hbounds, h.base_pos, ?_⟩, hlen', rfl, rfl, hlive,
    a, ha, hpos.2.trans hbig⟩
  · show (if s.brk ≤ hp then Option.map _ (Heap.free _ (hp + core nu + 2) hp) else none) = _
    rw [if_pos hhp]
    exact congrArg (Option.map _) hfree
  · show base < hp + core nu
    omega

end Inv

/-- A call of `malloc` has returned a block of `n` units. -/
structure Got (base : Nat) (s s' : Sys) (n : Nat) : Prop where
  ret : 0 < s'.ret
  live : s'.live = s'.ret :: s.live
  size : s'.size s'.ret = n
  sizes : ∀ a ∈ s.live, s'.size a = s.size a
  inv : ∃ l, Inv base s' l

section Loop

variable {base n : Nat} {s s' : Sys} {l : List Nat} {replies : List (Option Nat)}

/-- What the loop does at `freep` when no block is large enough. -/
def more (n m : Nat) (s : Sys) (replies : List (Option Nat)) : Option Sys :=
  match replies with
  | [] => none
  | reply :: replies =>
    match s.morecore n reply with
    | none => none
    | some (s, none) => some { s with ret := 0 }
    | some (s, some p) => s.mallocLoop n m replies p (s.ptr p)

/-- The block is taken with its predecessor known. -/
def taken (n : Nat) (s : Sys) (prevp p : Nat) : Sys :=
  let r := s.carve n prevp p
  { s with toHeap := r.1, live := r.2 :: s.live, ret := r.2 }

theorem mallocLoop_succ (m prevp p : Nat) :
    s.mallocLoop n (m + 1) replies prevp p =
      if n ≤ s.size p then some (taken n s prevp p)
      else if p = s.freep then more n m s replies
      else s.mallocLoop n m replies p (s.ptr p) := by
  cases replies <;> rfl

/-- Along the list the loop takes the first block that is large enough, or arrives at
`freep`. -/
theorem mallocLoop_path (replies : List (Option Nat)) {r : List Nat} {prevp p m : Nat}
    (nodes : List Nat) (hr : Path s.ptr p r s.freep) (hne : s.freep ∉ r) (hprev : prevp ∈ nodes)
    (hptr : s.ptr prevp = p) (hsub : ∀ x ∈ r, x ∈ nodes) :
    (∃ q x, q ∈ nodes ∧ x ∈ s.freep :: r ∧ s.ptr q = x ∧ n ≤ s.size x ∧
      s.mallocLoop n (r.length + (m + 1)) replies prevp p = some (taken n s q x)) ∨
    (∀ x ∈ s.freep :: r, s.size x < n) ∧
      s.mallocLoop n (r.length + (m + 1)) replies prevp p = more n m s replies := by
  induction r generalizing prevp p with
  | nil =>
    obtain rfl : p = s.freep := hr
    by_cases hsize : n ≤ s.size s.freep
    · refine .inl ⟨prevp, s.freep, hprev, List.mem_cons_self, hptr, hsize, ?_⟩
      rw [List.length_nil, Nat.zero_add, mallocLoop_succ, if_pos hsize]
    · refine .inr ⟨by simp; omega, ?_⟩
      rw [List.length_nil, Nat.zero_add, mallocLoop_succ, if_neg hsize, if_pos rfl]
  | cons y r ih =>
    obtain ⟨rfl, hr⟩ := hr
    rw [List.length_cons, Nat.add_right_comm]
    by_cases hsize : n ≤ s.size y
    · refine .inl ⟨prevp, y, hprev, by simp, hptr, hsize, ?_⟩
      rw [mallocLoop_succ, if_pos hsize]
    · have hyf : y ≠ s.freep := by
        rintro rfl
        exact hne List.mem_cons_self
      rw [mallocLoop_succ, if_neg hsize, if_neg hyf]
      rcases ih hr (fun hmem => hne (List.mem_cons_of_mem _ hmem)) (hsub y List.mem_cons_self) rfl
        (fun x hx => hsub x (List.mem_cons_of_mem _ hx)) with ⟨q, x, hq, hx, hfound⟩ | ⟨hsmall, heq⟩
      · refine .inl ⟨q, x, hq, ?_, hfound⟩
        simp only [List.mem_cons] at hx ⊢
        tauto
      · refine .inr ⟨?_, heq⟩
        intro x hx
        simp only [List.mem_cons] at hx hsmall
        rcases hx with hx | hx | hx
        · exact hsmall x (.inl hx)
        · subst hx
          omega
        · exact hsmall x (.inr hx)

/-- The list, read from behind `freep` up to `freep`. -/
theorem FreeList.round {h : Heap} (hl : FreeList base h l) :
    ∃ r, Path h.ptr (h.ptr h.freep) r h.freep ∧ h.freep ∉ r ∧ r.length = l.length ∧
      ∀ x, x ∈ base :: l ↔ x ∈ h.freep :: r := by
  obtain ⟨l₁, l₂, hs⟩ := List.append_of_mem hl.freep
  have hpath := hl.path
  rw [hs] at hpath
  obtain ⟨q, h₁, h₂⟩ := Path.append.mp hpath
  obtain rfl : h.freep = q := h₂.1
  have hnodup := hl.nodup
  rw [hs] at hnodup
  have hperm : (l₁ ++ h.freep :: l₂).Perm (h.freep :: (l₂ ++ l₁)) :=
    List.perm_middle.trans (List.perm_append_comm.cons _)
  refine ⟨l₂ ++ l₁, h₂.2.trans h₁, (List.nodup_cons.mp (hperm.nodup_iff.mp hnodup)).1, ?_, ?_⟩
  · have hlen := congrArg List.length hs
    simp only [List.length_cons, List.length_append] at hlen ⊢
    omega
  · intro x
    rw [hs]
    exact hperm.mem_iff

theorem got_taken (h : Inv base s l) (hn : 0 < n) {q x : Nat} (hq : q ∈ base :: l)
    (hx : x ∈ base :: l) (hptr : s.ptr q = x) (hsize : n ≤ s.size x) :
    Got base s (taken n s q x) n := by
  have hxl : x ∈ l := by
    rcases List.mem_cons.mp hx with rfl | hx
    · have := h.list.size_base
      omega
    · exact hx
  obtain ⟨l', hl', ht', hret, hlive⟩ := carve_spec h.list hq hptr hxl hn hsize h.tiles
  have hinv : Inv base (taken n s q x) l' := ⟨hl', ht', h.bounds, h.base_pos, h.base_lt⟩
  refine ⟨?_, rfl, hret, hlive, l', hinv⟩
  have := h.base_pos
  have := (h.bounds _ (hinv.mem_memory (a := (taken n s q x).ret) (by simp [taken]))).1
  omega

/-- One round of the loop. -/
theorem mallocLoop_round (replies : List (Option Nat)) (h : Inv base s l) (hn : 0 < n) (m : Nat) :
    (∃ s', s.mallocLoop n (l.length + (m + 1)) replies s.freep (s.ptr s.freep) = some s' ∧
      s'.brk = s.brk ∧ Got base s s' n) ∨
    (∀ x ∈ base :: l, s.size x < n) ∧
      s.mallocLoop n (l.length + (m + 1)) replies s.freep (s.ptr s.freep) = more n m s replies := by
  obtain ⟨r, hr, hne, hlen, hmem⟩ := h.list.round
  rw [← hlen]
  rcases mallocLoop_path (n := n) replies (m := m) (base :: l) hr hne
    h.list.freep rfl (fun x hx => (hmem x).mpr (List.mem_cons_of_mem _ hx)) with
    ⟨q, x, hq, hx, hptr, hsize, heq⟩ | ⟨hsmall, heq⟩
  · exact .inl ⟨_, heq, rfl, got_taken h hn hq ((hmem x).mpr hx) hptr hsize⟩
  · exact .inr ⟨fun x hx => hsmall x ((hmem x).mp hx), heq⟩

/-- What a call of `malloc` for `n` units does: it returns a block, or 0 and nothing has
changed. -/
def Mallocs (base : Nat) (s s' : Sys) (n : Nat) : Prop :=
  Got base s s' n ∨ s' = { s with ret := 0 }

theorem more_spec (h : Inv base s l) (hn : 0 < n) {m : Nat} (hm : s.brk + 1 < m)
    {reply : Option Nat} (hreply : ∀ hp, reply = some hp → s.brk ≤ hp ∧ hp + Inv.core n ≤ 2 ^ 32) :
    ∃ s', more n m s (reply :: replies) = some s' ∧ Mallocs base s s' n := by
  cases reply with
  | none => exact ⟨_, rfl, .inr rfl⟩
  | some hp =>
    obtain ⟨hhp, hbrk⟩ := hreply hp rfl
    obtain ⟨s₁, l₁, hcore, hinv, hlen, -, hlive, hsizes, a, ha, hbig⟩ := h.morecore hhp hbrk
    have hle := h.length_le
    obtain ⟨k, rfl⟩ : ∃ k, m = l₁.length + (k + 1) := ⟨m - l₁.length - 1, by omega⟩
    simp only [more, hcore]
    -- the new block is large enough, so that the second round finds one
    rcases mallocLoop_round replies hinv hn k with ⟨s', heq, -, hgot⟩ | ⟨hsmall, -⟩
    · refine ⟨s', heq, .inl ⟨hgot.ret, ?_, hgot.size, ?_, hgot.inv⟩⟩
      · rw [hgot.live, hlive]
      · intro b hb
        rw [hgot.sizes b (by rw [hlive]; exact hb), hsizes b hb]
    · have := hsmall a (List.mem_cons_of_mem _ ha)
      omega

/-- `malloc` returns, whatever `sbrk` answers. -/
theorem malloc_loop (replies : List (Option Nat)) (h : Inv base s l) (hn : 0 < n) {reply : Option Nat}
    (hreply : ∀ hp, reply = some hp → s.brk ≤ hp ∧ hp + Inv.core n ≤ 2 ^ 32) :
    ∃ s', s.mallocLoop n (2 * s.fuel) (reply :: replies) s.freep (s.ptr s.freep) = some s' ∧
      Mallocs base s s' n := by
  have hle := h.length_le
  obtain ⟨m, hm, hm'⟩ : ∃ m, 2 * s.fuel = l.length + (m + 1) ∧ s.brk + 1 < m :=
    ⟨2 * s.fuel - l.length - 1, by unfold Sys.fuel; omega, by unfold Sys.fuel; omega⟩
  rw [hm]
  rcases mallocLoop_round (reply :: replies) h hn m with ⟨s', heq, -, hgot⟩ | ⟨-, heq⟩
  · exact ⟨s', heq, .inl hgot⟩
  · rw [heq]
    exact more_spec h hn hm' hreply

theorem morecore_some {nu hp : Nat} {r : Option Nat} (hs : s.morecore nu (some hp) = some (s', r)) :
    s.brk ≤ hp ∧ s'.brk = hp + Inv.core nu := by
  simp only [Sys.morecore, Option.ite_none_right_eq_some, Option.map_eq_some_iff,
    Prod.mk.injEq] at hs
  obtain ⟨hle, h', -, rfl, -⟩ := hs
  exact ⟨hle, rfl⟩

theorem brk_le_mallocLoop {m prevp p : Nat}
    (hs : s.mallocLoop n m replies prevp p = some s') : s.brk ≤ s'.brk := by
  induction m generalizing s replies prevp p with
  | zero => contradiction
  | succ m ih =>
    rw [mallocLoop_succ] at hs
    split at hs
    · cases hs
      exact le_refl _
    · split at hs
      · unfold more at hs
        rcases replies with _ | ⟨_ | hp, replies⟩
        · contradiction
        · cases hs
          exact le_refl _
        · dsimp only at hs
          split at hs
          · contradiction
          · next heq =>
            obtain ⟨hle, hbrk⟩ := morecore_some heq
            cases hs
            dsimp only
            omega
          · next heq =>
            obtain ⟨hle, hbrk⟩ := morecore_some heq
            have := ih hs
            omega
      · exact ih hs

/-- Every call of `malloc` that returns has done what it should, if memory stays small. -/
theorem malloc_loop_some (h : Inv base s l) (hn : 0 < n)
    (hs : s.mallocLoop n (2 * s.fuel) replies s.freep (s.ptr s.freep) = some s')
    (hbrk : s'.brk ≤ 2 ^ 32) : Mallocs base s s' n := by
  have hle := h.length_le
  obtain ⟨m, hm⟩ : ∃ m, 2 * s.fuel = l.length + (m + 1) :=
    ⟨2 * s.fuel - l.length - 1, by unfold Sys.fuel; omega⟩
  rcases replies with _ | ⟨reply, replies⟩
  · rw [hm] at hs
    rcases mallocLoop_round [] h hn m with ⟨t, heq, -, hgot⟩ | ⟨-, heq⟩
    · rw [heq] at hs
      cases hs
      exact .inl hgot
    · rw [heq] at hs
      contradiction
  · by_cases hreply : ∀ hp, reply = some hp → s.brk ≤ hp ∧ hp + Inv.core n ≤ 2 ^ 32
    · obtain ⟨t, heq, hmal⟩ := malloc_loop replies h hn hreply
      rw [heq] at hs
      cases hs
      exact hmal
    · -- an answer of `sbrk` that is refused, or that is beyond the bound
      rw [hm] at hs
      rcases mallocLoop_round (reply :: replies) h hn m with ⟨t, heq, -, hgot⟩ | ⟨-, heq⟩
      · rw [heq] at hs
        cases hs
        exact .inl hgot
      · rw [heq] at hs
        push Not at hreply
        obtain ⟨hp, rfl, hfar⟩ := hreply
        unfold more at hs
        dsimp only at hs
        split at hs
        · contradiction
        · next hcore =>
          obtain ⟨hhp, hbrk₁⟩ := morecore_some hcore
          have := hfar hhp
          cases hs
          dsimp only at hbrk
          omega
        · next hcore =>
          obtain ⟨hhp, hbrk₁⟩ := morecore_some hcore
          have := hfar hhp
          have := brk_le_mallocLoop hs
          omega

end Loop

/-! ### Runs -/

/-- The list has not been made yet, or it is as it should be. -/
structure Good (base : Nat) (s : Sys) : Prop where
  base_pos : 0 < base
  base_lt : base < s.brk
  fresh : s.freep = 0 → s.live = [] ∧ s.regions = []
  inv : s.freep ≠ 0 → ∃ l, Inv base s l

namespace Good

variable {base : Nat} {s s' : Sys}

theorem of_inv {l : List Nat} (h : Inv base s l) : Good base s :=
  ⟨h.base_pos, h.base_lt, fun h0 => absurd h0 h.freep_ne_zero, fun _ => ⟨l, h⟩⟩

/-- The list that `malloc` starts with. -/
theorem start (h : Good base s) :
    ∃ l, Inv base (s.start base) l ∧ (s.start base).live = s.live ∧
      (s.start base).brk = s.brk ∧ ∀ a ∈ s.live, (s.start base).size a = s.size a := by
  unfold Sys.start
  split
  · next h0 =>
    obtain ⟨hlive, hregions⟩ := h.fresh h0
    refine ⟨[], ⟨⟨?_, ?_, ?_, ?_⟩, ?_, ?_, h.base_pos, h.base_lt⟩, rfl, rfl, by simp [hlive]⟩
    · exact ⟨rfl, by simp [Lib.Path]⟩
    · simp
    · simp
    · simp
    · simp only [hlive, List.append_nil, blocks_nil]
      convert Tiles.nil
      ext x
      simp [Sys.memory, hregions]
    · simp [Sys.memory, hregions]
  · next h0 =>
    obtain ⟨l, hl⟩ := h.inv h0
    exact ⟨l, hl, rfl, rfl, fun _ _ => rfl⟩

theorem nunits_pos (nbytes : UInt32) : 0 < Sys.nunits nbytes := by
  unfold Sys.nunits
  omega

theorem malloc (h : Good base s) {nbytes : UInt32} {replies : List (Option Nat)}
    (hs : step base s (.malloc nbytes replies) = some s') (hbrk : s'.brk ≤ 2 ^ 32) :
    Good base s' := by
  obtain ⟨l, hl, -, -, -⟩ := h.start
  rcases malloc_loop_some hl (nunits_pos nbytes) hs hbrk with hgot | rfl
  · obtain ⟨l', hl'⟩ := hgot.inv
    exact of_inv hl'
  · exact of_inv (l := l) ⟨hl.list, hl.tiles, hl.bounds, hl.base_pos, hl.base_lt⟩

theorem brk_le_step {a : Act} (hs : step base s a = some s') : s.brk ≤ s'.brk := by
  cases a with
  | malloc nbytes replies =>
    refine le_trans ?_ (brk_le_mallocLoop hs)
    unfold Sys.start
    split <;> exact le_refl _
  | free bp =>
    simp only [step, Option.ite_none_right_eq_some, Option.map_eq_some_iff] at hs
    obtain ⟨-, h', -, rfl⟩ := hs
    exact le_refl _
  | store a ptr size =>
    simp only [step, Option.ite_none_right_eq_some, Option.some.injEq] at hs
    obtain ⟨-, rfl⟩ := hs
    exact le_refl _
  | sbrk n =>
    cases hs
    exact Nat.le_add_right _ _

/-- A store into a live block does not touch a header. -/
theorem store (h : Good base s) {a ptr size : Nat}
    (hs : step base s (.store a ptr size) = some s') : Good base s' := by
  simp only [step, Option.ite_none_right_eq_some, Option.some.injEq] at hs
  obtain ⟨⟨bp, hbp, hlt, hlt'⟩, rfl⟩ := hs
  refine ⟨h.base_pos, h.base_lt, h.fresh, fun h0 => ?_⟩
  obtain ⟨l, hl⟩ := h.inv h0
  have hne : ∀ b ∈ base :: (l ++ s.live), b ≠ a := by
    rintro b hb rfl
    rcases List.mem_cons.mp hb with rfl | hb
    · have := (hl.bounds bp (hl.mem_memory (List.mem_append_right _ hbp))).1
      omega
    · have := apart_of_tiles hl.tiles (List.mem_append_right l hbp) hb hlt
      omega
  have hnode : ∀ b ∈ base :: l, b ≠ a := fun b hb => hne b (List.mem_append_left s.live hb)
  refine ⟨l, ⟨⟨?_, hl.list.freep, ?_, ?_⟩, ?_, hl.bounds, hl.base_pos, hl.base_lt⟩⟩
  · exact hl.list.path.update (fun hmem => hnode a hmem rfl) _
  · exact (update_of_ne (hnode base List.mem_cons_self) _ _).trans hl.list.size_base
  · refine hl.list.spaced.imp_of_mem fun {b c} hb _ hbc => ?_
    dsimp only
    rwa [update_of_ne (hnode b hb)]
  · dsimp only
    rw [blocks_congr fun b hb => update_of_ne (hne b (List.mem_cons_of_mem _ hb)) _ _]
    exact hl.tiles

theorem free (h : Good base s) (hbrk : s.brk ≤ 2 ^ 32) {bp : Nat} (hbp : bp ∈ s.live) :
    ∃ s', step base s (.free bp) = some s' ∧ Good base s' := by
  have h0 : s.freep ≠ 0 := by
    intro h0
    rw [(h.fresh h0).1] at hbp
    contradiction
  obtain ⟨l, hl⟩ := h.inv h0
  obtain ⟨h', l', hfree, hinv, -⟩ := hl.free hbrk hbp
  refine ⟨_, ?_, of_inv hinv⟩
  simp [step, hbp, hfree]

theorem step (h : Good base s) {a : Act} (hs : step base s a = some s') (hbrk : s'.brk ≤ 2 ^ 32) :
    Good base s' := by
  have hle := brk_le_step hs
  cases a with
  | malloc nbytes replies => exact h.malloc hs hbrk
  | free bp =>
    have hbp : bp ∈ s.live := by
      simp only [Umalloc.step, Option.ite_none_right_eq_some] at hs
      exact hs.1
    obtain ⟨t, heq, hgood⟩ := h.free (hle.trans hbrk) hbp
    rw [heq] at hs
    cases hs
    exact hgood
  | store a ptr size => exact h.store hs
  | sbrk n =>
    cases hs
    refine ⟨h.base_pos, Nat.lt_add_right n h.base_lt, h.fresh, fun h0 => ?_⟩
    obtain ⟨l, hl⟩ := h.inv h0
    exact ⟨l, ⟨hl.list, hl.tiles, fun x hx => ⟨(hl.bounds x hx).1,
      Nat.lt_add_right n (hl.bounds x hx).2⟩, hl.base_pos, Nat.lt_add_right n hl.base_lt⟩⟩

theorem of_run {brk : Nat} (hbase : 0 < base) (hbrk : base < brk) {as : List Act}
    (hrun : run (Umalloc.step base) (init brk) as = some s) (hmem : s.brk ≤ 2 ^ 32) :
    Good base s := by
  refine run_invariant (I := fun s => s.brk ≤ 2 ^ 32 → Good base s) ?_ ?_ hrun hmem
  · intro t a t' ht hs hle
    exact (ht ((brk_le_step hs).trans hle)).step hs hle
  · intro _
    exact ⟨hbase, hbrk, fun _ => ⟨rfl, rfl⟩, fun h0 => absurd rfl h0⟩

end Good

/-- The free list is circular over `base` and the free blocks in increasing order, no two of
them adjacent, and the free and the live blocks are exactly the memory obtained. -/
def HeapOk (base : Nat) (s : Sys) : Prop :=
  ∃ l, FreeList base s.toHeap l ∧ Tiles (blocks s.size (l ++ s.live)) s.memory

/-- The block that `malloc` has returned is large enough and overlaps no live block. -/
structure Returned (s s' : Sys) (nbytes : UInt32) : Prop where
  live : s'.live = s'.ret :: s.live
  bytes : nbytes.toNat ≤ (s'.size s'.ret - 1) * 16
  apart : ∀ a ∈ s.live, s'.size a = s.size a ∧
    Extent.Apart (s'.ret, s'.size s'.ret) (a, s.size a)

theorem returned {base : Nat} {s s' : Sys} (h : Good base s) {nbytes : UInt32}
    {replies : List (Option Nat)} (hs : step base s (.malloc nbytes replies) = some s')
    (hbrk : s'.brk ≤ 2 ^ 32) (hret : s'.ret ≠ 0) : Returned s s' nbytes := by
  obtain ⟨l, hl, hlive, -, hsizes⟩ := h.start
  rcases malloc_loop_some hl (Good.nunits_pos nbytes) hs hbrk with hgot | rfl
  · obtain ⟨l', hl'⟩ := hgot.inv
    have hlive' : s'.live = s'.ret :: s.live := by rw [hgot.live, hlive]
    refine ⟨hlive', ?_, ?_⟩
    · rw [hgot.size, Sys.nunits]
      omega
    · intro a ha
      have hsize : s'.size a = s.size a := by
        rw [hgot.sizes a (by rw [hlive]; exact ha), hsizes a ha]
      have hnodup := (List.nodup_append.mp (nodup_of_tiles hl'.tiles)).2.1
      rw [hlive'] at hnodup
      have hne : (s'.ret, s'.size s'.ret) ≠ (a, s'.size a) := by
        intro heq
        cases (Prod.mk.inj heq).1
        exact (List.nodup_cons.mp hnodup).1 ha
      have hmem : ∀ b ∈ s'.ret :: s.live, (b, s'.size b) ∈ blocks s'.size (l' ++ s'.live) :=
        fun b hb => mem_blocks (List.mem_append_right _ (by rw [hlive']; exact hb))
      have hapart := hl'.tiles.apart.forall (hmem _ List.mem_cons_self)
        (hmem a (List.mem_cons_of_mem _ ha)) hne
      exact ⟨hsize, hsize ▸ hapart⟩
  · exact absurd rfl hret

/-- While a process has at most `2 ^ 32` units of memory, its heap is in order after every
sequence of calls, `malloc` returns blocks that are large enough and overlap no live block,
and the loops of `free` and `malloc` end. -/
theorem heap_in_order {base brk : Nat} (hbase : 0 < base) (hbrk : base < brk) {as : List Act}
    {s : Sys} (hrun : run (step base) (init brk) as = some s) (hmem : s.brk ≤ 2 ^ 32) :
    (s.freep = 0 → s.live = [] ∧ s.regions = []) ∧ (s.freep ≠ 0 → HeapOk base s) ∧
    (∀ nbytes replies s', step base s (.malloc nbytes replies) = some s' → s'.brk ≤ 2 ^ 32 →
      s'.ret ≠ 0 → Returned s s' nbytes) ∧
    (∀ bp ∈ s.live, ∃ s', step base s (.free bp) = some s') ∧
    ∀ nbytes reply, (∀ hp, reply = some hp →
      s.brk ≤ hp ∧ hp + Inv.core (Sys.nunits nbytes) ≤ 2 ^ 32) →
      ∃ s', step base s (.malloc nbytes [reply]) = some s' := by
  have h := Good.of_run hbase hbrk hrun hmem
  refine ⟨h.fresh, ?_, ?_, ?_, ?_⟩
  · intro h0
    obtain ⟨l, hl⟩ := h.inv h0
    exact ⟨l, hl.list, hl.tiles⟩
  · intro nbytes replies s' hs hle hret
    exact returned h hs hle hret
  · intro bp hbp
    obtain ⟨s', hs, -⟩ := h.free hmem hbp
    exact ⟨s', hs⟩
  · intro nbytes reply hreply
    obtain ⟨l, hl, -, hstart, -⟩ := h.start
    obtain ⟨s', hs, -⟩ := malloc_loop [] hl (Good.nunits_pos nbytes)
      (by rw [hstart]; exact hreply)
    exact ⟨s', hs⟩

/-- Three blocks are cut off one region; the program stores into one of them, and the two at
the end are freed. -/
def threeBlocks : List Act :=
  [.malloc 100 [some 600], .malloc 1000 [], .malloc 16 [], .store 4689 7 7, .free 4624, .free 4688]

theorem heap_in_order_threeBlocks :
    ∃ s, run (step 256) (init 512) threeBlocks = some s ∧ s.live = [4622] ∧ HeapOk 256 s := by
  have hobs : (run (step 256) (init 512) threeBlocks).map (fun s => (s.live, s.freep, s.brk)) =
      some ([4622], 4624, 4696) := by decide +kernel
  obtain ⟨s, hrun, heq⟩ := Option.map_eq_some_iff.mp hobs
  simp only [Prod.mk.injEq] at heq
  obtain ⟨hlive, hfreep, hbrk⟩ := heq
  refine ⟨s, hrun, hlive, ?_⟩
  exact (heap_in_order (by decide) (by decide) hrun (by rw [hbrk]; decide)).2.1
    (by rw [hfreep]; decide)

/-- 33 blocks of almost 2 GiB that follow each other in memory, all freed. -/
def manyBlocks : List Act :=
  ((List.range 33).map fun i => .malloc 2147483616 [some (2 + i * (2 ^ 27 - 1))]) ++
    (List.range 33).map fun i => .free (2 + i * (2 ^ 27 - 1))

/-- The size of the one free block wraps, and most of the memory is in no block. -/
theorem joined_size_wraps :
    ∃ s, run (step 1) (init 2) manyBlocks = some s ∧ s.freep ≠ 0 ∧ ¬ HeapOk 1 s := by
  have hobs : (run (step 1) (init 2) manyBlocks).map (fun s =>
      (s.ptr 1, s.ptr 2, s.size 2, s.live, s.freep, s.regions.contains (2, 2 ^ 27 - 1))) =
      some (2, 1, 2 ^ 27 - 33, [], 2, true) := by decide +kernel
  obtain ⟨s, hrun, heq⟩ := Option.map_eq_some_iff.mp hobs
  simp only [Prod.mk.injEq, List.contains_iff_mem] at heq
  obtain ⟨hp1, hp2, hsize, hlive, hfreep, hregion⟩ := heq
  refine ⟨s, hrun, by rw [hfreep]; decide, ?_⟩
  rintro ⟨l, hl, ht⟩
  have hmem : 2 ^ 27 ∈ s.memory := ⟨_, hregion, by decide, by decide⟩
  obtain ⟨b, hb, hle, hlt⟩ := (ht.cover _).mp hmem
  -- the list has the one block at 2
  obtain rfl : l = [2] := by
    obtain ⟨-, hpath⟩ := hl.path
    rw [hp1] at hpath
    rcases l with _ | ⟨a, _ | ⟨c, l⟩⟩
    · exact absurd (show (2 : Nat) = 1 from hpath) (by decide)
    · rw [hpath.1]
    · obtain ⟨rfl, hc, -⟩ := hpath
      have := hl.base_lt (x := c) (by simp)
      omega
  rw [hlive] at hb
  simp only [List.append_nil, blocks_cons, blocks_nil, List.mem_singleton] at hb
  subst hb
  dsimp only at hlt
  omega

end Xv6.Umalloc
