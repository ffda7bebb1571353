import Xv6.Umalloc.Alloc
import Mathlib.Data.Int.ModEq

/-!
# `malloc` on top of `sbrk`

The same code with addresses in bytes, as far as the widths of its numbers go: `morecore` hands
`sbrk` a byte count that is cut to an `int`, and `sbrk` does with it what `growproc` does, which
succeeds for every argument that is not positive. `granted` is the memory that the calls of
`sbrk` in `morecore` have added.
-/
namespace Xv6.Umalloc

open Function

set_option autoImplicit false

open Lib (Extent Path Tiles search)

/-- `sizeof(Header)`. -/
def HEADER : Nat := 16

/-- The memory there is for pages, `PHYSTOP - KERNBASE`. -/
def MEMORY : Nat := 128 * 1024 * 1024

/-- The conversion of an unsigned number to `int`. -/
def int (n : Nat) : Int := (n : Int).bmod (2 ^ 32)

/-- The end of the pages that a process of `sz` bytes has. -/
def pages (sz : Nat) : Nat := (sz + 4095) / 4096 * 4096

namespace Byte

variable (h : Heap)

def joinNext (bp p : Nat) : Heap :=
  if bp + HEADER * h.size bp = h.ptr p then
    { h with
      size := update h.size bp (uint (h.size bp + h.size (h.ptr p)))
      ptr := update h.ptr bp (h.ptr (h.ptr p)) }
  else { h with ptr := update h.ptr bp (h.ptr p) }

def joinPrev (bp p : Nat) : Heap :=
  if p + HEADER * h.size p = bp then
    { h with
      size := update h.size p (uint (h.size p + h.size bp))
      ptr := update h.ptr p (h.ptr bp) }
  else { h with ptr := update h.ptr p bp }

/-- `free(bp + 1)`. -/
def free (fuel : Nat) (bp : Nat) : Option Heap :=
  (search h.ptr (h.place bp) fuel h.freep).map fun p =>
    { joinPrev (joinNext h bp p) bp p with freep := p }

/-- What `malloc` does with a block `p` that is large enough. -/
def carve (nunits prevp p : Nat) : Heap × Nat :=
  if h.size p = nunits then
    ({ h with ptr := update h.ptr prevp (h.ptr p), freep := prevp }, p)
  else
    let rest := h.size p - nunits
    ({ h with
        size := update (update h.size p rest) (p + HEADER * rest) nunits
        freep := prevp },
      p + HEADER * rest)

end Byte

structure Proc extends Heap where
  sz : Nat
  granted : List Extent
  live : List Nat

/-- Why there is no answer: the loops have not ended within the bound, or the process has been
killed for a store outside its pages. -/
inductive Stop where
  | fuel
  | killed
  deriving DecidableEq

namespace Proc

variable (s : Proc)

/-- `sbrk(n)`; `enough` says whether there are pages. The answer is the old `sz`, `none` for
-1. -/
def sbrk (n : Int) (enough : Bool) : Option (Proc × Nat) :=
  if 0 < n then
    if enough ∧ s.sz + n.toNat ≤ MEMORY then some ({ s with sz := s.sz + n.toNat }, s.sz) else none
  else if n < 0 then
    -- `uvmdealloc(pagetable, sz, sz + n)`
    let newsz := ((s.sz + n) % 2 ^ 64).toNat
    some ({ s with sz := if newsz ≥ s.sz then s.sz else newsz }, s.sz)
  else some (s, s.sz)

/-- What `morecore` does with the answer to `sbrk(n)`: the header of the new block is stored and
the block is freed. The answer is `freep`, or `none` for 0. -/
def addCore (fuel nu : Nat) (n : Int) : Option (Proc × Nat) → Except Stop (Proc × Option Nat)
  | none => .ok (s, none)
  | some (s, p) =>
    if p + HEADER ≤ pages s.sz then
      let s := { s with
        size := update s.size p nu
        granted := (p, n.toNat) :: s.granted }
      match Byte.free s.toHeap fuel p with
      | none => .error .fuel
      | some h => .ok ({ s with toHeap := h }, some h.freep)
    else .error .killed

def morecore (fuel nu : Nat) (enough : Bool) : Except Stop (Proc × Option Nat) :=
  let nu := Inv.core nu
  s.addCore fuel nu (int (nu * HEADER)) (s.sbrk (int (nu * HEADER)) enough)

/-- The loop of `malloc`; `enough` are the answers to the calls of `sbrk`. The result is the
header of the block, or 0. -/
def mallocLoop (nunits : Nat) : Nat → Proc → (Nat → Bool) → Nat → Nat → Except Stop (Proc × Nat)
  | 0, _, _, _, _ => .error .fuel
  | n + 1, s, enough, prevp, p =>
    if s.size p ≥ nunits then
      let r := Byte.carve s.toHeap nunits prevp p
      .ok ({ s with toHeap := r.1, live := r.2 :: s.live }, r.2)
    else if p = s.freep then
      (s.morecore n nunits (enough 0)).bind fun r =>
        match r.2 with
        | none => .ok (r.1, 0)
        | some p => mallocLoop nunits n r.1 (fun i => enough (i + 1)) p (r.1.ptr p)
    else mallocLoop nunits n s enough p (s.ptr p)

/-- The list is made when `freep` is still 0. -/
def start (base : Nat) : Proc :=
  if s.freep = 0 then
    { s with
      ptr := update s.ptr base base
      size := update s.size base 0
      freep := base }
  else s

def malloc (base fuel : Nat) (nbytes : UInt32) (enough : Nat → Bool) : Except Stop (Proc × Nat) :=
  let s := s.start base
  s.mallocLoop (Sys.nunits nbytes) fuel enough s.freep (s.ptr s.freep)

/-- The memory that `sbrk` has granted. -/
def memory : Set Nat := {x | ∃ r ∈ s.granted, r.1 ≤ x ∧ x < r.1 + r.2}

end Proc

/-! ### Sizes in bytes -/

/-- The same headers, with sizes in bytes. -/
def Heap.bytes (h : Heap) : Heap := { h with size := fun a => HEADER * h.size a }

@[simp] theorem Heap.bytes_size (h : Heap) (a : Nat) : h.bytes.size a = HEADER * h.size a := rfl

@[simp] theorem Heap.bytes_ptr (h : Heap) : h.bytes.ptr = h.ptr := rfl

@[simp] theorem Heap.bytes_freep (h : Heap) : h.bytes.freep = h.freep := rfl

theorem Heap.ext_fields {h h' : Heap} (hptr : h.ptr = h'.ptr) (hsize : h.size = h'.size)
    (hfreep : h.freep = h'.freep) : h = h' := by
  cases h
  cases h'
  simp_all

theorem bytes_update (size : Nat → Nat) (a n : Nat) :
    (fun b => HEADER * update size a n b) =
      update (fun b => HEADER * size b) a (HEADER * n) := by
  funext b
  by_cases hb : b = a
  · subst hb
    simp
  · simp [hb]

/-- Sums that do not wrap in bytes do not wrap in units. -/
theorem header_uint {x y : Nat} (h : x + y < 2 ^ 28) :
    HEADER * uint (x + y) = uint (HEADER * x + HEADER * y) := by
  unfold uint HEADER
  rw [Nat.mod_eq_of_lt (show x + y < 2 ^ 32 by omega), Nat.mod_eq_of_lt (by omega)]
  omega

section Bytes

variable {h : Heap} {base bp p n : Nat} {l live : List Nat} {M : Set Nat}

theorem bytes_joinNext
    (hsum : bp + HEADER * h.size bp = h.ptr p → h.size bp + h.size (h.ptr p) < 2 ^ 28) :
    (Byte.joinNext h bp p).bytes = h.bytes.joinNext bp p := by
  unfold Byte.joinNext Heap.joinNext
  by_cases hadj : bp + HEADER * h.size bp = h.ptr p
  · rw [if_pos hadj, if_pos (show bp + h.bytes.size bp = h.bytes.ptr p from hadj)]
    refine Heap.ext_fields rfl ?_ rfl
    exact (bytes_update _ _ _).trans (by rw [header_uint (hsum hadj)]; rfl)
  · rw [if_neg hadj, if_neg (show ¬bp + h.bytes.size bp = h.bytes.ptr p from hadj)]
    rfl

theorem joinNext_size_of_ne {a : Nat} (ha : a ≠ bp) : (Byte.joinNext h bp p).size a = h.size a := by
  unfold Byte.joinNext
  split
  · exact update_of_ne ha _ _
  · rfl

theorem bytes_joinPrev (hsum : p + HEADER * h.size p = bp → h.size p + h.size bp < 2 ^ 28) :
    (Byte.joinPrev h bp p).bytes = h.bytes.joinPrev bp p := by
  unfold Byte.joinPrev Heap.joinPrev
  by_cases hadj : p + HEADER * h.size p = bp
  · rw [if_pos hadj, if_pos (show p + h.bytes.size p = bp from hadj)]
    refine Heap.ext_fields rfl ?_ rfl
    exact (bytes_update _ _ _).trans (by rw [header_uint (hsum hadj)]; rfl)
  · rw [if_neg hadj, if_neg (show ¬p + h.bytes.size p = bp from hadj)]
    rfl

theorem bytes_carve (prevp : Nat) :
    ((Byte.carve h n prevp p).1.bytes, (Byte.carve h n prevp p).2) =
      h.bytes.carve (HEADER * n) prevp p := by
  have heq : h.size p = n ↔ h.bytes.size p = HEADER * n := by
    rw [Heap.bytes_size]
    unfold HEADER
    omega
  have hsub : HEADER * (h.size p - n) = HEADER * h.size p - HEADER * n := Nat.mul_sub ..
  unfold Byte.carve Heap.carve
  by_cases hp : h.size p = n
  · rw [if_pos hp, if_pos (heq.mp hp)]
    rfl
  · rw [if_neg hp, if_neg fun hp' => hp (heq.mpr hp')]
    refine Prod.ext (Heap.ext_fields rfl ?_ rfl) (congrArg (p + ·) hsub)
    exact (bytes_update _ _ _).trans (by rw [bytes_update, hsub]; rfl)

/-- The next node of the list is one of its nodes. -/
theorem FreeList.ptr_mem (hl : FreeList base h l) (hp : p ∈ base :: l) : h.ptr p ∈ base :: l := by
  obtain ⟨l₁, l₂, hs⟩ := List.append_of_mem hp
  rw [hl.ptr_eq hs]
  cases l₂ with
  | nil => exact List.mem_cons_self
  | cons y l₂ => rw [hs]; simp

theorem search_mem {next : Nat → Nat} {found : Nat → Bool} {S : List Nat}
    (hS : ∀ x ∈ S, next x ∈ S) {a k : Nat} (ha : a ∈ S) (hk : search next found k a = some p) :
    p ∈ S := by
  induction k generalizing a with
  | zero => cases hk
  | succ k ih =>
    rw [search] at hk
    split at hk
    · exact Option.some.inj hk ▸ ha
    · exact ih (hS a ha) hk

/-- In memory of less than `2 ^ 32` bytes, `free` is the same in bytes as in units. -/
theorem bytes_free (hl : FreeList base h.bytes l) (hpos : 0 < base) (hbase : base < bp)
    (hM : ∀ x ∈ M, base < x ∧ x < 2 ^ 32)
    (ht : Tiles (blocks h.bytes.size (bp :: (l ++ live))) M) (k : Nat) :
    (Byte.free h k bp).map Heap.bytes = h.bytes.free k bp := by
  have hend : ∀ a ∈ bp :: l, a + HEADER * h.size a ≤ 2 ^ 32 := by
    intro a ha
    refine ht.end_le (b := (a, HEADER * h.size a)) (mem_blocks ?_) fun x hx => (hM x hx).2
    rw [← List.cons_append]
    exact List.mem_append_left live ha
  unfold Byte.free Heap.free
  rw [Option.map_map]
  change Option.map _ (search h.ptr (h.place bp) k h.freep) = _
  cases hs : search h.ptr (h.place bp) k h.freep with
  | none =>
    change _ = Option.map _ (search h.ptr (h.place bp) k h.freep)
    rw [hs]
    rfl
  | some p =>
    change _ = Option.map _ (search h.ptr (h.place bp) k h.freep)
    rw [hs]
    have hp : p ∈ base :: l := search_mem (fun x hx => hl.ptr_mem hx) hl.freep hs
    have hbp : bp ∉ base :: l := by
      intro hmem
      obtain heq | hmem := List.mem_cons.mp hmem
      · omega
      · exact notMem_of_tiles ht (List.mem_append_left live hmem)
    have hppos : base ≤ p := by
      obtain rfl | hmem := List.mem_cons.mp hp
      · exact le_refl _
      · exact (hl.base_lt hmem).le
    -- the block and its successor together end below the bound
    have hnext : bp + HEADER * h.size bp = h.ptr p → bp + HEADER * (h.size bp + h.size (h.ptr p)) ≤
        2 ^ 32 := by
      intro hadj
      obtain heq | hmem := List.mem_cons.mp (hl.ptr_mem hp)
      · rw [Heap.bytes_ptr] at heq
        omega
      · have := hend (h.ptr p) (List.mem_cons_of_mem bp hmem)
        rw [Nat.mul_add]
        omega
    have hjoined : (Byte.joinNext h bp p).bytes = h.bytes.joinNext bp p := by
      refine bytes_joinNext fun hadj => ?_
      have := hnext hadj
      unfold HEADER at this
      omega
    have hprev : (Byte.joinPrev (Byte.joinNext h bp p) bp p).bytes =
        (Byte.joinNext h bp p).bytes.joinPrev bp p := by
      refine bytes_joinPrev fun hadj => ?_
      have hpne : p ≠ bp := fun heq => hbp (heq ▸ hp)
      rw [joinNext_size_of_ne hpne] at hadj ⊢
      have hle : bp + HEADER * (Byte.joinNext h bp p).size bp ≤ 2 ^ 32 := by
        unfold Byte.joinNext
        split
        · next hbpadj =>
          have := hnext hbpadj
          have hmod : uint (h.size bp + h.size (h.ptr p)) ≤ h.size bp + h.size (h.ptr p) :=
            Nat.mod_le _ _
          dsimp only
          rw [update_self]
          unfold HEADER at this ⊢
          omega
        · exact hend bp List.mem_cons_self
      unfold HEADER at hadj hle
      omega
    have hboth := hprev.trans (congrArg (Heap.joinPrev · bp p) hjoined)
    exact congrArg (fun h' : Heap => some { h' with freep := p }) hboth

end Bytes

/-! ### The heap -/

/-- The free list has been made, and `l` are the free blocks: together with the live ones they
are the memory that `sbrk` has granted. -/
structure ProcInv (base : Nat) (s : Proc) (l : List Nat) : Prop where
  list : FreeList base s.toHeap.bytes l
  tiles : Tiles (blocks s.toHeap.bytes.size (l ++ s.live)) s.memory
  bounds : ∀ x ∈ s.memory, base < x ∧ x < s.sz
  base_pos : 0 < base
  base_lt : base < s.sz
  sz_le : s.sz ≤ MEMORY

/-- A heap that has not been used yet, or one in order: what `HeapState.malloc` and `ProcInv.free`
keep. -/
structure HeapState (base : Nat) (s : Proc) : Prop where
  base_pos : 0 < base
  base_lt : base < s.sz
  sz_le : s.sz ≤ MEMORY
  fresh : s.freep = 0 → s.live = [] ∧ s.granted = []
  made : s.freep ≠ 0 → ∃ l, ProcInv base s l

section Loop

variable {base n m : Nat} {s s' : Proc} {l : List Nat} {enough : Nat → Bool}

theorem HeapState.start (h : HeapState base s) : ∃ l, ProcInv base (s.start base) l := by
  unfold Proc.start
  split
  · next h0 =>
    obtain ⟨hlive, hgranted⟩ := h.fresh h0
    refine ⟨[], ⟨⟨?_, ?_, ?_, ?_⟩, ?_, ?_, h.base_pos, h.base_lt, h.sz_le⟩⟩
    · exact ⟨rfl, by simp [Lib.Path]⟩
    · simp
    · simp
    · simp
    · simp only [hlive, List.append_nil, blocks_nil]
      convert Tiles.nil
      ext x
      simp [Proc.memory, hgranted]
    · simp [Proc.memory, hgranted]
  · next h0 => exact h.made h0

/-- Counts below `2 ^ 31` are not changed by the conversion. -/
theorem int_of_lt {n : Nat} (h : n < 2 ^ 31) : int n = n := by
  unfold int
  rw [Int.bmod_eq_of_le] <;> omega

theorem pages_ge (sz : Nat) : sz ≤ pages sz := by
  unfold pages
  omega

theorem sbrk_pos {k : Nat} (hk : 0 < k) (b : Bool) :
    s.sbrk (k : Int) b =
      if b ∧ s.sz + k ≤ MEMORY then some ({ s with sz := s.sz + k }, s.sz) else none := by
  rw [Proc.sbrk, if_pos (by omega), Int.toNat_natCast]

theorem core_le (nu : Nat) : 4096 ≤ Inv.core nu ∧ nu ≤ Inv.core nu := by
  unfold Inv.core
  split <;> omega

/-- `morecore` fails, or adds a region of the recorded size as a free block. -/
theorem ProcInv.morecore (h : ProcInv base s l) {nu : Nat} (hnu : Inv.core nu * HEADER < 2 ^ 31)
    (fuel : Nat) (hfuel : l.length < fuel) (b : Bool) :
    s.morecore fuel nu b = .ok (s, none) ∨
    ∃ s' l', s.morecore fuel nu b = .ok (s', some s'.freep) ∧ ProcInv base s' l' ∧
      l'.length ≤ l.length + 1 ∧ ∃ a ∈ l', nu ≤ s'.size a := by
  have hcore := core_le nu
  have hpos : 0 < Inv.core nu * HEADER :=
    Nat.mul_pos ((show 0 < 4096 by decide).trans_le hcore.1) (by decide)
  have hmore : s.morecore fuel nu b = s.addCore fuel (Inv.core nu) ((Inv.core nu * HEADER : Nat) : Int)
      (s.sbrk ((Inv.core nu * HEADER : Nat) : Int) b) := by
    rw [← int_of_lt hnu]
    rfl
  rw [hmore, sbrk_pos hpos]
  generalize Inv.core nu = k at hcore hpos
  by_cases hgrant : b ∧ s.sz + k * HEADER ≤ MEMORY
  · right
    rw [if_pos hgrant]
    have hend : s.sz + HEADER * k ≤ 2 ^ 32 := by
      have := hgrant.2
      unfold HEADER MEMORY at *
      omega
    have hfresh := fresh_region h.list h.tiles h.base_lt (fun x hx => h.bounds x hx)
      (show 0 < HEADER * k by rwa [Nat.mul_comm]) hend
    have hbytes : ({ s.toHeap with size := update s.size s.sz k } : Heap).bytes =
        { s.toHeap.bytes with size := update s.toHeap.bytes.size s.sz (HEADER * k) } :=
      Heap.ext_fields rfl (bytes_update ..) rfl
    rw [← hbytes] at hfresh
    obtain ⟨h', l', hfree, hl', ht', hlen, hlive, a, ha, hbig⟩ := hfresh.free h.base_lt hfuel
    rw [← bytes_free hfresh.list h.base_pos h.base_lt hfresh.bounds hfresh.tiles,
      Option.map_eq_some_iff] at hfree
    obtain ⟨h₂, hfree, rfl⟩ := hfree
    let s' : Proc := ⟨h₂, s.sz + k * HEADER, (s.sz, k * HEADER) :: s.granted, s.live⟩
    have hmem : s'.memory = s.memory ∪ Set.Ico s.sz (s.sz + HEADER * k) := by
      ext x
      simp only [Proc.memory, s', Set.mem_ofPred_eq, List.exists_mem_cons_iff, Set.mem_union,
        Set.mem_Ico, Nat.mul_comm k]
      exact or_comm
    have hbounds : ∀ x ∈ s'.memory, base < x ∧ x < s'.sz := by
      intro x hx
      rw [hmem] at hx
      show base < x ∧ x < s.sz + k * HEADER
      rw [Nat.mul_comm]
      obtain hx | ⟨hx, hx'⟩ := hx
      · have := h.bounds x hx
        omega
      · have := h.base_lt
        omega
    refine ⟨s', l', ?_, ⟨hl', by rw [hmem]; exact ht', hbounds, h.base_pos,
      Nat.lt_add_right _ h.base_lt, hgrant.2⟩, hlen, a, ha, ?_⟩
    · have hmapped : s.sz + HEADER ≤ pages (s.sz + k * HEADER) := by
        have := pages_ge (s.sz + k * HEADER)
        have := Nat.mul_le_mul_right HEADER (show 1 ≤ k by omega)
        omega
      simp only [Proc.addCore, if_pos hmapped, Int.toNat_natCast, hfree, s']
    · rw [Heap.bytes_size] at hbig
      exact hcore.2.trans (Nat.le_of_mul_le_mul_left hbig (by decide))
  · left
    rw [if_neg hgrant]
    rfl

/-- What the loop does at `freep` when no block is large enough. -/
def Proc.more (n m : Nat) (s : Proc) (enough : Nat → Bool) : Except Stop (Proc × Nat) :=
  (s.morecore m n (enough 0)).bind fun r =>
    match r.2 with
    | none => .ok (r.1, 0)
    | some p => r.1.mallocLoop n m (fun i => enough (i + 1)) p (r.1.ptr p)

/-- The block is taken with its predecessor known. -/
def Proc.taken (n : Nat) (s : Proc) (prevp p : Nat) : Proc × Nat :=
  let r := Byte.carve s.toHeap n prevp p
  ({ s with toHeap := r.1, live := r.2 :: s.live }, r.2)

theorem Proc.mallocLoop_succ (prevp p : Nat) :
    s.mallocLoop n (m + 1) enough prevp p =
      if n ≤ s.size p then .ok (s.taken n prevp p)
      else if p = s.freep then s.more n m enough
      else s.mallocLoop n m enough p (s.ptr p) := rfl

/-- Along the list the loop takes the first block that is large enough, or arrives at
`freep`. -/
theorem Proc.mallocLoop_path (m : Nat) {r : List Nat} {prevp p : Nat} (nodes : List Nat)
    (hr : Path s.ptr p r s.freep) (hne : s.freep ∉ r) (hprev : prevp ∈ nodes)
    (hptr : s.ptr prevp = p) (hsub : ∀ x ∈ r, x ∈ nodes) :
    (∃ q x, q ∈ nodes ∧ x ∈ s.freep :: r ∧ s.ptr q = x ∧ n ≤ s.size x ∧
      s.mallocLoop n (r.length + (m + 1)) enough prevp p = .ok (s.taken n q x)) ∨
    (∀ x ∈ s.freep :: r, s.size x < n) ∧
      s.mallocLoop n (r.length + (m + 1)) enough prevp p = s.more n m enough := by
  induction r generalizing prevp p with
  | nil =>
    obtain rfl : p = s.freep := hr
    rw [List.length_nil, Nat.zero_add, mallocLoop_succ, if_pos rfl]
    by_cases hsize : n ≤ s.size s.freep
    · exact .inl ⟨prevp, s.freep, hprev, List.mem_cons_self, hptr, hsize, by rw [if_pos hsize]⟩
    · exact .inr ⟨by simp; omega, by rw [if_neg hsize]⟩
  | cons y r ih =>
    obtain ⟨rfl, hr⟩ := hr
    have hyf : y ≠ s.freep := fun h => hne (h ▸ List.mem_cons_self)
    rw [List.length_cons, Nat.add_right_comm, mallocLoop_succ, if_neg hyf]
    by_cases hsize : n ≤ s.size y
    · exact .inl ⟨prevp, y, hprev, by simp, hptr, hsize, by rw [if_pos hsize]⟩
    · rw [if_neg hsize]
      obtain ⟨q, x, hq, hx, hfound⟩ | ⟨hsmall, heq⟩ :=
        ih hr (fun hmem => hne (List.mem_cons_of_mem y hmem)) (hsub y List.mem_cons_self) rfl
          fun x hx => hsub x (List.mem_cons_of_mem y hx)
      · refine .inl ⟨q, x, hq, ?_, hfound⟩
        simp only [List.mem_cons] at hx ⊢
        tauto
      · refine .inr ⟨fun x hx => ?_, heq⟩
        simp only [List.mem_cons] at hx hsmall
        obtain hx | rfl | hx := hx
        · exact hsmall x (.inl hx)
        · omega
        · exact hsmall x (.inr hx)

/-- The block at `bp` has `n` units of granted memory. -/
def Holds (s : Proc) (bp n : Nat) : Prop :=
  ∀ x, bp ≤ x → x < bp + HEADER * n → x ∈ s.memory ∧ x < s.sz

theorem ProcInv.freep_ne_zero (h : ProcInv base s l) : s.freep ≠ 0 := by
  have hb := h.base_pos
  obtain heq | hmem := List.mem_cons.mp h.list.freep
  · rw [Heap.bytes_freep] at heq
    omega
  · have := h.list.base_lt hmem
    rw [Heap.bytes_freep] at this
    omega

theorem ProcInv.heapState (h : ProcInv base s l) : HeapState base s :=
  ⟨h.base_pos, h.base_lt, h.sz_le, fun h0 => absurd h0 h.freep_ne_zero, fun _ => ⟨l, h⟩⟩

/-- The block that the loop takes is a live one of granted memory. -/
theorem ProcInv.taken (h : ProcInv base s l) (hn : 0 < n) {q x : Nat} (hq : q ∈ base :: l)
    (hx : x ∈ base :: l) (hptr : s.ptr q = x) (hsize : n ≤ s.size x) :
    HeapState base (s.taken n q x).1 ∧ Holds (s.taken n q x).1 (s.taken n q x).2 n := by
  have hxl : x ∈ l := by
    obtain rfl | hx := List.mem_cons.mp hx
    · have := h.list.size_base
      rw [Heap.bytes_size] at this
      unfold HEADER at this
      omega
    · exact hx
  have hn' : 0 < HEADER * n := Nat.mul_pos (by decide) hn
  obtain ⟨l', hl', ht', hret, -⟩ := carve_spec h.list hq hptr hxl hn'
    (Nat.mul_le_mul_left HEADER hsize) h.tiles
  rw [← bytes_carve] at hl' ht' hret
  have hinv : ProcInv base (s.taken n q x).1 l' :=
    ⟨hl', ht', h.bounds, h.base_pos, h.base_lt, h.sz_le⟩
  constructor
  · exact hinv.heapState
  · intro y hy hlt
    have hmem : y ∈ s.memory := by
      refine (ht'.cover y).mpr ⟨_, mem_blocks (List.mem_append_right l' List.mem_cons_self), hy, ?_⟩
      dsimp only at hret ⊢
      rw [hret]
      exact hlt
    exact ⟨hmem, (h.bounds y hmem).2⟩

/-- One round of the loop. -/
theorem ProcInv.round (enough : Nat → Bool) (h : ProcInv base s l) (hn : 0 < n) (m : Nat) :
    (∃ s' bp, s.mallocLoop n (l.length + (m + 1)) enough s.freep (s.ptr s.freep) = .ok (s', bp) ∧
      HeapState base s' ∧ Holds s' bp n) ∨
    (∀ x ∈ base :: l, s.size x < n) ∧
      s.mallocLoop n (l.length + (m + 1)) enough s.freep (s.ptr s.freep) = s.more n m enough := by
  obtain ⟨r, hr, hne, hlen, hmem⟩ := h.list.round
  rw [← hlen]
  obtain ⟨q, x, hq, hx, hptr, hsize, heq⟩ | ⟨hsmall, heq⟩ :=
    Proc.mallocLoop_path m (base :: l) hr hne h.list.freep rfl
      fun x hx => (hmem x).mpr (List.mem_cons_of_mem _ hx)
  · exact .inl ⟨_, _, heq, h.taken hn hq ((hmem x).mpr hx) hptr hsize⟩
  · exact .inr ⟨fun x hx => hsmall x ((hmem x).mp hx), heq⟩

/-- A request that survives the conversion to `int` is honoured: the loop ends with a block in
granted memory or with 0. -/
theorem ProcInv.loop (enough : Nat → Bool) (h : ProcInv base s l) (hn : 0 < n)
    (hcore : Inv.core n * HEADER < 2 ^ 31) :
    ∃ fuel s' bp, s.mallocLoop n fuel enough s.freep (s.ptr s.freep) = .ok (s', bp) ∧
      HeapState base s' ∧ (bp = 0 ∨ Holds s' bp n) := by
  refine ⟨l.length + (l.length + 2 + 1 + 1), ?_⟩
  obtain ⟨s', bp, heq, hs', hholds⟩ | ⟨-, heq⟩ := h.round enough hn (l.length + 2 + 1)
  · exact ⟨s', bp, heq, hs', .inr hholds⟩
  rw [heq, Proc.more]
  obtain hmore | ⟨s₁, l₁, hmore, hinv, hlen, a, ha, hbig⟩ :=
    h.morecore hcore (l.length + 2 + 1) (by omega) (enough 0)
  · rw [hmore]
    exact ⟨s, 0, rfl, h.heapState, .inl rfl⟩
  · rw [hmore]
    -- the new block is large enough, so that the second round finds one
    obtain ⟨k, hk⟩ : ∃ k, l.length + 2 + 1 = l₁.length + (k + 1) := ⟨l.length + 2 - l₁.length, by omega⟩
    rw [hk]
    change ∃ s' bp, s₁.mallocLoop n _ _ s₁.freep (s₁.ptr s₁.freep) = .ok (s', bp) ∧ _
    obtain ⟨s', bp, heq, hs', hholds⟩ | ⟨hsmall, -⟩ := hinv.round (fun i => enough (i + 1)) hn k
    · exact ⟨s', bp, heq, hs', .inr hholds⟩
    · have := hsmall a (List.mem_cons_of_mem _ ha)
      omega

end Loop

/-! ### Which requests are honoured -/

/-- `malloc(nbytes)` returns 0 or a block whose bytes `sbrk` has granted, in every state of the
heap and whenever there are pages or not. -/
def Honours (nbytes : UInt32) : Prop :=
  ∀ (base : Nat) (s : Proc) (enough : Nat → Bool), HeapState base s →
    ∃ fuel s' bp, s.malloc base fuel nbytes enough = .ok (s', bp) ∧
      (bp = 0 ∨ ∀ i, i < nbytes.toNat → bp + HEADER + i ∈ s'.memory ∧ bp + HEADER + i < s'.sz)

/-- The count handed to `sbrk` is that of the units recorded in the header. -/
def Agrees (nbytes : UInt32) : Prop :=
  int (Inv.core (Sys.nunits nbytes) * HEADER) = (Inv.core (Sys.nunits nbytes) * HEADER : Nat)

/-- The largest request whose units take less than `2 ^ 31` bytes. -/
def LARGEST : Nat := 2 ^ 31 - 32

theorem core_lt_iff (nbytes : UInt32) :
    Inv.core (Sys.nunits nbytes) * HEADER < 2 ^ 31 ↔ nbytes.toNat ≤ LARGEST := by
  unfold Inv.core Sys.nunits HEADER LARGEST
  split <;> omega

/-- A request up to the bound is honoured, and leaves the heap in order. -/
theorem HeapState.malloc {base : Nat} {s : Proc} (hs : HeapState base s) {nbytes : UInt32}
    (h : nbytes.toNat ≤ LARGEST) (enough : Nat → Bool) :
    ∃ fuel s' bp, s.malloc base fuel nbytes enough = .ok (s', bp) ∧ HeapState base s' ∧
      (bp = 0 ∨ ∀ i, i < nbytes.toNat → bp + HEADER + i ∈ s'.memory ∧ bp + HEADER + i < s'.sz) := by
  obtain ⟨l, hl⟩ := hs.start
  obtain ⟨fuel, s', bp, heq, hs', hbp⟩ :=
    hl.loop enough (Good.nunits_pos nbytes) ((core_lt_iff nbytes).mpr h)
  refine ⟨fuel, s', bp, heq, hs', hbp.imp_right fun hholds i hi => hholds _ (by omega) ?_⟩
  unfold Sys.nunits HEADER
  omega

theorem honours_of_le {nbytes : UInt32} (h : nbytes.toNat ≤ LARGEST) : Honours nbytes := by
  intro base s enough hs
  obtain ⟨fuel, s', bp, heq, -, hbp⟩ := hs.malloc h enough
  exact ⟨fuel, s', bp, heq, hbp⟩

/-- A process of one page that has not used its heap. -/
def onePage : Proc := ⟨⟨fun _ => 0, fun _ => 0, 0⟩, 4096, [], []⟩

theorem heapState_onePage : HeapState 16 onePage :=
  ⟨by decide, by decide, by decide, fun _ => ⟨rfl, rfl⟩, fun h => absurd rfl h⟩

theorem sbrk_onePage {v : Int} (hv : v ≤ 16) :
    ∃ z, (onePage.start 16).sbrk v true = some ({ onePage.start 16 with sz := z }, 4096) := by
  unfold Proc.sbrk
  split
  · have hle : 4096 + v.toNat ≤ MEMORY := by
      unfold MEMORY
      omega
    exact ⟨_, if_pos ⟨rfl, hle⟩⟩
  · split <;> exact ⟨_, rfl⟩

/-- `free` into a list that has only `base`. -/
theorem free_alone (h : Heap) {bp base : Nat} (hf : h.freep = base) (hp : h.ptr base = base)
    (hs : h.size base = 0) (hbp : base < bp) (m : Nat) :
    Byte.free h (m + 1) bp =
      some { h with
        ptr := update (update h.ptr bp base) base bp
        freep := base } := by
  have hplace : h.place bp base = true := by simp [Heap.place, hp, hbp]
  have hnext : Byte.joinNext h bp base = { h with ptr := update h.ptr bp base } := by
    rw [Byte.joinNext, if_neg (by omega), hp]
  have hprev : Byte.joinPrev { h with ptr := update h.ptr bp base } bp base =
      { h with ptr := update (update h.ptr bp base) base bp } := by
    rw [Byte.joinPrev, if_neg]
    dsimp only
    rw [hs]
    omega
  rw [Byte.free, hf, search, if_pos hplace, Option.map_some, hnext, hprev]

/-- The new block is put into a list that has only `base`. -/
theorem addCore_alone {s₀ s : Proc} {base m n p z : Nat} {v : Int} {r : Proc × Option Nat}
    (hf : s.freep = base) (hp : s.ptr base = base) (hs : s.size base = 0) (hbp : base < p)
    (h : s₀.addCore m n v (some ({ s with sz := z }, p)) = .ok r) :
    r.2 = some base ∧ r.1.ptr base = p ∧ r.1.size p = n ∧ r.1.granted = (p, v.toNat) :: s.granted := by
  simp only [Proc.addCore] at h
  split at h
  · cases m with
    | zero => cases h
    | succ m =>
      have hs' : update s.size p n base = 0 := by rw [update_of_ne hbp.ne, hs]
      have hfree := free_alone ⟨s.ptr, update s.size p n, s.freep⟩ hf hp hs' hbp m
      rw [hfree] at h
      cases h
      exact ⟨rfl, update_self .., update_self .., rfl⟩
  · cases h

/-- The block that is returned starts with the last bytes granted. -/
theorem malloc_onePage {nbytes : UInt32} {fuel bp : Nat} {s' : Proc}
    (hn : 4096 ≤ Sys.nunits nbytes) (hv : int (Sys.nunits nbytes * HEADER) ≤ 16)
    (h : onePage.malloc 16 fuel nbytes (fun _ => true) = .ok (s', bp)) :
    bp = 4096 ∧ bp + HEADER ∉ s'.memory := by
  rw [Proc.malloc] at h
  change (onePage.start 16).mallocLoop _ fuel _ 16 16 = _ at h
  generalize Sys.nunits nbytes = n at h hv hn
  have hcore : Inv.core n = n := if_neg (by omega)
  have hsize : ¬n ≤ (onePage.start 16).size 16 := by
    have : (onePage.start 16).size 16 = 0 := rfl
    omega
  have hfreep : 16 = (onePage.start 16).freep := rfl
  obtain ⟨z, hz⟩ := sbrk_onePage hv
  have hmore (m : Nat) : (onePage.start 16).morecore m n true =
      (onePage.start 16).addCore m n (int (n * HEADER))
        (some ({ onePage.start 16 with sz := z }, 4096)) := by
    rw [← hz, Proc.morecore, hcore]
  generalize int (n * HEADER) = v at hmore hv
  cases fuel with
  | zero => cases h
  | succ m =>
    rw [Proc.mallocLoop_succ, if_neg hsize, if_pos hfreep, Proc.more, hmore] at h
    cases hadd : (onePage.start 16).addCore m n v (some ({ onePage.start 16 with sz := z }, 4096)) with
    | error e =>
      rw [hadd] at h
      cases h
    | ok r =>
      obtain ⟨s, ans⟩ := r
      obtain ⟨hans, hptr, hsize', hgranted⟩ :=
        addCore_alone (show (onePage.start 16).freep = 16 from rfl) rfl rfl (by decide) hadd
      obtain rfl : ans = some 16 := hans
      rw [hadd] at h
      change s.mallocLoop n m _ 16 (s.ptr 16) = _ at h
      rw [show s.ptr 16 = 4096 from hptr] at h
      cases m with
      | zero => cases h
      | succ m =>
        have hbig : n ≤ s.size 4096 := hsize'.ge
        have hcarve : Byte.carve s.toHeap n 16 4096 = _ := if_pos hsize'
        rw [Proc.mallocLoop_succ, if_pos hbig, Proc.taken, hcarve] at h
        obtain ⟨rfl, rfl⟩ : _ ∧ 4096 = bp := by simpa only [Except.ok.injEq, Prod.mk.injEq] using h
        have hmem (x : Nat) (hx : x ∈ s.memory) : x < 4096 + v.toNat := by
          obtain ⟨r, hr, -, hlt⟩ := hx
          rw [show s.granted = [(4096, v.toNat)] from hgranted, List.mem_singleton] at hr
          rwa [hr] at hlt
        refine ⟨rfl, fun hin => ?_⟩
        have := hmem _ hin
        unfold HEADER at this
        omega

/-- The count of a request above the bound wraps to at most 16 bytes. -/
theorem int_nunits_le {nbytes : UInt32} (h : LARGEST < nbytes.toNat) :
    4096 ≤ Sys.nunits nbytes ∧ int (Sys.nunits nbytes * HEADER) ≤ 16 := by
  have hlt := nbytes.toNat_lt
  have hlow : 2 ^ 27 ≤ Sys.nunits nbytes := by
    unfold Sys.nunits LARGEST at *
    omega
  have hhigh : Sys.nunits nbytes ≤ 2 ^ 28 + 1 := by
    unfold Sys.nunits
    omega
  generalize Sys.nunits nbytes = n at hlow hhigh
  refine ⟨by omega, ?_⟩
  unfold int HEADER
  rw [Int.bmod_def]
  split <;> omega

theorem not_honours_of_gt {nbytes : UInt32} (h : LARGEST < nbytes.toNat) : ¬Honours nbytes := by
  intro hh
  obtain ⟨fuel, s', bp, heq, hbp⟩ := hh 16 onePage (fun _ => true) heapState_onePage
  obtain ⟨hn, hv⟩ := int_nunits_le h
  obtain ⟨rfl, hout⟩ := malloc_onePage hn hv heq
  have hheld := hbp.resolve_left (by omega)
  exact hout (hheld 0 (by omega)).1

/-- `malloc(0xffffffff)` on a fresh heap: `sbrk` is called with 16, the header records `2 ^ 28 + 1`
units, and the block is returned. -/
theorem malloc_max_outside :
    ((onePage.malloc 16 4 0xffffffff (fun _ => true)).toOption.map fun r =>
      (r.2, r.1.size r.2, r.1.granted, r.1.sz)) = some (4096, 2 ^ 28 + 1, [(4096, 16)], 4112) ∧
    ¬Honours 0xffffffff :=
  ⟨by decide +kernel, not_honours_of_gt (by decide)⟩

theorem malloc_honours_iff (nbytes : UInt32) :
    (Honours nbytes ↔ nbytes.toNat ≤ LARGEST) ∧ (Agrees nbytes ↔ nbytes.toNat ≤ LARGEST) := by
  constructor
  · constructor
    · intro h
      by_contra hgt
      exact not_honours_of_gt (Nat.not_le.mp hgt) h
    · exact honours_of_le
  · rw [← core_lt_iff]
    constructor
    · intro h
      have hlt : int (Inv.core (Sys.nunits nbytes) * HEADER) < 2 ^ 31 := Int.bmod_lt (by decide)
      rw [h] at hlt
      exact_mod_cast hlt
    · exact int_of_lt

end Xv6.Umalloc
