import Xv6.Fs.Blocks
import Xv6.Lib.Alloc

/-!
# The layout of the disk

The inode blocks hold inodes, the bitmap blocks one bit for each block, the data blocks
what the inodes refer to. `view` is a disk seen that way; a store of an inode, of a bit or
of a data block changes that part of the view only.
-/
namespace Xv6.Fs

set_option autoImplicit false

open Xv6.Lib.Bytes Function

/-! ## Bits of a bitmap block -/

section

variable (a : UInt8) {k j : Nat}

theorem testBit_or_shift (hk : k < 8) (hj : j < 8) :
    (a ||| ((1 : UInt8) <<< UInt8.ofNat k)).toNat.testBit j =
      (decide (j = k) || a.toNat.testBit j) := by
  have hk' : k % 256 % 8 = k := by omega
  rw [UInt8.toNat_or, Nat.testBit_or, UInt8.toNat_shiftLeft]
  simp [hk', Nat.shiftLeft_eq, Nat.testBit_mod_two_pow (j := 8), Nat.testBit_two_pow, hj,
    Bool.or_comm, eq_comm]

theorem testBit_and_not_shift (hk : k < 8) (hj : j < 8) :
    (a &&& ~~~((1 : UInt8) <<< UInt8.ofNat k)).toNat.testBit j =
      (!decide (j = k) && a.toNat.testBit j) := by
  have hk' : k % 256 % 8 = k := by omega
  have hpow : 2 ^ k < 2 ^ 8 := Nat.pow_lt_pow_right (by decide) hk
  have hmask : ((1 : UInt8) <<< UInt8.ofNat k).toNat = 2 ^ k := by
    rw [UInt8.toNat_shiftLeft]
    simp [hk', Nat.shiftLeft_eq]
    omega
  have hnot : (~~~((1 : UInt8) <<< UInt8.ofNat k)).toNat = 2 ^ 8 - (2 ^ k + 1) := by
    have hsize : UInt8.size = 2 ^ 8 := rfl
    rw [UInt8.toNat_not, hmask, hsize]
    omega
  rw [UInt8.toNat_and, Nat.testBit_and, hnot, Nat.testBit_two_pow_sub_succ hpow,
    Nat.testBit_two_pow]
  simp [hj, Bool.and_comm, eq_comm]

end

theorem mem_eq {x : Block} {i : Nat} (h : i < BSIZE) : x.mem i = x ⟨i, h⟩ := dif_pos h

theorem bit_byte_lt {bi : Nat} (h : bi < BPB) : bi / 8 < BSIZE := by
  rw [BPB] at h
  omega

theorem getBit_setBit (x : Block) {bi bj : Nat} (hj : bj < BPB) :
    getBit (setBit x bi) bj = (decide (bj = bi) || getBit x bj) := by
  unfold getBit
  rw [mem_eq (bit_byte_lt hj), mem_eq (bit_byte_lt hj), setBit]
  by_cases hb : bj / 8 = bi / 8
  · rw [if_pos hb, testBit_or_shift _ (Nat.mod_lt _ (by decide)) (Nat.mod_lt _ (by decide))]
    have : bj % 8 = bi % 8 ↔ bj = bi := by omega
    simp only [this]
  · have hne : bj ≠ bi := fun h => hb (by rw [h])
    simp [hb, hne]

theorem getBit_clearBit (x : Block) {bi bj : Nat} (hj : bj < BPB) :
    getBit (clearBit x bi) bj = (!decide (bj = bi) && getBit x bj) := by
  unfold getBit
  rw [mem_eq (bit_byte_lt hj), mem_eq (bit_byte_lt hj), clearBit]
  by_cases hb : bj / 8 = bi / 8
  · rw [if_pos hb, testBit_and_not_shift _ (Nat.mod_lt _ (by decide)) (Nat.mod_lt _ (by decide))]
    have : bj % 8 = bi % 8 ↔ bj = bi := by omega
    simp only [this]
  · have hne : bj ≠ bi := fun h => hb (by rw [h])
    simp [hb, hne]

/-! ## Inodes of a block -/

/-- The fields of the inode fit in their place on disk. -/
structure Dinode.Fits (d : Dinode) : Prop where
  type : d.type < 2 ^ 16
  major : d.major < 2 ^ 16
  minor : d.minor < 2 ^ 16
  nlink : d.nlink < 2 ^ 16
  size : d.size < 2 ^ 32
  addrs : ∀ i, d.addrs i < 2 ^ 32

theorem getDinode_fits (x : Block) (i : Nat) : (getDinode x i).Fits :=
  ⟨x.get_lt .., x.get_lt .., x.get_lt .., x.get_lt .., x.get_lt .., fun _ => x.get_lt ..⟩

theorem get_putWords_after {xs : List Nat} {b : Block} {start off k : Nat}
    (h : start + 4 * xs.length ≤ off) : (b.putWords start xs).get off k = b.get off k := by
  induction xs generalizing b start with
  | nil => rfl
  | cons x xs ih =>
    rw [List.length_cons] at h
    rw [Block.putWords, ih (by omega)]
    exact Block.get_put_disjoint b (.inl (by omega))

theorem length_addrs (d : Dinode) : (List.ofFn d.addrs).length = 13 := List.length_ofFn

theorem get_putDinode_disjoint {x : Block} {i off k : Nat} {d : Dinode}
    (h : off + k ≤ 64 * i ∨ 64 * i + 64 ≤ off) : (putDinode x i d).get off k = x.get off k := by
  have hlen := length_addrs d
  unfold putDinode
  rcases h with h | h
  · rw [Block.get_putWords_before (by omega)]
    simp (disch := omega) only [Block.get_put_disjoint]
  · rw [get_putWords_after (by omega)]
    simp (disch := omega) only [Block.get_put_disjoint]

theorem getDinode_putDinode_of_ne (x : Block) {i j : Nat} (d : Dinode) (h : j ≠ i) :
    getDinode (putDinode x i d) j = getDinode x j := by
  have hk : ∀ k : Fin (NDIRECT + 1), k.val < 13 := fun k => k.isLt
  ext k
  case addrs =>
    have := hk k
    exact get_putDinode_disjoint (by omega)
  all_goals exact get_putDinode_disjoint (by omega)

theorem getDinode_putDinode (x : Block) {i : Nat} {d : Dinode} (hi : i < IPB) (hd : d.Fits) :
    getDinode (putDinode x i d) i = d := by
  have hlen := length_addrs d
  have hB : BSIZE = 1024 := rfl
  have hi : i < 16 := hi
  obtain ⟨h1, h2, h3, h4, h5, h6⟩ := hd
  ext k
  case addrs =>
    have hk : k.val < 13 := k.isLt
    refine (Block.get_putWords (by omega) (by omega) ?_).trans ?_
    · rintro a ha
      obtain ⟨k, rfl⟩ := List.mem_ofFn.mp ha
      exact h6 k
    · rw [List.getD_eq_getElem?_getD, List.getElem?_ofFn, dif_pos k.isLt, Option.getD_some]
  all_goals
    simp (disch := omega) only [getDinode, putDinode, Block.get_putWords_before,
      Block.get_put_disjoint, Block.get_put_same]

/-! ## The view -/

abbrev Disk := Nat → Block

/-- What the disk holds: inodes, the bits of the blocks, data. -/
structure View where
  din : Nat → Dinode
  used : Nat → Bool
  blk : Nat → Block

variable (sb : Superblock)

/-- The first data block. -/
def dataStart : Nat := sb.size - sb.nblocks

def IsData (b : Nat) : Prop := dataStart sb ≤ b ∧ b < sb.size

instance (b : Nat) : Decidable (IsData sb b) := inferInstanceAs (Decidable (_ ∧ _))

/-- Inode, bitmap and data blocks follow one another. -/
structure Geometry : Prop where
  inodes : sb.inodestart + (sb.ninodes + IPB - 1) / IPB ≤ sb.bmapstart
  bitmap : sb.bmapstart + (sb.size + BPB - 1) / BPB ≤ dataStart sb
  size : sb.size ≤ 2 ^ 32
  pos : 0 < dataStart sb

def view (d : Disk) : View where
  din i := if i < sb.ninodes then getDinode (d (IBLOCK sb i)) (i % IPB) else .fresh 0
  used b := if b < sb.size then getBit (d (BBLOCK sb b)) (b % BPB) else false
  blk b := if IsData sb b then d b else fun _ => 0

section

variable {sb} {d : Disk} {i b : Nat} {x : Block}

theorem Geometry.iblock_lt (hg : Geometry sb) (hi : i < sb.ninodes) :
    IBLOCK sb i < sb.bmapstart := by
  have := hg.inodes
  have hI : IPB = 16 := rfl
  rw [IBLOCK]
  rw [hI] at this ⊢
  omega

theorem Geometry.bblock_lt (hg : Geometry sb) (hb : b < sb.size) : BBLOCK sb b < dataStart sb := by
  have := hg.bitmap
  have hP : BPB = 8192 := rfl
  rw [BBLOCK]
  rw [hP] at this ⊢
  omega

theorem Geometry.bmapstart_le (hg : Geometry sb) : sb.bmapstart ≤ dataStart sb :=
  (Nat.le_add_right ..).trans hg.bitmap

theorem bmapstart_le_bblock (b : Nat) : sb.bmapstart ≤ BBLOCK sb b := Nat.le_add_left ..

theorem view_blk (hb : IsData sb b) : (view sb d).blk b = d b := if_pos hb

theorem view_din (hi : i < sb.ninodes) :
    (view sb d).din i = getDinode (d (IBLOCK sb i)) (i % IPB) := if_pos hi

theorem view_used (hb : b < sb.size) :
    (view sb d).used b = getBit (d (BBLOCK sb b)) (b % BPB) := if_pos hb

theorem view_putDinode (hg : Geometry sb) (hi : i < sb.ninodes) {ip : Dinode} (hip : ip.Fits) :
    view sb (update d (IBLOCK sb i) (putDinode (d (IBLOCK sb i)) (i % IPB) ip)) =
      { view sb d with din := update (view sb d).din i ip } := by
  have hlt := hg.iblock_lt hi
  have hpos : 0 < IPB := by decide
  unfold view
  congr 1
  · funext j
    by_cases hj : j < sb.ninodes
    · by_cases hji : j = i
      · subst hji
        simp only [hj, if_true, update_self]
        exact getDinode_putDinode _ (Nat.mod_lt _ hpos) hip
      · simp only [hj, if_true, update_of_ne hji]
        by_cases hb : IBLOCK sb j = IBLOCK sb i
        · have hmod : j % IPB ≠ i % IPB := by
            intro hm
            have hdiv : j / IPB = i / IPB := Nat.add_right_cancel hb
            exact hji (by rw [← Nat.div_add_mod j IPB, ← Nat.div_add_mod i IPB, hm, hdiv])
          rw [hb, update_self, getDinode_putDinode_of_ne _ _ hmod]
        · rw [update_of_ne hb]
    · have hji : j ≠ i := fun h => hj (h ▸ hi)
      simp [hj, hji]
  · funext b
    have hne : BBLOCK sb b ≠ IBLOCK sb i := (hlt.trans_le (bmapstart_le_bblock b)).ne'
    rw [update_of_ne hne]
  · funext b
    by_cases hb : IsData sb b
    · have hne : b ≠ IBLOCK sb i := by
        have := hg.bmapstart_le
        have := hb.1
        omega
      simp [hb, hne]
    · simp [hb]

theorem view_bit (hg : Geometry sb) (hb : b < sb.size) (v : Bool)
    (hx : ∀ c, c / BPB = b / BPB → c < sb.size →
      getBit x (c % BPB) = if c = b then v else getBit (d (BBLOCK sb b)) (c % BPB)) :
    view sb (update d (BBLOCK sb b) x) =
      { view sb d with used := update (view sb d).used b v } := by
  have hlt := hg.bblock_lt hb
  unfold view
  congr 1
  · funext j
    by_cases hj : j < sb.ninodes
    · have hne : IBLOCK sb j ≠ BBLOCK sb b :=
        ((hg.iblock_lt hj).trans_le (bmapstart_le_bblock b)).ne
      simp [hj, hne]
    · simp [hj]
  · funext c
    by_cases hc : c < sb.size
    · by_cases hdiv : c / BPB = b / BPB
      · have hB : BBLOCK sb c = BBLOCK sb b := by rw [BBLOCK, BBLOCK, hdiv]
        simp only [hc, if_true, hB, update_self, hx c hdiv hc]
        by_cases hcb : c = b
        · rw [hcb, update_self, if_pos rfl]
        · simp [hcb, hc, hB]
      · have hB : BBLOCK sb c ≠ BBLOCK sb b := fun h => hdiv (Nat.add_right_cancel h)
        have hcb : c ≠ b := fun h => hdiv (by rw [h])
        simp [hc, hB, hcb]
    · have hcb : c ≠ b := fun h => hc (h ▸ hb)
      simp [hc, hcb]
  · funext c
    by_cases hc : IsData sb c
    · have hne : c ≠ BBLOCK sb b := by
        have := hc.1
        omega
      simp [hc, hne]
    · simp [hc]

theorem mod_eq_iff {b c : Nat} (h : c / BPB = b / BPB) : c % BPB = b % BPB ↔ c = b := by
  have hP : BPB = 8192 := rfl
  rw [hP] at h ⊢
  omega

theorem mod_lt_BPB (b : Nat) : b % BPB < BPB := Nat.mod_lt _ (by decide)

theorem view_setBit (hg : Geometry sb) (hb : b < sb.size) :
    view sb (update d (BBLOCK sb b) (setBit (d (BBLOCK sb b)) (b % BPB))) =
      { view sb d with used := update (view sb d).used b true } := by
  refine view_bit hg hb true fun c hdiv _ => ?_
  rw [getBit_setBit _ (mod_lt_BPB c)]
  by_cases hcb : c = b <;> simp [mod_eq_iff hdiv, hcb]

theorem view_clearBit (hg : Geometry sb) (hb : b < sb.size) :
    view sb (update d (BBLOCK sb b) (clearBit (d (BBLOCK sb b)) (b % BPB))) =
      { view sb d with used := update (view sb d).used b false } := by
  refine view_bit hg hb false fun c hdiv _ => ?_
  rw [getBit_clearBit _ (mod_lt_BPB c)]
  by_cases hcb : c = b <;> simp [mod_eq_iff hdiv, hcb]

theorem view_data (hg : Geometry sb) (hb : IsData sb b) :
    view sb (update d b x) =
      { view sb d with blk := update (view sb d).blk b x } := by
  have hmap := hg.bmapstart_le
  have hstart := hb.1
  unfold view
  congr 1
  · funext j
    by_cases hj : j < sb.ninodes
    · have hne : IBLOCK sb j ≠ b := by
        have := hg.iblock_lt hj
        omega
      simp [hj, hne]
    · simp [hj]
  · funext c
    by_cases hc : c < sb.size
    · have hne : BBLOCK sb c ≠ b := by
        have := hg.bblock_lt hc
        omega
      simp [hc, hne]
    · simp [hc]
  · funext c
    by_cases hcb : c = b
    · subst hcb
      simp [hb]
    · simp [hcb]

end

end Xv6.Fs
