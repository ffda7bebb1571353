import Xv6.Fs.Layout

/-!
# What inodes refer to

The slots of an inode are its addresses and the entries of its indirect block. The bitmap
is exact if it has the metadata blocks and, once each, the blocks in the slots of allocated
inodes. The content of an inode is read through its slots; the lemmas say what each change
of the disk that the routines make does to slots and content.
-/
namespace Xv6.Fs

open Function

set_option autoImplicit false

open Xv6.Lib (Exact)

inductive Slot where
  | addr (k : Nat)
  | entry (j : Nat)
  deriving DecidableEq, Repr

/-- The slot of block `bn` of a file. -/
def slotOf (bn : Nat) : Slot := if bn < NDIRECT then .addr bn else .entry (bn - NDIRECT)

theorem slotOf_inj {m n : Nat} (h : slotOf m = slotOf n) : m = n := by
  unfold slotOf at h
  split at h <;> split at h
  · exact Slot.addr.inj h
  · exact nomatch h
  · exact nomatch h
  · have := Slot.entry.inj h
    omega

theorem slotOf_ne_indirect (bn : Nat) : slotOf bn ≠ .addr NDIRECT := by
  unfold slotOf
  split
  · rintro ⟨⟩
    omega
  · exact nofun

theorem addr_setAddr_self (d : Dinode) {k : Nat} (a : Nat) (hk : k ≤ NDIRECT) :
    (d.setAddr k a).addr k = a := by
  simp [Dinode.addr, Dinode.setAddr, Nat.lt_succ_of_le hk]

theorem addr_setAddr_of_ne (d : Dinode) {k l : Nat} (a : Nat) (h : l ≠ k) :
    (d.setAddr k a).addr l = d.addr l := by
  unfold Dinode.addr Dinode.setAddr
  split
  · simp [h]
  · rfl

/-- What a slot of the inode refers to, with the data blocks `blk`. -/
def Dinode.ref (d : Dinode) (blk : Nat → Block) : Slot → Nat
  | .addr k => if d.type = 0 then 0 else d.addr k
  | .entry j =>
    if d.type = 0 ∨ d.addr NDIRECT = 0 ∨ NINDIRECT ≤ j then 0 else entry (blk (d.addr NDIRECT)) j

namespace View

variable (V : View)

def ref (i : Nat) (σ : Slot) : Nat := (V.din i).ref V.blk σ

/-- All slots, each with its inode. -/
def refs (k : Nat × Slot) : Nat := V.ref k.1 k.2

/-- The block that holds block `bn` of inode `i`, 0 if none does. -/
def fileBlock (i bn : Nat) : Nat := V.ref i (slotOf bn)

def byte (i off : Nat) : UInt8 :=
  if V.fileBlock i (off / BSIZE) = 0 then 0
  else (V.blk (V.fileBlock i (off / BSIZE))).mem (off % BSIZE)

def setDin (i : Nat) (d : Dinode) : View := { V with din := update V.din i d }

def setUsed (b : Nat) (v : Bool) : View := { V with used := update V.used b v }

def setBlk (b : Nat) (x : Block) : View := { V with blk := update V.blk b x }

/-- Block `b` is taken and cleared. -/
def take (b : Nat) : View := (V.setUsed b true).setBlk b fun _ => 0

variable {V} {i j b c : Nat} {d : Dinode} {x : Block} {v : Bool} {σ : Slot}

theorem refs_mk : V.refs (i, σ) = (V.din i).ref V.blk σ := rfl

@[simp] theorem setDin_self : (V.setDin i d).din i = d := update_self ..

theorem setDin_of_ne (h : j ≠ i) : (V.setDin i d).din j = V.din j := update_of_ne h ..

@[simp] theorem setDin_used : (V.setDin i d).used = V.used := rfl

@[simp] theorem setDin_blk : (V.setDin i d).blk = V.blk := rfl

@[simp] theorem setUsed_din : (V.setUsed b v).din = V.din := rfl

@[simp] theorem setUsed_used : (V.setUsed b v).used = update V.used b v := rfl

@[simp] theorem setUsed_blk : (V.setUsed b v).blk = V.blk := rfl

@[simp] theorem setBlk_din : (V.setBlk b x).din = V.din := rfl

@[simp] theorem setBlk_used : (V.setBlk b x).used = V.used := rfl

@[simp] theorem setBlk_self : (V.setBlk b x).blk b = x := update_self ..

theorem setBlk_of_ne (h : c ≠ b) : (V.setBlk b x).blk c = V.blk c := update_of_ne h ..

@[simp] theorem take_din : (V.take b).din = V.din := rfl

@[simp] theorem take_used : (V.take b).used = update V.used b true := rfl

@[simp] theorem take_self : (V.take b).blk b = fun _ => 0 := update_self ..

theorem take_of_ne (h : c ≠ b) : (V.take b).blk c = V.blk c := update_of_ne h ..

end View

/-- A file as its users see it. -/
@[ext] structure File where
  type : Nat
  major : Nat
  minor : Nat
  nlink : Nat
  size : Nat
  byte : Nat → UInt8

def View.file (V : View) (i : Nat) : File :=
  ⟨(V.din i).type, (V.din i).major, (V.din i).minor, (V.din i).nlink, (V.din i).size, V.byte i⟩

variable (sb : Superblock)

/-- The bitmap is exact. -/
abbrev Bitmap (V : View) : Prop := Exact (dataStart sb) sb.size V.refs V.used

section

variable {sb} {V V' : View} {i j k b c : Nat} {d : Dinode} {x : Block}

theorem Bitmap.data (h : Bitmap sb V) {σ : Slot} (hr : V.ref i σ ≠ 0) : IsData sb (V.ref i σ) :=
  h.range (i, σ) hr

/-! ## References -/

theorem ref_addr {f : Nat → Block} (ht : d.type ≠ 0) : d.ref f (.addr k) = d.addr k := if_neg ht

theorem ref_entry {f : Nat → Block} (ht : d.type ≠ 0) (hi : d.addr NDIRECT ≠ 0)
    (hj : j < NINDIRECT) : d.ref f (.entry j) = entry (f (d.addr NDIRECT)) j := by
  refine if_neg ?_
  rw [not_or, not_or, Nat.not_le]
  exact ⟨ht, hi, hj⟩

theorem ref_entry_of_zero {blk : Nat → Block} (hi : d.addr NDIRECT = 0) :
    d.ref blk (.entry j) = 0 := if_pos (.inr (.inl hi))

/-- References are read from the inode and from its indirect block. -/
theorem ref_congr {blk blk' : Nat → Block} (h : d.type ≠ 0 → d.addr NDIRECT ≠ 0 →
    blk' (d.addr NDIRECT) = blk (d.addr NDIRECT)) (σ : Slot) : d.ref blk' σ = d.ref blk σ := by
  cases σ with
  | addr k => rfl
  | entry j =>
    simp only [Dinode.ref]
    split
    · rfl
    · rename_i hn
      rw [not_or, not_or] at hn
      rw [h hn.1 hn.2.1]

theorem ref_setAddr {blk : Nat → Block} {σ : Slot} (hσ : σ ≠ .addr k) (hk : k ≠ NDIRECT) :
    (d.setAddr k b).ref blk σ = d.ref blk σ := by
  cases σ with
  | addr l =>
    have hl : l ≠ k := fun h => hσ (h ▸ rfl)
    simp only [Dinode.ref, addr_setAddr_of_ne d b hl]
    rfl
  | entry j =>
    simp only [Dinode.ref, addr_setAddr_of_ne d b hk.symm]
    rfl

theorem Bitmap.key (h : Bitmap sb V) {σ τ : Slot} (hr : V.ref i σ ≠ 0)
    (he : V.ref i σ = V.ref j τ) : i = j ∧ σ = τ :=
  Prod.mk.inj (h.inj (i, σ) (j, τ) hr he)

/-- No slot but its own has the block of an indirect address. -/
theorem Bitmap.indirect_ne (h : Bitmap sb V) (ht : (V.din i).type ≠ 0) {σ : Slot}
    (hr : V.ref j σ ≠ 0) (hσ : (j, σ) ≠ (i, .addr NDIRECT)) :
    V.ref j σ ≠ (V.din i).addr NDIRECT := by
  intro he
  obtain ⟨rfl, rfl⟩ := h.key (τ := .addr NDIRECT) hr (he.trans (ref_addr ht).symm)
  exact hσ rfl

theorem Bitmap.indirect_ne_free (h : Bitmap sb V) (hb : V.used b = false)
    (ht : (V.din i).type ≠ 0) (hi : (V.din i).addr NDIRECT ≠ 0) : (V.din i).addr NDIRECT ≠ b := by
  have hind : V.refs (i, .addr NDIRECT) = (V.din i).addr NDIRECT := ref_addr (f := V.blk) ht
  rw [← hind] at hi ⊢
  exact h.ne_of_free hb hi

/-- References depend on the types and the addresses of the inodes. -/
theorem refs_setDin (ht : d.type = (V.din i).type) (ha : d.addrs = (V.din i).addrs) :
    (V.setDin i d).refs = V.refs := by
  have haddr : d.addr = (V.din i).addr := by
    funext k
    simp only [Dinode.addr, ha]
  funext ⟨j, σ⟩
  by_cases hji : j = i
  · subst hji
    rw [View.refs_mk, View.refs_mk, View.setDin_self, View.setDin_blk]
    cases σ <;> simp only [Dinode.ref, ht, haddr]
  · rw [View.refs_mk, View.refs_mk, View.setDin_of_ne hji, View.setDin_blk]

theorem byte_congr (hrefs : V'.refs = V.refs) (hblk : V'.blk = V.blk) : V'.byte = V.byte := by
  funext j off
  have hfb : V'.fileBlock j (off / BSIZE) = V.fileBlock j (off / BSIZE) :=
    congrFun hrefs (j, slotOf _)
  rw [View.byte, hfb, hblk, View.byte]

/-! ## Taking a block -/

theorem entry_zero (j : Nat) : entry (fun _ => 0) j = 0 := by
  have hz : Block.mem (fun _ => 0) = fun _ => 0 := by
    funext i
    simp [Block.mem]
  simp [entry, Block.get, hz, Lib.Bytes.getLE]

theorem Bitmap.ref_take (h : Bitmap sb V) (hb : V.used b = false) (i : Nat) (σ : Slot) :
    (V.din i).ref (V.take b).blk σ = (V.din i).ref V.blk σ :=
  ref_congr (fun ht hi => View.take_of_ne (h.indirect_ne_free hb ht hi)) σ

/-- The taken block becomes address `k` of inode `i`. -/
theorem Bitmap.refs_takeAddr (h : Bitmap sb V) (hb : V.used b = false) (hk : k ≤ NDIRECT)
    (ht : (V.din i).type ≠ 0) (h0 : (V.din i).addr k = 0) :
    ((V.take b).setDin i ((V.din i).setAddr k b)).refs = update V.refs (i, .addr k) b := by
  have ht' : ((V.din i).setAddr k b).type ≠ 0 := ht
  funext ⟨j, σ⟩
  rw [View.refs_mk, View.setDin_blk]
  by_cases hji : j = i
  · subst hji
    rw [View.setDin_self]
    by_cases hσ : σ = .addr k
    · subst hσ
      rw [update_self, ref_addr ht', addr_setAddr_self _ _ hk]
    · rw [update_of_ne (fun he => hσ (Prod.mk.inj he).2), View.refs_mk]
      by_cases hind : k = NDIRECT
      · subst hind
        cases σ with
        | addr l =>
          have hl : l ≠ NDIRECT := fun he => hσ (he ▸ rfl)
          rw [ref_addr ht', ref_addr ht, addr_setAddr_of_ne _ _ hl]
        | entry l =>
          -- a fresh indirect block has no entries
          rw [ref_entry_of_zero h0]
          simp only [Dinode.ref, addr_setAddr_self _ _ le_rfl, View.take_self, entry_zero, ite_self]
      · rw [ref_setAddr hσ hind, h.ref_take hb]
  · rw [update_of_ne (fun he => hji (Prod.mk.inj he).1), View.setDin_of_ne hji, View.refs_mk]
    exact h.ref_take hb j σ

/-- The taken block becomes entry `j` of the indirect block of inode `i`. -/
theorem Bitmap.refs_takeEntry (h : Bitmap sb V) (hn : b < sb.size) (hs : sb.size ≤ 2 ^ 32)
    (hb : V.used b = false) (ht : (V.din i).type ≠ 0) (hi : (V.din i).addr NDIRECT ≠ 0)
    (hj : j < NINDIRECT) :
    ((V.take b).setBlk ((V.din i).addr NDIRECT)
      ((V.blk ((V.din i).addr NDIRECT)).put (4 * j) 4 b)).refs =
      update V.refs (i, .entry j) b := by
  have hne := h.indirect_ne_free hb ht hi
  have hB : BSIZE = 1024 := rfl
  have hN : NINDIRECT = 256 := rfl
  funext ⟨l, σ⟩
  rw [View.refs_mk, View.setBlk_din, View.take_din]
  by_cases hli : l = i
  · subst hli
    by_cases hσ : σ = .entry j
    · subst hσ
      rw [update_self, ref_entry ht hi hj, View.setBlk_self, entry]
      exact Block.get_put_same (by omega) (by omega)
    · rw [update_of_ne (fun he => hσ (Prod.mk.inj he).2), View.refs_mk]
      cases σ with
      | addr k => rfl
      | entry k =>
        have hkj : k ≠ j := fun he => hσ (he ▸ rfl)
        by_cases hk : k < NINDIRECT
        · rw [ref_entry ht hi hk, ref_entry ht hi hk, View.setBlk_self, entry, entry]
          exact Block.get_put_disjoint _ (by omega)
        · simp only [Dinode.ref, Nat.le_of_not_lt hk, or_true, if_true]
  · rw [update_of_ne (fun he => hli (Prod.mk.inj he).1), View.refs_mk]
    refine (ref_congr (fun ht' hi' => ?_) σ).trans (h.ref_take hb l σ)
    refine View.setBlk_of_ne ?_
    -- two inodes do not share an indirect block
    have hne' := h.indirect_ne (j := l) (σ := .addr NDIRECT) ht ?_ ?_
    · rwa [View.ref, ref_addr ht'] at hne'
    · rwa [View.ref, ref_addr ht']
    · exact fun he => hli (Prod.mk.inj he).1

/-! ## Content -/

/-- A data block of a file holds no references. -/
theorem Bitmap.refs_setBlk (h : Bitmap sb V) {bn : Nat} (hr : V.fileBlock i bn ≠ 0) :
    (V.setBlk (V.fileBlock i bn) x).refs = V.refs := by
  funext ⟨j, σ⟩
  refine ref_congr (fun ht hi => View.setBlk_of_ne ?_) σ
  exact (h.indirect_ne ht hr fun he => slotOf_ne_indirect bn (Prod.mk.inj he).2).symm

theorem Bitmap.byte_setBlk (h : Bitmap sb V) {bn : Nat} (hr : V.fileBlock i bn ≠ 0) (j off : Nat) :
    (V.setBlk (V.fileBlock i bn) x).byte j off =
      if j = i ∧ off / BSIZE = bn then x.mem (off % BSIZE) else V.byte j off := by
  have hfb : ∀ j n, (V.setBlk (V.fileBlock i bn) x).fileBlock j n = V.fileBlock j n :=
    fun j n => congrFun (h.refs_setBlk hr) (j, slotOf n)
  unfold View.byte
  rw [hfb]
  by_cases hc : j = i ∧ off / BSIZE = bn
  · obtain ⟨rfl, rfl⟩ := hc
    rw [if_neg hr, if_pos ⟨rfl, rfl⟩, View.setBlk_self]
  · rw [if_neg hc]
    by_cases hz : V.fileBlock j (off / BSIZE) = 0
    · rw [if_pos hz, if_pos hz]
    · rw [if_neg hz, if_neg hz, View.setBlk_of_ne]
      intro he
      obtain ⟨rfl, hs⟩ := h.key hz he
      exact hc ⟨rfl, slotOf_inj hs⟩

end

end Xv6.Fs
