import Xv6.Fs.Alloc
import Mathlib.Data.Finset.Card

/-!
# Mapping the blocks of a file

`bmap` adds blocks to a file and changes nothing that can be seen in any file. The inode it
works on is in memory: its state is the view of the disk with that inode put in.
-/
namespace Xv6.Fs

set_option autoImplicit false

open Xv6.Lib Xv6.Lib.Prog Function

variable (sb : Superblock)

/-- From `V` to `V'` blocks have been added to file `i`, with no change to what files hold. -/
structure Grows (i : Nat) (V V' : View) : Prop where
  bitmap : Bitmap sb V'
  other : ∀ j ≠ i, V'.din j = V.din j
  same : ∃ as, V'.din i = { V.din i with addrs := as }
  byte : V'.byte = V.byte
  keep : ∀ j bn, V.fileBlock j bn ≠ 0 → V'.fileBlock j bn = V.fileBlock j bn

/-- How many blocks are free. -/
def View.free (V : View) : Nat := ((Finset.range sb.size).filter fun b => V.used b = false).card

/-- Block `bn` of file `i` is there, or there is room for it and its indirect block. -/
def View.CanMap (V : View) (i bn : Nat) : Prop :=
  V.fileBlock i bn ≠ 0 ∨
    (if bn < NDIRECT ∨ (V.din i).addr NDIRECT ≠ 0 then 1 else 2) ≤ V.free sb

/-- From `V` to `V'` file `i` has got blocks in the slots `Δ`, which were empty. -/
structure Fills (i : Nat) (Δ : Finset Slot) (V V' : View) : Prop where
  new : ∀ σ ∈ Δ, V.ref i σ = 0 ∧ V'.ref i σ ≠ 0
  old : ∀ σ ∉ Δ, V'.ref i σ = V.ref i σ
  free : V'.free sb + Δ.card = V.free sb
  used : ∀ b, V.used b = true → V'.used b = true

/-- The slots that block `bn` of a file needs. -/
def slotsFor (bn : Nat) : Finset Slot :=
  if bn < NDIRECT then {slotOf bn} else {slotOf bn, .addr NDIRECT}

/-- What is logged when file `i` gets blocks in some of the slots `S`: the bits of blocks that
come into use, and blocks of the file. -/
def Noted (i : Nat) (S : Finset Slot) (V V' : View) (c : Nat) : Prop :=
  (∃ b, V.used b = false ∧ V'.used b = true ∧ c = BBLOCK sb b) ∨
    ∃ σ ∈ S, V'.ref i σ ≠ 0 ∧ c = V'.ref i σ

/-- How many of the slots of file `i` are empty. -/
def View.missing (V : View) (i : Nat) (S : Finset Slot) : Nat := (S.filter fun σ => V.ref i σ = 0).card

section

variable {sb} {i j k bn b : Nat} {V V' V'' : View} {σ : Slot}

theorem free_eq_zero : V.free sb = 0 ↔ ∀ b < sb.size, V.used b = true := by
  simp [View.free, Finset.card_eq_zero, Finset.filter_eq_empty_iff]

theorem free_take (hn : b < sb.size) (hb : V.used b = false) :
    (V.take b).free sb + 1 = V.free sb := by
  have hmem : b ∈ (Finset.range sb.size).filter fun b => V.used b = false := by
    simp [hn, hb]
  have herase : ((Finset.range sb.size).filter fun c => (V.take b).used c = false) =
      ((Finset.range sb.size).filter fun c => V.used c = false).erase b := by
    ext c
    rw [Finset.mem_filter, Finset.mem_erase, Finset.mem_filter, View.take_used]
    by_cases hcb : c = b
    · simp [hcb]
    · simp [hcb]
  rw [View.free, herase, Finset.card_erase_add_one hmem, View.free]

/-! ## Filling slots -/

theorem Fills.refl : Fills sb i ∅ V V :=
  ⟨fun _ h => absurd h (Finset.notMem_empty _), fun _ _ => rfl, rfl, fun _ h => h⟩

theorem Fills.of_eq {Δ : Finset Slot} (h : Fills sb i Δ V V') (hrefs : V''.refs = V'.refs)
    (hused : V''.used = V'.used) : Fills sb i Δ V V'' := by
  have href : ∀ σ, V''.ref i σ = V'.ref i σ := fun σ => congrFun hrefs (i, σ)
  have hfree : V''.free sb = V'.free sb := by simp only [View.free, hused]
  constructor
  · simpa only [href] using h.new
  · simpa only [href] using h.old
  · rw [hfree]
    exact h.free
  · rw [hused]
    exact h.used

theorem Fills.keep {Δ : Finset Slot} (h : Fills sb i Δ V V') (hr : V.ref i σ ≠ 0) :
    V'.ref i σ = V.ref i σ := h.old σ fun hσ => hr (h.new σ hσ).1

theorem Fills.trans {Δ Δ' : Finset Slot} (h : Fills sb i Δ V V') (h' : Fills sb i Δ' V' V'') :
    Fills sb i (Δ ∪ Δ') V V'' := by
  have hdisj : Disjoint Δ Δ' := by
    rw [Finset.disjoint_left]
    intro σ h1 h2
    exact (h.new σ h1).2 (h'.new σ h2).1
  constructor
  · intro σ hσ
    by_cases h1 : σ ∈ Δ
    · have h2 := Finset.disjoint_left.mp hdisj h1
      rw [h'.old σ h2]
      exact h.new σ h1
    · have h2 := h'.new σ ((Finset.mem_union.mp hσ).resolve_left h1)
      rw [h.old σ h1] at h2
      exact h2
  · intro σ hσ
    rw [Finset.mem_union, not_or] at hσ
    rw [h'.old σ hσ.2, h.old σ hσ.1]
  · have h1 := h.free
    have h2 := h'.free
    rw [Finset.card_union_of_disjoint hdisj]
    omega
  · exact fun b hb => h'.used b (h.used b hb)

/-- What is filled is not missing any more. -/
theorem Fills.missing {Δ S : Finset Slot} (h : Fills sb i Δ V V') (hS : Δ ⊆ S) :
    V'.missing i S + Δ.card = V.missing i S := by
  have hsplit : (S.filter fun σ => V.ref i σ = 0) = (S.filter fun σ => V'.ref i σ = 0) ∪ Δ := by
    ext σ
    rw [Finset.mem_union, Finset.mem_filter, Finset.mem_filter]
    by_cases hσ : σ ∈ Δ
    · simp [hσ, hS hσ, (h.new σ hσ).1]
    · simp [hσ, h.old σ hσ]
  have hdisj : Disjoint (S.filter fun σ => V'.ref i σ = 0) Δ := by
    rw [Finset.disjoint_left]
    intro σ h1 h2
    exact (h.new σ h2).2 (Finset.mem_filter.mp h1).2
  rw [View.missing, View.missing, hsplit, Finset.card_union_of_disjoint hdisj]

theorem slotOf_mem_slotsFor (bn : Nat) : slotOf bn ∈ slotsFor bn := by
  unfold slotsFor
  split <;> simp

theorem subset_slotsFor_direct (h : bn < NDIRECT) : {Slot.addr bn} ⊆ slotsFor bn := by
  have hmem := slotOf_mem_slotsFor bn
  rw [slotOf, if_pos h] at hmem
  exact Finset.singleton_subset_iff.mpr hmem

theorem indirect_mem_slotsFor (h : ¬bn < NDIRECT) : .addr NDIRECT ∈ slotsFor bn := by
  rw [slotsFor, if_neg h]
  simp

/-- With room for all the slots that are missing, there is room for each. -/
theorem canMap_of_missing {S : Finset Slot} (ht : (V.din i).type ≠ 0) (hS : slotsFor bn ⊆ S)
    (h : V.missing i S ≤ V.free sb) : V.CanMap sb i bn := by
  rw [View.CanMap]
  by_cases hr : V.fileBlock i bn = 0
  · right
    have hmono : V.missing i (slotsFor bn) ≤ V.missing i S :=
      Finset.card_le_card (Finset.filter_subset_filter _ hS)
    refine le_trans ?_ (hmono.trans h)
    have hslot : V.ref i (slotOf bn) = 0 := hr
    by_cases hor : bn < NDIRECT ∨ (V.din i).addr NDIRECT ≠ 0
    · rw [if_pos hor, View.missing, Finset.one_le_card]
      exact ⟨slotOf bn, Finset.mem_filter.mpr ⟨slotOf_mem_slotsFor bn, hslot⟩⟩
    · rw [if_neg hor]
      rw [not_or, not_not] at hor
      have hind : V.ref i (.addr NDIRECT) = 0 := by
        rw [View.ref, ref_addr ht, hor.2]
      rw [View.missing, slotsFor, if_neg hor.1, Finset.filter_true_of_mem,
        Finset.card_pair (slotOf_ne_indirect bn)]
      intro σ hσ
      rcases Finset.mem_insert.mp hσ with rfl | hσ
      · exact hslot
      · rw [Finset.mem_singleton.mp hσ]
        exact hind
  · exact Or.inl hr

/-! ## Growth -/

theorem Grows.refl (h : Bitmap sb V) : Grows sb i V V :=
  ⟨h, fun _ _ => rfl, ⟨_, rfl⟩, rfl, fun _ _ _ => rfl⟩

theorem Grows.trans (h : Grows sb i V V') (h' : Grows sb i V' V'') : Grows sb i V V'' where
  bitmap := h'.bitmap
  other j hj := (h'.other j hj).trans (h.other j hj)
  same := by
    obtain ⟨as, ha⟩ := h.same
    obtain ⟨as', ha'⟩ := h'.same
    exact ⟨as', by rw [ha', ha]⟩
  byte := h'.byte.trans h.byte
  keep j bn hr := by
    have hk := h.keep j bn hr
    exact (h'.keep j bn (hk ▸ hr)).trans hk

theorem Grows.type (h : Grows sb i V V') : (V'.din i).type = (V.din i).type := by
  obtain ⟨as, ha⟩ := h.same
  rw [ha]

/-- A taken block that becomes one slot. -/
theorem Grows.of_refs (h : Bitmap sb V) (hn : b < sb.size) (hb : V.used b = false)
    (h0 : V.refs (i, σ) = 0) (hrefs : V'.refs = update V.refs (i, σ) b)
    (hused : V'.used = update V.used b true) (hzero : V'.blk b = fun _ => 0)
    (hblk : ∀ j bn, V.fileBlock j bn ≠ 0 →
      V'.blk (V.fileBlock j bn) = V.blk (V.fileBlock j bn))
    (hother : ∀ j ≠ i, V'.din j = V.din j) (hsame : ∃ as, V'.din i = { V.din i with addrs := as }) :
    Grows sb i V V' := by
  have hb0 : b ≠ 0 := h.ne_zero (h.le_of_free hn hb)
  have hkeep : ∀ j bn, V.fileBlock j bn ≠ 0 → V'.fileBlock j bn = V.fileBlock j bn := by
    intro j bn hr
    have hne : (j, slotOf bn) ≠ (i, σ) := by
      intro he
      exact hr ((congrArg V.refs he).trans h0)
    exact (congrFun hrefs (j, slotOf bn)).trans (update_of_ne hne ..)
  refine ⟨?_, hother, hsame, ?_, hkeep⟩
  · rw [Bitmap, hrefs, hused]
    exact h.alloc hn hb h0
  · funext j off
    unfold View.byte
    by_cases hr : V.fileBlock j (off / BSIZE) = 0
    · rw [if_pos hr]
      by_cases hnew : (j, slotOf (off / BSIZE)) = (i, σ)
      · have hfb : V'.fileBlock j (off / BSIZE) = b :=
          (congrFun hrefs (j, slotOf (off / BSIZE))).trans (hnew ▸ update_self ..)
        rw [hfb, if_neg hb0, hzero]
        simp [Block.mem]
      · have hfb : V'.fileBlock j (off / BSIZE) = 0 :=
          ((congrFun hrefs (j, slotOf (off / BSIZE))).trans (update_of_ne hnew ..)).trans hr
        rw [if_pos hfb]
    · rw [hkeep j _ hr, if_neg hr, if_neg hr, hblk j _ hr]
theorem Noted.before {S Δ : Finset Slot} {c : Nat} (hf : Fills sb i Δ V V')
    (h : Noted sb i S V' V'' c) : Noted sb i S V V'' c := by
  refine h.imp_left fun ⟨b, h0, h1, hc⟩ => ⟨b, ?_, h1, hc⟩
  cases hb : V.used b with
  | false => rfl
  | true => exact absurd (hf.used b hb) (by simp [h0])

theorem Noted.after {S Δ : Finset Slot} {c : Nat} (hf : Fills sb i Δ V' V'')
    (h : Noted sb i S V V' c) : Noted sb i S V V'' c := by
  rcases h with ⟨b, h0, h1, hc⟩ | ⟨σ, hσ, h0, hc⟩
  · exact .inl ⟨b, h0, hf.used b h1, hc⟩
  · have hk := hf.keep h0
    exact .inr ⟨σ, hσ, hk ▸ h0, hc.trans hk.symm⟩

theorem Noted.mono {S S' : Finset Slot} {c : Nat} (hS : S ⊆ S') (h : Noted sb i S V V' c) :
    Noted sb i S' V V' c := h.imp_right fun ⟨σ, hσ, hr⟩ => ⟨σ, hS hσ, hr⟩

theorem Fills.of_refs (hn : b < sb.size) (hb : V.used b = false) (hb0 : b ≠ 0)
    (h0 : V.refs (i, σ) = 0) (hrefs : V'.refs = update V.refs (i, σ) b)
    (hused : V'.used = update V.used b true) : Fills sb i {σ} V V' := by
  constructor
  · intro τ hτ
    obtain rfl := Finset.mem_singleton.mp hτ
    have hself : V'.ref i τ = b := (congrFun hrefs (i, τ)).trans (update_self ..)
    rw [hself]
    exact ⟨h0, hb0⟩
  · intro τ hτ
    have hne : (i, τ) ≠ (i, σ) := fun he => hτ (Finset.mem_singleton.mpr (Prod.mk.inj he).2)
    exact (congrFun hrefs (i, τ)).trans (update_of_ne hne ..)
  · have hfree : V'.free sb = (V.take b).free sb := by
      unfold View.free
      rw [hused, View.take_used]
    rw [hfree, Finset.card_singleton]
    exact free_take hn hb
  · intro c hc
    rw [hused, update_apply]
    split
    · rfl
    · exact hc

theorem Bitmap.block_ne (h : Bitmap sb V) (hb : V.used b = false) (hr : V.fileBlock j bn ≠ 0) :
    V.fileBlock j bn ≠ b :=
  h.ne_of_free (k := (j, slotOf bn)) hb hr

theorem grows_takeAddr (h : Bitmap sb V) (hn : b < sb.size) (hb : V.used b = false)
    (hk : k ≤ NDIRECT) (ht : (V.din i).type ≠ 0) (h0 : (V.din i).addr k = 0) :
    Grows sb i V ((V.take b).setDin i ((V.din i).setAddr k b)) := by
  refine .of_refs h hn hb ?_ (h.refs_takeAddr hb hk ht h0) rfl View.take_self ?_ ?_ ?_
  · exact (ref_addr (f := V.blk) ht).trans h0
  · exact fun j bn hr => View.take_of_ne (h.block_ne hb hr)
  · exact fun j hj => View.setDin_of_ne hj
  · exact ⟨_, View.setDin_self⟩

theorem grows_takeEntry (h : Bitmap sb V) (hs : sb.size ≤ 2 ^ 32) (hn : b < sb.size)
    (hb : V.used b = false) (ht : (V.din i).type ≠ 0) (hi : (V.din i).addr NDIRECT ≠ 0)
    (hj : j < NINDIRECT) (h0 : entry (V.blk ((V.din i).addr NDIRECT)) j = 0) :
    Grows sb i V ((V.take b).setBlk ((V.din i).addr NDIRECT)
      ((V.blk ((V.din i).addr NDIRECT)).put (4 * j) 4 b)) := by
  have hne := h.indirect_ne_free hb ht hi
  refine .of_refs h hn hb ?_ (h.refs_takeEntry hn hs hb ht hi hj) ?_ ?_ ?_ ?_ ?_
  · exact (ref_entry (f := V.blk) ht hi hj).trans h0
  · rw [View.setBlk_used, View.take_used]
  · rw [View.setBlk_of_ne hne.symm, View.take_self]
  · intro l bn hr
    have hne' : V.fileBlock l bn ≠ (V.din i).addr NDIRECT :=
      h.indirect_ne ht hr fun he => slotOf_ne_indirect bn (Prod.mk.inj he).2
    rw [View.setBlk_of_ne hne', View.take_of_ne (h.block_ne hb hr)]
  · exact fun _ _ => rfl
  · exact ⟨(V.din i).addrs, rfl⟩

end

/-! ## The routines -/

/-- The view with the inode in memory. -/
def memView (d : Disk) (i : Nat) (ip : Dinode) : View := (view sb d).setDin i ip

section

variable {sb} {E : Stop → Prop} {s : Io} {i k bn : Nat} {ip : Dinode} {d : Disk}

@[simp] theorem memView_din : (memView sb d i ip).din i = ip := View.setDin_self

theorem memView_self : memView sb d i ((view sb d).din i) = view sb d := by
  rw [memView, View.setDin, update_eq_self]

theorem memView_setDin (ip' : Dinode) :
    (memView sb d i ip).setDin i ip' = memView sb d i ip' := by
  simp only [memView, View.setDin, update_idem]

theorem take_setDin (V : View) (b i : Nat) (ip ip' : Dinode) :
    ((V.setDin i ip).take b).setDin i ip' = (V.take b).setDin i ip' := by
  simp only [View.setDin, View.take, View.setBlk, View.setUsed, update_idem]

theorem not_free_ref (hbm : Bitmap sb (memView sb d i ip)) {σ : Slot}
    (hr : (memView sb d i ip).ref i σ ≠ 0) : ¬FreeBlock sb d ((memView sb d i ip).ref i σ) := by
  rintro ⟨-, hf⟩
  have hu : (view sb d).used ((memView sb d i ip).ref i σ) = true := hbm.used_ref (k := (i, σ)) hr
  simp [hu] at hf

/-- The address `k` of the inode, which is added if there is a free block. -/
theorem runs_bmapAddr (hg : Geometry sb) (hbm : Bitmap sb (memView sb s.disk i ip))
    (ht : ip.type ≠ 0) (hk : k ≤ NDIRECT) (htr : s.trans = true) {Q : Dinode × Nat → Io → Prop}
    (hsame : ip.addr k ≠ 0 ∨ (memView sb s.disk i ip).free sb = 0 → Q (ip, ip.addr k) s)
    (hnew : ip.addr k = 0 → ∀ ip' t,
      Grows sb i (memView sb s.disk i ip) (memView sb t.disk i ip') →
      Fills sb i {.addr k} (memView sb s.disk i ip) (memView sb t.disk i ip') → ip'.addr k ≠ 0 →
      Saves (Noted sb i {.addr k} (memView sb s.disk i ip) (memView sb t.disk i ip')) s t →
      Q (ip', ip'.addr k) t) :
    Runs sb E (bmapAddr sb ip k) Q s := by
  unfold bmapAddr
  refine .ite (fun h0 => ?_) fun h0 => .pure (hsame (.inl h0))
  refine .bind ?_
  refine runs_balloc hg htr hbm.reserved ?_ ?_
  · intro hfull
    refine .ite (fun _ => .pure ?_) fun hn => absurd rfl hn
    have hq := hsame (.inr (free_eq_zero.mpr hfull))
    rwa [h0] at hq
  · intro b t hn hb hd hsave
    have hfree : (memView sb s.disk i ip).used b = false := hb
    have hb0 : b ≠ 0 := hbm.ne_zero (hbm.le_of_free hn hfree)
    have hself : (ip.setAddr k b).addr k = b := addr_setAddr_self _ _ hk
    have hview : memView sb t.disk i (ip.setAddr k b) = ((memView sb s.disk i ip).take b).setDin i
        (((memView sb s.disk i ip).din i).setAddr k b) := by
      rw [memView_din, memView, memView, take_setDin, hd]
    have ht' : ((memView sb s.disk i ip).din i).type ≠ 0 := by rwa [memView_din]
    have h0' : ((memView sb s.disk i ip).din i).addr k = 0 := by rwa [memView_din]
    have href : (memView sb t.disk i (ip.setAddr k b)).ref i (.addr k) = b := by
      rw [View.ref, memView_din, ref_addr (by exact ht), hself]
    refine .ite (fun h => absurd h hb0) fun _ => .pure ?_
    have hq := hnew h0 (ip.setAddr k b) t ?_ ?_ (by rwa [hself]) (hsave.weaken ?_)
    · rwa [hself] at hq
    · rw [hview]
      exact grows_takeAddr hbm hn hfree hk ht' h0'
    · rw [hview]
      exact .of_refs hn hfree hb0 ((ref_addr (f := (memView sb s.disk i ip).blk) ht').trans h0')
        (hbm.refs_takeAddr hfree hk ht' h0') rfl
    · rintro c (rfl | rfl)
      · exact .inr ⟨_, Finset.mem_singleton_self _, href.symm ▸ hb0, href.symm⟩
      · refine .inl ⟨b, hfree, ?_, rfl⟩
        rw [hview]
        exact update_self ..

/-- Entry `j` of the indirect block, which is added if there is a free block. -/
theorem runs_bmapEntry (hg : Geometry sb) (hbm : Bitmap sb (memView sb s.disk i ip))
    (ht : ip.type ≠ 0) (hi : ip.addr NDIRECT ≠ 0) {j : Nat} (hj : j < NINDIRECT)
    (htr : s.trans = true) {Q : Nat → Io → Prop}
    (hsame : (memView sb s.disk i ip).ref i (.entry j) ≠ 0 ∨ (memView sb s.disk i ip).free sb = 0 →
      Q ((memView sb s.disk i ip).ref i (.entry j)) s)
    (hnew : (memView sb s.disk i ip).ref i (.entry j) = 0 →
      ∀ t, Grows sb i (memView sb s.disk i ip) (memView sb t.disk i ip) →
      Fills sb i {.entry j} (memView sb s.disk i ip) (memView sb t.disk i ip) →
      Saves (Noted sb i {.entry j, .addr NDIRECT} (memView sb s.disk i ip) (memView sb t.disk i ip))
        s t →
      Q ((memView sb t.disk i ip).ref i (.entry j)) t) :
    Runs sb E (bmapEntry sb (ip.addr NDIRECT) j) Q s := by
  have hdata : IsData sb (ip.addr NDIRECT) := by
    have := hbm.data (i := i) (σ := .addr NDIRECT)
    rw [View.ref, memView_din, ref_addr ht] at this
    exact this hi
  have hblk : (memView sb s.disk i ip).blk (ip.addr NDIRECT) = s.disk (ip.addr NDIRECT) :=
    view_blk hdata
  have hent : (memView sb s.disk i ip).ref i (.entry j) = entry (s.disk (ip.addr NDIRECT)) j := by
    rw [View.ref, memView_din, ref_entry ht hi hj, hblk]
  have hind : ∀ d : Disk, (memView sb d i ip).ref i (.addr NDIRECT) = ip.addr NDIRECT := by
    intro d
    rw [View.ref, memView_din, ref_addr ht]
  have hnf : ¬FreeBlock sb s.disk (ip.addr NDIRECT) := by
    have := not_free_ref hbm (σ := .addr NDIRECT) (by rwa [hind])
    rwa [hind] at this
  rw [bmapEntry]
  refine runs_bread (runs_load hnf ?_)
  refine .ite (fun h0 => ?_) fun h0 => ?_
  · have h0' := hent.trans h0
    refine .bind ?_
    refine runs_balloc hg htr hbm.reserved ?_ ?_
    · intro hfull
      refine .ite (fun hn => absurd rfl hn) fun _ => runs_brelse (.pure ?_)
      have hq := hsame (.inr (free_eq_zero.mpr hfull))
      rwa [h0'] at hq
    · intro b t hn hb hd hsave
      have hfree : (memView sb s.disk i ip).used b = false := hb
      have hb0 : b ≠ 0 := hbm.ne_zero (hbm.le_of_free hn hfree)
      have ht' : ((memView sb s.disk i ip).din i).type ≠ 0 := by rwa [memView_din]
      have hi' : ((memView sb s.disk i ip).din i).addr NDIRECT ≠ 0 := by rwa [memView_din]
      have hgrow := grows_takeEntry hbm hg.size hn hfree ht' hi' hj
        (by rw [memView_din, hblk]; exact h0)
      have hrefs := hbm.refs_takeEntry hn hg.size hfree ht' hi' hj
      rw [memView_din, hblk] at hgrow hrefs
      generalize (s.disk (ip.addr NDIRECT)).put (4 * j) 4 b = x at hgrow hrefs ⊢
      have hview : memView sb (update t.disk (ip.addr NDIRECT) x) i ip =
          ((memView sb s.disk i ip).take b).setBlk (ip.addr NDIRECT) x := by
        rw [memView, view_data hg hdata, hd]
        rfl
      have hfills : Fills sb i {.entry j} (memView sb s.disk i ip)
          (((memView sb s.disk i ip).take b).setBlk (ip.addr NDIRECT) x) :=
        .of_refs hn hfree hb0 h0' hrefs rfl
      rw [← hview] at hgrow hrefs hfills
      have hself : (memView sb (update t.disk (ip.addr NDIRECT) x) i ip).ref i (.entry j) = b :=
        (congrFun hrefs (i, .entry j)).trans (update_self ..)
      have hused : (memView sb (update t.disk (ip.addr NDIRECT) x) i ip).used b = true := by
        rw [hview]
        exact update_self ..
      have hnoted : ∀ c, c = b ∨ c = BBLOCK sb b → Noted sb i {.entry j, .addr NDIRECT}
          (memView sb s.disk i ip) (memView sb (update t.disk (ip.addr NDIRECT) x) i ip) c := by
        rintro c (rfl | rfl)
        · exact .inr ⟨.entry j, Finset.mem_insert_self .., by rwa [hself], hself.symm⟩
        · exact .inl ⟨b, hfree, hused, rfl⟩
      have hnotedInd : Noted sb i {.entry j, .addr NDIRECT} (memView sb s.disk i ip)
          (memView sb (update t.disk (ip.addr NDIRECT) x) i ip) (ip.addr NDIRECT) := by
        refine .inr ⟨.addr NDIRECT, Finset.mem_insert_of_mem (Finset.mem_singleton_self _), ?_, ?_⟩
        · rwa [hind]
        · rw [hind]
      refine .ite (fun _ => ?_) fun h => absurd hb0 h
      refine runs_save (hsave.inTrans.trans htr) (fun c _ hf => ⟨hf.1, ?_⟩) (runs_brelse (.pure ?_))
      · rw [view_data hg hdata]
        exact hf.2
      have hq := hnew h0' ((t.setBlock (ip.addr NDIRECT) x).record (ip.addr NDIRECT)) hgrow hfills
        (.trans (hsave.weaken hnoted) (.save hnotedInd))
      change Q ((memView sb (update t.disk (ip.addr NDIRECT) x) i ip).ref i (.entry j)) _ at hq
      rwa [hself] at hq
  · have h0' : (memView sb s.disk i ip).ref i (.entry j) ≠ 0 := hent ▸ h0
    have hq := hsame (.inl h0')
    rw [hent] at hq
    exact runs_brelse (.pure hq)

theorem fileBlock_direct (h : bn < NDIRECT) (ht : ip.type ≠ 0) :
    (memView sb d i ip).fileBlock i bn = ip.addr bn := by
  rw [View.fileBlock, View.ref, memView_din, slotOf, if_pos h, ref_addr ht]

theorem fileBlock_indirect (h : ¬bn < NDIRECT) :
    (memView sb d i ip).fileBlock i bn = (memView sb d i ip).ref i (.entry (bn - NDIRECT)) := by
  rw [View.fileBlock, slotOf, if_neg h]

theorem canMap_direct (h : bn < NDIRECT) (ht : ip.type ≠ 0) :
    (memView sb d i ip).CanMap sb i bn ↔
      ¬(ip.addr bn = 0 ∧ (memView sb d i ip).free sb = 0) := by
  rw [View.CanMap, fileBlock_direct h ht, if_pos (.inl h)]
  omega

theorem canMap_indirect (h : ¬bn < NDIRECT) :
    (memView sb d i ip).CanMap sb i bn ↔
      (memView sb d i ip).ref i (.entry (bn - NDIRECT)) ≠ 0 ∨
      (if ip.addr NDIRECT ≠ 0 then 1 else 2) ≤ (memView sb d i ip).free sb := by
  rw [View.CanMap, fileBlock_indirect h, memView_din]
  simp only [h, false_or]

/-- `bmap` returns the block of the file, which it adds if it can. -/
theorem runs_bmap (hg : Geometry sb) (hbm : Bitmap sb (memView sb s.disk i ip)) (ht : ip.type ≠ 0)
    (hbn : bn < MAXFILE) (htr : s.trans = true) {Q : Dinode × Nat → Io → Prop}
    (h : ∀ ip' t Δ, Grows sb i (memView sb s.disk i ip) (memView sb t.disk i ip') →
      Δ ⊆ slotsFor bn → Fills sb i Δ (memView sb s.disk i ip) (memView sb t.disk i ip') →
      ((memView sb t.disk i ip').fileBlock i bn ≠ 0 ↔ (memView sb s.disk i ip).CanMap sb i bn) →
      ((memView sb t.disk i ip').fileBlock i bn = 0 → (memView sb t.disk i ip').free sb = 0) →
      Saves (Noted sb i (slotsFor bn) (memView sb s.disk i ip) (memView sb t.disk i ip')) s t →
      Q (ip', (memView sb t.disk i ip').fileBlock i bn) t) :
    Runs sb E (bmap sb ip bn) Q s := by
  have htype : ∀ {d ip'}, Grows sb i (memView sb s.disk i ip) (memView sb d i ip') →
      ip'.type ≠ 0 := by
    intro d ip' hgrow
    have := hgrow.type
    rw [memView_din, memView_din] at this
    rwa [this]
  unfold bmap
  refine .ite (fun hlt => ?_) fun hge => .ite (fun hlt => ?_) fun hge' => ?_
  · refine runs_bmapAddr hg hbm ht hlt.le htr (fun hor => ?_) fun h0 ip' t hgrow hfills hne hsave => ?_
    · have hq := h ip s ∅ (.refl hbm) (Finset.empty_subset _) .refl ?_ ?_ .refl
      · rwa [fileBlock_direct hlt ht] at hq
      rotate_left
      · rw [fileBlock_direct hlt ht]
        exact hor.resolve_left ∘ not_not.mpr
      · rw [fileBlock_direct hlt ht, canMap_direct hlt ht]
        tauto
    · have hq := h ip' t _ hgrow (subset_slotsFor_direct hlt) hfills ?_ ?_
        (hsave.weaken fun c => .mono (subset_slotsFor_direct hlt))
      · rwa [fileBlock_direct hlt (htype hgrow)] at hq
      rotate_left
      · rw [fileBlock_direct hlt (htype hgrow)]
        exact fun h0 => absurd h0 hne
      · have hfree := hfills.free
        rw [Finset.card_singleton] at hfree
        rw [fileBlock_direct hlt (htype hgrow), canMap_direct hlt ht]
        exact iff_of_true hne fun hc => by omega
  · have hind := indirect_mem_slotsFor hge
    have hent : {Slot.entry (bn - NDIRECT)} ⊆ slotsFor bn := by
      have := slotOf_mem_slotsFor bn
      rw [slotOf, if_neg hge] at this
      exact Finset.singleton_subset_iff.mpr this
    have hboth : {Slot.entry (bn - NDIRECT), .addr NDIRECT} ⊆ slotsFor bn :=
      Finset.insert_subset (Finset.singleton_subset_iff.mp hent) (Finset.singleton_subset_iff.mpr hind)
    refine .bind ?_
    refine runs_bmapAddr hg hbm ht le_rfl htr (fun hor => ?_)
      fun h0 ip' t hgrow hfills hne hsave => ?_
    · change Runs sb E (if ip.addr NDIRECT = 0 then pure (ip, 0)
        else bmapEntry sb (ip.addr NDIRECT) (bn - NDIRECT) >>= fun addr => pure (ip, addr)) Q s
      refine .ite (fun h0 => ?_) fun h0 => ?_
      · have hzero : (memView sb s.disk i ip).fileBlock i bn = 0 := by
          rw [fileBlock_indirect hge, View.ref, memView_din, ref_entry_of_zero h0]
        have hq := h ip s ∅ (.refl hbm) (Finset.empty_subset _) .refl ?_
          (fun _ => hor.resolve_left fun hn => hn h0) .refl
        · rw [hzero] at hq
          exact .pure hq
        · rw [hzero, canMap_indirect hge, ← fileBlock_indirect hge, hzero,
            hor.resolve_left fun hn => hn h0]
          simp [h0]
      · refine .bind ?_
        refine runs_bmapEntry hg hbm ht h0 hlt htr (fun hor => ?_) fun hz t hgrow hfills hsave => ?_
        · have hq := h ip s ∅ (.refl hbm) (Finset.empty_subset _) .refl ?_
            (fun hz => hor.resolve_left fun hn => hn (fileBlock_indirect hge ▸ hz)) .refl
          · rw [fileBlock_indirect hge] at hq
            exact .pure hq
          · rw [fileBlock_indirect hge, canMap_indirect hge, if_pos h0]
            omega
        · have hnz := (hfills.new _ (Finset.mem_singleton_self _)).2
          have hq := h ip t _ hgrow hent hfills ?_
            (fun h0 => absurd (fileBlock_indirect hge ▸ h0) hnz) (hsave.weaken fun c => .mono hboth)
          · rw [fileBlock_indirect hge] at hq
            exact .pure hq
          · have hfree := hfills.free
            rw [Finset.card_singleton] at hfree
            rw [fileBlock_indirect hge, canMap_indirect hge, if_pos h0]
            exact iff_of_true (hfills.new _ (Finset.mem_singleton_self _)).2 (.inr (by omega))
    · -- the indirect block is new, and has no entries
      have hold : ∀ j, (memView sb s.disk i ip).ref i (.entry j) = 0 := fun j => by
        rw [View.ref, memView_din, ref_entry_of_zero h0]
      have hempty : (memView sb t.disk i ip').ref i (.entry (bn - NDIRECT)) = 0 := by
        rw [hfills.old _ (by simp), hold]
      have hfree := hfills.free
      rw [Finset.card_singleton] at hfree
      change Runs sb E (if ip'.addr NDIRECT = 0 then pure (ip', 0)
        else bmapEntry sb (ip'.addr NDIRECT) (bn - NDIRECT) >>= fun addr => pure (ip', addr)) Q t
      have hfirst := hsave.weaken fun c => Noted.mono (Finset.singleton_subset_iff.mpr hind)
      refine .ite (fun hz => absurd hz hne) fun _ => ?_
      refine .bind ?_
      refine runs_bmapEntry hg hgrow.bitmap (htype hgrow) hne hlt (hsave.inTrans.trans htr)
        (fun hor => ?_) fun _ t' hgrow' hfills' hsave' => ?_
      · have hq := h ip' t _ hgrow (Finset.singleton_subset_iff.mpr hind) hfills ?_
          (fun _ => hor.resolve_left fun hn => hn hempty) hfirst
        · rw [fileBlock_indirect hge] at hq
          exact .pure hq
        · have hfull := hor.resolve_left fun hn => hn hempty
          rw [fileBlock_indirect hge, hempty, canMap_indirect hge, hold, if_neg (not_not.mpr h0)]
          omega
      · have hfree' := hfills'.free
        rw [Finset.card_singleton] at hfree'
        have hnz := (hfills'.new _ (Finset.mem_singleton_self _)).2
        have hq := h ip' t' _ (hgrow.trans hgrow')
          (Finset.union_subset (Finset.singleton_subset_iff.mpr hind) hent)
          (hfills.trans hfills') ?_ (fun h0 => absurd (fileBlock_indirect hge ▸ h0) hnz)
          (.trans (hfirst.weaken fun c => .after hfills')
            (hsave'.weaken fun c hc => .before hfills (hc.mono hboth)))
        · rw [fileBlock_indirect hge] at hq
          exact .pure hq
        · rw [fileBlock_indirect hge, canMap_indirect hge, hold, if_neg (not_not.mpr h0)]
          exact iff_of_true (hfills'.new _ (Finset.mem_singleton_self _)).2 (.inr (by omega))
  · rw [MAXFILE] at hbn
    omega

end

end Xv6.Fs
