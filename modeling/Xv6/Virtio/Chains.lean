import Xv6.Virtio.Model

/-!
# Allocating and freeing chains of descriptors

`alloc3_desc` gives three distinct free descriptors or, having put back what it took, none.
`free_chain` on a chain that is linked and not free frees its three descriptors and nothing
else; neither panics.
-/
namespace Xv6.Virtio

open Function

set_option autoImplicit false

namespace Chain

/-- The descriptor is one of the three. -/
def Has (c : Chain) (i : Idx) : Prop := i = c.head ∨ i = c.data ∨ i = c.status

structure Distinct (c : Chain) : Prop where
  head_data : c.head ≠ c.data
  head_status : c.head ≠ c.status
  data_status : c.data ≠ c.status

theorem has_head (c : Chain) : c.Has c.head := .inl rfl

instance (c : Chain) (i : Idx) : Decidable (c.Has i) := inferInstanceAs (Decidable (_ ∨ _))

/-- The flags of the free descriptors once the chain is in the given state. -/
def mark (c : Chain) (v : Bool) (free : Idx → Bool) : Idx → Bool :=
  fun i => if c.Has i then v else free i

end Chain

/-- The descriptors as `virtio_disk_rw` fills them in. -/
structure Linked (desc : Idx → Desc) (b : Buf) (c : Chain) : Prop where
  head : desc c.head = ⟨.op c.head, true, c.data⟩
  data : desc c.data = ⟨.data b, true, c.status⟩
  status : desc c.status = ⟨.status c.head, false, 0⟩

/-- Links are kept where the descriptors are. -/
theorem Linked.congr {desc desc' : Idx → Desc} {b : Buf} {c : Chain} (h : Linked desc b c)
    (hc : ∀ i, c.Has i → desc' i = desc i) : Linked desc' b c where
  head := by rw [hc _ (.inl rfl), h.head]
  data := by rw [hc _ (.inr (.inl rfl)), h.data]
  status := by rw [hc _ (.inr (.inr rfl)), h.status]

namespace Disk

variable {d : Disk}

theorem linked_format {c : Chain} (hc : c.Distinct) (d : Disk) (b : Buf) :
    Linked (d.format b c).desc b c where
  head := by simp [format, hc.head_data, hc.head_status]
  data := by simp [format, hc.data_status]
  status := by simp [format]

theorem desc_format_of_not_has {c : Chain} {i : Idx} (hi : ¬ c.Has i) (d : Disk) (b : Buf) :
    (d.format b c).desc i = d.desc i := by
  simp only [Chain.Has, not_or] at hi
  simp [format, hi]

theorem alloc_desc_some {d' : Disk} {i : Idx} (h : d.alloc_desc = some (d', i)) :
    d.free i = true ∧ d' = { d with free := update d.free i false } := by
  simp only [alloc_desc, Option.map_eq_some_iff, Prod.mk.injEq] at h
  obtain ⟨j, hj, rfl, rfl⟩ := h
  exact ⟨List.find?_some hj, rfl⟩

/-- The disk once a descriptor is freed. -/
def freed (d : Disk) (i : Idx) : Disk :=
  { d with
    desc := update d.desc i ⟨.null, false, 0⟩
    free := update d.free i true }

theorem free_desc_eq {i : Idx} (hi : d.free i = false) : d.free_desc i = .ok (d.freed i) := by
  simp [free_desc, freed, hi]

/-- What a failing `alloc3_desc` leaves: the descriptors in use are untouched. -/
structure Same (d d' : Disk) : Prop where
  free : d'.free = d.free
  desc : ∀ i, d.free i = false → d'.desc i = d.desc i
  info : d'.info = d.info
  availRing : d'.availRing = d.availRing
  availIdx : d'.availIdx = d.availIdx
  usedRing : d'.usedRing = d.usedRing
  usedIdx : d'.usedIdx = d.usedIdx
  seen : d'.seen = d.seen

theorem Same.refl (d : Disk) : Same d d := ⟨rfl, fun _ _ => rfl, rfl, rfl, rfl, rfl, rfl, rfl⟩

/-- One descriptor taken and put back. -/
theorem Same.one {i : Idx} (hi : d.free i = true) :
    Same d ({ d with free := update d.free i false }.freed i) where
  free := by simp [freed, ← hi]
  desc := by
    intro j hj
    have hne : j ≠ i := by rintro rfl; simp [hi] at hj
    simp [freed, hne]
  info := rfl
  availRing := rfl
  availIdx := rfl
  usedRing := rfl
  usedIdx := rfl
  seen := rfl

/-- Two descriptors taken and put back. -/
theorem Same.two {i j : Idx} (hi : d.free i = true) (hj : d.free j = true) :
    Same d (({ d with
      free := update (update d.free i false) j false }.freed i).freed j) where
  free := by
    funext k
    simp only [freed, update_apply]
    split <;> [simp_all; split <;> simp_all]
  desc := by
    intro k hk
    have hki : k ≠ i := by rintro rfl; simp [hi] at hk
    have hkj : k ≠ j := by rintro rfl; simp [hj] at hk
    simp [freed, hki, hkj]
  info := rfl
  availRing := rfl
  availIdx := rfl
  usedRing := rfl
  usedIdx := rfl
  seen := rfl

/-- Three free descriptors become a chain, or nothing changes. -/
theorem alloc3_desc_spec (d : Disk) :
    (∃ c, c.Distinct ∧ (∀ i, c.Has i → d.free i = true) ∧
      d.alloc3_desc = .ok ({ d with free := c.mark false d.free }, some c, false)) ∨
    ∃ d' freed, Same d d' ∧ d.alloc3_desc = .ok (d', none, freed) := by
  unfold alloc3_desc
  rcases h0 : d.alloc_desc with _ | ⟨d₀, i⟩
  · exact .inr ⟨d, false, .refl d, rfl⟩
  obtain ⟨hi, rfl⟩ := alloc_desc_some h0
  dsimp only
  rcases h1 : Disk.alloc_desc _ with _ | ⟨d₁, j⟩
  · have hni : update d.free i false i = false := update_self ..
    refine .inr ⟨_, true, .one hi, ?_⟩
    simp only [free_desc_eq (d := { d with free := update d.free i false }) hni]
  obtain ⟨hj, rfl⟩ := alloc_desc_some h1
  have hji : j ≠ i := by rintro rfl; simp at hj
  dsimp only at hj ⊢
  rw [update_of_ne hji] at hj
  rcases h2 : Disk.alloc_desc _ with _ | ⟨d₂, k⟩
  · let d₁ : Disk := { d with free := update (update d.free i false) j false }
    have hni : d₁.free i = false := by simp [d₁, Ne.symm hji]
    have hnj : (d₁.freed i).free j = false := by simp [d₁, freed, hji]
    refine .inr ⟨_, true, .two hi hj, ?_⟩
    simp only [free_desc_eq (d := d₁) hni, free_desc_eq (d := d₁.freed i) hnj, d₁]
  obtain ⟨hk, rfl⟩ := alloc_desc_some h2
  have hkj : k ≠ j := by rintro rfl; simp at hk
  have hki : k ≠ i := by rintro rfl; simp [hkj] at hk
  dsimp only at hk ⊢
  rw [update_of_ne hkj, update_of_ne hki] at hk
  refine .inl ⟨⟨i, j, k⟩, ⟨Ne.symm hji, Ne.symm hki, Ne.symm hkj⟩, ?_, ?_⟩
  · rintro l (rfl | rfl | rfl) <;> assumption
  · congr 2
    simp only [Disk.mk.injEq, true_and, and_true]
    funext l
    simp only [Chain.mark, Chain.Has, update_apply]
    by_cases hl : l = i <;> by_cases hl' : l = j <;> by_cases hl'' : l = k <;> simp [hl, hl', hl'']

/-- One turn of the loop of `free_chain`. -/
theorem free_chain_succ {i : Idx} {a : Addr} {more : Bool} {next : Nat} (n : Nat)
    (hi : d.free i = false) (hd : d.desc i = ⟨a, more, next⟩) :
    free_chain (n + 1) d i = if more then free_chain n (d.freed i) next else .ok (d.freed i) := by
  simp [free_chain, free_desc_eq hi, hd]

/-- The disk once the three descriptors of a chain are freed. -/
def freedChain (d : Disk) (c : Chain) : Disk := ((d.freed c.head).freed c.data).freed c.status

theorem free_chain_eq {b : Buf} {c : Chain} (hc : c.Distinct) (hl : Linked d.desc b c)
    (hf : ∀ i, c.Has i → d.free i = false) :
    d.free_chain NUM c.head = .ok (d.freedChain c) := by
  have hd : (d.freed c.head).free c.data = false := by
    simp [freed, Ne.symm hc.head_data, hf c.data (.inr (.inl rfl))]
  have hs : ((d.freed c.head).freed c.data).free c.status = false := by
    simp [freed, Ne.symm hc.head_status, Ne.symm hc.data_status, hf c.status (.inr (.inr rfl))]
  have hdd : (d.freed c.head).desc c.data = ⟨.data b, true, c.status⟩ := by
    simp [freed, Ne.symm hc.head_data, hl.data]
  have hds : ((d.freed c.head).freed c.data).desc c.status = ⟨.status c.head, false, 0⟩ := by
    simp [freed, Ne.symm hc.head_status, Ne.symm hc.data_status, hl.status]
  calc d.free_chain NUM c.head
      = free_chain 7 (d.freed c.head) c.data := free_chain_succ 7 (hf _ c.has_head) hl.head
    _ = free_chain 6 ((d.freed c.head).freed c.data) c.status := free_chain_succ 6 hd hdd
    _ = .ok (d.freedChain c) := free_chain_succ 5 hs hds

theorem freedChain_free (d : Disk) (c : Chain) : (d.freedChain c).free = c.mark true d.free := by
  funext i
  simp only [freedChain, freed, Chain.mark, Chain.Has, update_apply]
  by_cases h : i = c.head <;> by_cases h' : i = c.data <;> by_cases h'' : i = c.status <;>
    simp [h, h', h'']

theorem freedChain_desc {c : Chain} {i : Idx} (hi : ¬ c.Has i) (d : Disk) :
    (d.freedChain c).desc i = d.desc i := by
  simp only [Chain.Has, not_or] at hi
  simp [freedChain, freed, hi]

end Disk

end Xv6.Virtio
