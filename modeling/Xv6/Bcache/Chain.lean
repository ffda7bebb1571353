import Xv6.Bcache.Model
import Xv6.Lib.Count

/-!
# The buffer cache keeps its list

The links form one circle through `bcache.head` and all buffers, in the order of their last release
by `brelse`. On that circle the loops of `bget` are searches in a list (`lookup_eq`, `unused_eq`),
and what `brelse` does to the pointers is to move one entry to the front: the operations that
`Bio.bget` and `Bio.put` perform on `lru`.
-/
namespace Xv6.Bcache

open Function

set_option autoImplicit false

open Lib (Path Circle search search_until run)
open Bio (NBUF BufId)

/-- The buffer that a process in `bget` or `brelse` counts for. -/
def Ctl.buf : Ctl → Option BufId
  | .idle => none
  | .waiting i => some i
  | .leaving i => some i

def share (i : BufId) (c : Ctl) : Nat := if c.buf = some i then 1 else 0

/-- `i` was released to 0 before `j`, where a buffer never so released comes first, in the order of
`binit`. -/
def Before (released : BufId → Option Nat) (i j : BufId) : Prop :=
  match released i, released j with
  | none, none => i < j
  | none, some _ => True
  | some _, none => False
  | some t, some u => t < u

variable {N : Nat}

def holders : Option (Fin N) → Nat
  | none => 0
  | some _ => 1

namespace Sys

variable (s : Sys N)

/-- The holder and the waiters of a buffer, with those that are leaving, and its pins. -/
def refs (i : BufId) : Nat :=
  holders (s.lock i) + (∑ p, share i (s.ctl p)) + s.pins i

structure Inv (l : List BufId) : Prop where
  circle : Circle s.next s.prev .head (l.map .buf)
  all : ∀ i, i ∈ l
  unique : ∀ i j, s.dev i ≠ 0 → s.dev i = s.dev j → s.blockno i = s.blockno j → i = j
  refs : ∀ i, (s.refcnt i).toNat = s.refs i % 2 ^ 32
  order : l.Pairwise fun i j => Before s.released j i
  past : ∀ i t, s.released i = some t → t < s.clock

end Sys

/-! ### The pointers -/

section Links

variable {c : Cache} {l l₁ l₂ : List Node} {x : Node}

theorem Cache.circle_insertFront (h : Circle c.next c.prev .head l) (hx : x ∉ Node.head :: l) :
    Circle (c.insertFront x).next (c.insertFront x).prev .head (x :: l) := by
  have hne : Node.head ≠ x := fun he => hx (he ▸ List.mem_cons_self)
  have hprev : (c.insertFront x).prev =
      update (update c.prev x .head) (c.next .head) x := by
    unfold Cache.insertFront
    dsimp only
    rw [update_of_ne hne]
  rw [hprev]
  exact h.push hx

theorem Cache.circle_unlink (h : Circle c.next c.prev .head (l₁ ++ x :: l₂)) :
    Circle (c.unlink x).next (c.unlink x).prev .head (l₁ ++ l₂) := by
  have hnext : (c.unlink x).next = update c.next (c.prev x) (c.next x) := by
    unfold Cache.unlink
    dsimp only
    -- if `x` were its own successor, the first assignment would not change it
    by_cases he : x = c.next x
    · rw [← he, update_self]
    · rw [update_of_ne he]
  rw [hnext]
  exact h.remove

end Links

section Loops

variable {c : Cache} {l : List BufId}

theorem buf_injective : Function.Injective Node.buf := fun _ _ h => Node.buf.inj h

theorem find_buf (l : List BufId) (test : Node → Bool) :
    ((l.map Node.buf).find? test).getD .head =
      ((l.find? fun i => test (.buf i)).map .buf).getD .head := by
  rw [List.find?_map]
  rfl

theorem length_of_all (h : Circle c.next c.prev .head (l.map .buf)) : l.length ≤ NBUF := by
  have hn : l.Nodup := List.Nodup.of_map Node.buf (List.nodup_cons.mp h.nodup).2
  simpa using hn.length_le_card

/-- The first loop of `bget` finds what a search from the front of the list finds. -/
theorem Cache.lookup_eq (h : Circle c.next c.prev .head (l.map .buf)) (dev blockno : UInt32) :
    c.lookup dev blockno =
      some (((l.find? fun i => c.dev i == dev && c.blockno i == blockno).map .buf).getD .head) := by
  have hlen := length_of_all h
  rw [Cache.lookup, search_until h.next_path.2 rfl (fun x _ => rfl) (by rw [List.length_map]; omega),
    find_buf]

/-- The second loop finds what a search from its back finds. -/
theorem Cache.unused_eq (h : Circle c.next c.prev .head (l.map .buf)) :
    c.unused = some (((l.reverse.find? fun i => c.refcnt i == 0).map .buf).getD .head) := by
  have hlen := length_of_all h
  have hpath := h.prev_path.2
  rw [← List.map_reverse] at hpath
  rw [Cache.unused, search_until hpath rfl (fun x _ => rfl)
    (by rw [List.length_map, List.length_reverse]; omega), find_buf]

end Loops

/-! ### `bget` -/

section Bget

variable {s s' : Sys N} {l : List BufId} {p : Fin N} {dev blockno : UInt32}

/-- `bget` finds the block in a buffer. -/
structure Hit (s : Sys N) (dev blockno : UInt32) (i : BufId) : Prop where
  dev_eq : s.dev i = dev
  block_eq : s.blockno i = blockno
  got : s.toCache.bget dev blockno = .buf (s.toCache.bpin i) i

/-- No buffer has the block, and `i` is the one that has been unused for the longest time. -/
structure Miss (s : Sys N) (dev blockno : UInt32) (i : BufId) : Prop where
  uncached : ∀ j, s.dev j = dev → s.blockno j ≠ blockno
  unused : s.refcnt i = 0
  oldest : ∀ j, s.refcnt j = 0 → j ≠ i → Before s.released i j
  got : s.toCache.bget dev blockno = .buf (s.toCache.recycle dev blockno i) i

theorem Sys.Inv.oldest (hi : s.Inv l) {i : BufId}
    (hfind : l.reverse.find? (fun i => s.refcnt i == 0) = some i) {j : BufId} (hj : s.refcnt j = 0)
    (hne : j ≠ i) : Before s.released i j := by
  obtain ⟨-, front, back, heq, hfront⟩ := List.find?_eq_some_iff_append.mp hfind
  have hmem : j ∈ front ++ i :: back := by
    rw [← heq]
    exact List.mem_reverse.mpr (hi.all j)
  have hback : j ∈ back := by
    simp only [List.mem_append, List.mem_cons] at hmem
    obtain hfr | he | hb := hmem
    · have := hfront j hfr
      simp [hj] at this
    · exact absurd he hne
    · exact hb
  have hord : l.reverse.Pairwise fun i j => Before s.released i j :=
    List.pairwise_reverse.mpr hi.order
  rw [heq, List.pairwise_append, List.pairwise_cons] at hord
  exact hord.2.1.1 j hback

theorem Sys.Inv.bget_cases (hi : s.Inv l) (dev blockno : UInt32) :
    (∃ i, Hit s dev blockno i) ∨ (∃ i, Miss s dev blockno i) ∨
      (∀ j, s.refcnt j ≠ 0) ∧ s.toCache.bget dev blockno = .noBuffers := by
  have hlook := Cache.lookup_eq hi.circle dev blockno
  have hunused := Cache.unused_eq hi.circle
  cases hfind : l.find? fun i => s.dev i == dev && s.blockno i == blockno with
  | some i =>
    rw [hfind] at hlook
    have hb := List.find?_some hfind
    simp only [Bool.and_eq_true, beq_iff_eq] at hb
    exact .inl ⟨i, hb.1, hb.2, by rw [Cache.bget, hlook]; rfl⟩
  | none =>
    rw [hfind] at hlook
    have hno (j : BufId) (hd : s.dev j = dev) : s.blockno j ≠ blockno := by
      have := List.find?_eq_none.mp hfind j (hi.all j)
      simpa [hd] using this
    cases hfree : l.reverse.find? fun i => s.refcnt i == 0 with
    | some i =>
      rw [hfree] at hunused
      have hz := List.find?_some hfree
      simp only [beq_iff_eq] at hz
      exact .inr (.inl ⟨i, hno, hz, fun j => hi.oldest hfree,
        by rw [Cache.bget, hlook, Option.map_none, Option.getD_none, hunused]; rfl⟩)
    | none =>
      rw [hfree] at hunused
      refine .inr (.inr ⟨fun j hj => ?_, ?_⟩)
      · have := List.find?_eq_none.mp hfree j (List.mem_reverse.mpr (hi.all j))
        simp [hj] at this
      · rw [Cache.bget, hlook, Option.map_none, Option.getD_none, hunused]
        rfl

end Bget

/-! ### Steps -/

section Steps

variable {s s' : Sys N} {l : List BufId} {p : Fin N} {i j : BufId} {x : UInt32} {n : Nat}

theorem toNat_succ (h : x.toNat = n % 2 ^ 32) : (x + 1).toNat = (n + 1) % 2 ^ 32 := by
  rw [UInt32.toNat_add, h]
  exact Nat.mod_add_mod n (2 ^ 32) 1

theorem toNat_pred (h : x.toNat = (n + 1) % 2 ^ 32) : (x - 1).toNat = n % 2 ^ 32 := by
  rw [UInt32.toNat_sub, h, UInt32.toNat_one]
  omega

/-- The counts when one reference to `i` comes or goes. -/
theorem sum_share (ctl : Fin N → Ctl) (p : Fin N) (c : Ctl) (j : BufId) :
    (∑ q, share j (update ctl p c q)) + share j (ctl p) =
      (∑ q, share j (ctl q)) + share j c :=
  Lib.sum_update (share j) ctl p c

/-- A step that leaves the links and the blocks. -/
theorem Sys.Inv.counts (hi : s.Inv l) (hnext : s'.next = s.next) (hprev : s'.prev = s.prev)
    (hdev : s'.dev = s.dev) (hblock : s'.blockno = s.blockno) (hrel : s'.released = s.released)
    (hclock : s'.clock = s.clock) (hrefs : ∀ j, (s'.refcnt j).toNat = s'.refs j % 2 ^ 32) :
    s'.Inv l where
  circle := by rw [hnext, hprev]; exact hi.circle
  all := hi.all
  unique := by rw [hdev, hblock]; exact hi.unique
  refs := hrefs
  order := by rw [hrel]; exact hi.order
  past := by rw [hrel, hclock]; exact hi.past

/-- One more reference. -/
theorem refs_gain (hi : s.Inv l) (hcnt : s'.refcnt = update s.refcnt i (s.refcnt i + 1))
    (hself : s'.refs i = s.refs i + 1) (hrest : ∀ j, j ≠ i → s'.refs j = s.refs j) (j : BufId) :
    (s'.refcnt j).toNat = s'.refs j % 2 ^ 32 := by
  rw [hcnt]
  by_cases hj : j = i
  · subst hj
    rw [update_self, hself]
    exact toNat_succ (hi.refs j)
  · rw [update_of_ne hj, hrest j hj]
    exact hi.refs j

/-- One reference less. -/
theorem refs_drop (hi : s.Inv l) (hcnt : s'.refcnt = update s.refcnt i (s.refcnt i - 1))
    (hself : s'.refs i + 1 = s.refs i) (hrest : ∀ j, j ≠ i → s'.refs j = s.refs j) (j : BufId) :
    (s'.refcnt j).toNat = s'.refs j % 2 ^ 32 := by
  rw [hcnt]
  by_cases hj : j = i
  · subst hj
    rw [update_self]
    refine toNat_pred ?_
    rw [hself]
    exact hi.refs j
  · rw [update_of_ne hj, hrest j hj]
    exact hi.refs j

theorem share_idle (j : BufId) : share j .idle = 0 := rfl

theorem share_waiting (i j : BufId) : share j (.waiting i) = if i = j then 1 else 0 := by
  simp [share, Ctl.buf]

theorem share_leaving (i j : BufId) : share j (.leaving i) = if i = j then 1 else 0 := by
  simp [share, Ctl.buf]

/-- The references when a process goes on. -/
theorem refs_ctl {c : Ctl} (hlock : s'.lock = s.lock) (hpins : s'.pins = s.pins)
    (hctl : s'.ctl = update s.ctl p c) (j : BufId) :
    s'.refs j + share j (s.ctl p) = s.refs j + share j c := by
  have := sum_share s.ctl p c j
  unfold Sys.refs
  rw [hlock, hpins, hctl]
  omega

/-- A process begins to wait for `i`. -/
theorem refs_wait (hi : s.Inv l) (hidle : s.ctl p = .idle)
    (hcnt : s'.refcnt = update s.refcnt i (s.refcnt i + 1)) (hlock : s'.lock = s.lock)
    (hpins : s'.pins = s.pins) (hctl : s'.ctl = update s.ctl p (.waiting i)) (j : BufId) :
    (s'.refcnt j).toNat = s'.refs j % 2 ^ 32 := by
  have hrefs := refs_ctl hlock hpins hctl
  simp only [hidle, share_idle, share_waiting, Nat.add_zero] at hrefs
  refine refs_gain hi hcnt ?_ (fun k hk => ?_) j
  · rw [hrefs, if_pos rfl]
  · rw [hrefs, if_neg (Ne.symm hk), Nat.add_zero]

theorem inv_hit (hi : s.Inv l) (hidle : s.ctl p = .idle) :
    Sys.Inv { s with toCache := s.toCache.bpin i, ctl := update s.ctl p (.waiting i) } l :=
  hi.counts rfl rfl rfl rfl rfl rfl (refs_wait hi hidle rfl rfl rfl rfl)

theorem inv_miss {dev blockno : UInt32} (hi : s.Inv l) (hidle : s.ctl p = .idle)
    (hm : Miss s dev blockno i) :
    Sys.Inv { s with
      toCache := s.toCache.recycle dev blockno i
      ctl := update s.ctl p (.waiting i) } l where
  circle := hi.circle
  all := hi.all
  unique := by
    intro a b
    change update s.dev i dev a ≠ 0 →
      update s.dev i dev a = update s.dev i dev b →
      update s.blockno i blockno a = update s.blockno i blockno b → a = b
    by_cases ha : a = i <;> by_cases hb : b = i
    · intro _ _ _
      rw [ha, hb]
    · subst ha
      rw [update_self, update_self, update_of_ne hb,
        update_of_ne hb]
      intro _ hd hbl
      exact absurd hbl.symm (hm.uncached b hd.symm)
    · subst hb
      rw [update_self, update_self, update_of_ne ha,
        update_of_ne ha]
      intro _ hd hbl
      exact absurd hbl (hm.uncached a hd)
    · rw [update_of_ne ha, update_of_ne hb, update_of_ne ha,
        update_of_ne hb]
      exact hi.unique a b
  refs := by
    refine refs_wait (i := i) hi hidle ?_ rfl rfl rfl
    change update s.refcnt i 1 = _
    rw [hm.unused]
    rfl
  order := hi.order
  past := hi.past

/-- A process takes or gives up the sleep-lock of `i`. -/
theorem refs_hand {x : Option (Fin N)} {c : Ctl} (hi : s.Inv l) (hcnt : s'.refcnt = s.refcnt)
    (hlock : s'.lock = update s.lock i x) (hpins : s'.pins = s.pins)
    (hctl : s'.ctl = update s.ctl p c)
    (hself : holders x + share i c = holders (s.lock i) + share i (s.ctl p))
    (hrest : ∀ j, j ≠ i → share j c = share j (s.ctl p)) (j : BufId) :
    (s'.refcnt j).toNat = s'.refs j % 2 ^ 32 := by
  have hrefs : s'.refs j = s.refs j := by
    have hsum := sum_share s.ctl p c j
    unfold Sys.refs
    rw [hlock, hpins, hctl]
    by_cases hj : j = i
    · subst hj
      rw [update_self]
      omega
    · rw [update_of_ne hj]
      have := hrest j hj
      omega
  rw [hcnt, hrefs]
  exact hi.refs j

theorem inv_acquiresleep (hi : s.Inv l) (hctl : s.ctl p = .waiting i) (hfree : s.lock i = none) :
    Sys.Inv { s with
      lock := update s.lock i (some p)
      ctl := update s.ctl p .idle } l := by
  refine hi.counts rfl rfl rfl rfl rfl rfl (refs_hand hi rfl rfl rfl rfl ?_ ?_)
  · rw [hctl, hfree, share_idle, share_waiting, if_pos rfl]
    rfl
  · intro j hj
    rw [hctl, share_idle, share_waiting, if_neg (Ne.symm hj)]

theorem inv_releasesleep (hi : s.Inv l) (hctl : s.ctl p = .idle) (hheld : s.lock i = some p) :
    Sys.Inv { s with
      lock := update s.lock i none
      ctl := update s.ctl p (.leaving i) } l := by
  refine hi.counts rfl rfl rfl rfl rfl rfl (refs_hand hi rfl rfl rfl rfl ?_ ?_)
  · rw [hctl, hheld, share_idle, share_leaving, if_pos rfl]
    rfl
  · intro j hj
    rw [hctl, share_idle, share_leaving, if_neg (Ne.symm hj)]

theorem inv_bpin (hi : s.Inv l) (i : BufId) :
    Sys.Inv { s with
      toCache := s.toCache.bpin i
      pins := update s.pins i (s.pins i + 1) } l := by
  refine hi.counts rfl rfl rfl rfl rfl rfl (refs_gain hi rfl ?_ fun j hj => ?_)
  · unfold Sys.refs
    dsimp only
    rw [update_self]
    exact (Nat.add_assoc _ _ _).symm
  · unfold Sys.refs
    dsimp only
    rw [update_of_ne hj]

theorem inv_bunpin (hi : s.Inv l) (hpin : 0 < s.pins i) :
    Sys.Inv { s with
      toCache := s.toCache.bunpin i
      pins := update s.pins i (s.pins i - 1) } l := by
  refine hi.counts rfl rfl rfl rfl rfl rfl (refs_drop hi rfl ?_ fun j hj => ?_)
  · unfold Sys.refs
    dsimp only
    rw [update_self]
    omega
  · unfold Sys.refs
    dsimp only
    rw [update_of_ne hj]

/-- The pointers after `brelse`: a buffer released to 0 has moved to the front. -/
theorem circle_brelse (hi : s.Inv l) (i : BufId) :
    Circle (s.toCache.brelse i).next (s.toCache.brelse i).prev .head
      (List.map .buf (if (s.toCache.bunpin i).refcnt i = 0 then i :: l.erase i else l)) := by
  unfold Cache.brelse
  dsimp only
  split
  · obtain ⟨l₁, l₂, rfl⟩ := List.append_of_mem (hi.all i)
    have hcircle := hi.circle
    have hnodup := (List.nodup_cons.mp hcircle.nodup).2
    rw [List.map_append, List.map_cons] at hcircle hnodup
    have hi₁ : i ∉ l₁ := by
      intro hmem
      exact (List.nodup_append.mp hnodup).2.2 _ (List.mem_map_of_mem hmem) _ List.mem_cons_self rfl
    have hi₂ : Node.buf i ∉ l₂.map Node.buf :=
      (List.nodup_cons.mp (List.nodup_append.mp hnodup).2.1).1
    rw [List.erase_append_right _ hi₁, List.erase_cons_head, List.map_cons, List.map_append]
    refine Cache.circle_insertFront (Cache.circle_unlink hcircle) ?_
    simp only [List.mem_cons, List.mem_append, reduceCtorEq, false_or, not_or]
    refine ⟨?_, hi₂⟩
    rwa [List.mem_map_of_injective buf_injective]
  · exact hi.circle

/-- The buffer released last is the newest. -/
theorem before_last (hi : s.Inv l) (hj : j ≠ i) :
    Before (update s.released i (some s.clock)) j i := by
  unfold Before
  rw [update_self, update_of_ne hj]
  cases hr : s.released j with
  | none => trivial
  | some t => exact hi.past j t hr

/-- The list is in order after the move to the front. -/
theorem order_front (hi : s.Inv l) (i : BufId) :
    (i :: l.erase i).Pairwise fun j k =>
      Before (update s.released i (some s.clock)) k j := by
  have hnodup : l.Nodup := List.Nodup.of_map Node.buf (List.nodup_cons.mp hi.circle.nodup).2
  have hne : ∀ j ∈ l.erase i, j ≠ i := by
    intro j hj he
    subst he
    exact hnodup.not_mem_erase hj
  rw [List.pairwise_cons]
  constructor
  · exact fun j hj => before_last hi (hne j hj)
  · refine (hi.order.sublist List.erase_sublist).imp_of_mem fun {j k} hj hk hjk => ?_
    unfold Before
    rw [update_of_ne (hne j hj), update_of_ne (hne k hk)]
    exact hjk

theorem brelse_fields : (s.brelse p i).toCache = s.toCache.brelse i ∧ (s.brelse p i).lock = s.lock ∧
    (s.brelse p i).pins = s.pins ∧ (s.brelse p i).ctl = update s.ctl p .idle := by
  unfold Sys.brelse
  dsimp only
  split <;> exact ⟨rfl, rfl, rfl, rfl⟩

theorem Cache.brelse_fields (c : Cache) : (c.brelse i).dev = c.dev ∧ (c.brelse i).blockno = c.blockno ∧
    (c.brelse i).refcnt = (c.bunpin i).refcnt := by
  unfold Cache.brelse
  dsimp only
  split <;> exact ⟨rfl, rfl, rfl⟩

theorem inv_brelse (hi : s.Inv l) (hctl : s.ctl p = .leaving i) :
    (s.brelse p i).Inv (if (s.toCache.bunpin i).refcnt i = 0 then i :: l.erase i else l) := by
  obtain ⟨hcache, hlock, hpins, hctl'⟩ := brelse_fields (s := s) (p := p) (i := i)
  obtain ⟨hdev, hblock, hcnt⟩ := Cache.brelse_fields (i := i) s.toCache
  have hrefs := refs_ctl hlock hpins hctl'
  simp only [hctl, share_idle, share_leaving, Nat.add_zero] at hrefs
  refine ⟨?_, ?_, ?_, ?_, ?_, ?_⟩
  · rw [hcache]
    exact circle_brelse hi i
  · intro j
    split
    · by_cases hj : j = i
      · exact hj ▸ List.mem_cons_self
      · exact List.mem_cons_of_mem i ((List.mem_erase_of_ne hj).mpr (hi.all j))
    · exact hi.all j
  · rw [hcache, hdev, hblock]
    exact hi.unique
  · refine refs_drop hi (by rw [hcache, hcnt]; rfl) ?_ fun j hj => ?_
    · have := hrefs i
      rwa [if_pos rfl] at this
    · have := hrefs j
      rwa [if_neg (Ne.symm hj)] at this
  · unfold Sys.brelse
    dsimp only
    rw [hcnt]
    split
    · exact order_front hi i
    · exact hi.order
  · unfold Sys.brelse
    dsimp only
    split
    · intro j t
      dsimp only
      by_cases hj : j = i
      · subst hj
        rw [update_self]
        intro ht
        cases ht
        exact Nat.lt_succ_self _
      · rw [update_of_ne hj]
        exact fun ht => Nat.lt_succ_of_lt (hi.past j t ht)
    · exact hi.past

/-- What a step can do to a cache in order. -/
inductive Moves (s : Sys N) : Sys N → Prop where
  | hit (p : Fin N) (i : BufId) (hidle : s.ctl p = .idle) :
    Moves s { s with toCache := s.toCache.bpin i, ctl := update s.ctl p (.waiting i) }
  | miss (p : Fin N) (i : BufId) (dev blockno : UInt32) (hidle : s.ctl p = .idle)
      (hmiss : Miss s dev blockno i) :
    Moves s { s with
      toCache := s.toCache.recycle dev blockno i
      ctl := update s.ctl p (.waiting i) }
  | panic : Moves s { s with panicked := true }
  | acquiresleep (p : Fin N) (i : BufId) (hctl : s.ctl p = .waiting i) (hfree : s.lock i = none) :
    Moves s { s with
      lock := update s.lock i (some p)
      ctl := update s.ctl p .idle }
  | fill (i : BufId) : Moves s { s with valid := update s.valid i true }
  | releasesleep (p : Fin N) (i : BufId) (hidle : s.ctl p = .idle) (hheld : s.lock i = some p) :
    Moves s { s with
      lock := update s.lock i none
      ctl := update s.ctl p (.leaving i) }
  | brelse (p : Fin N) (i : BufId) (hctl : s.ctl p = .leaving i) : Moves s (s.brelse p i)
  | bpin (i : BufId) :
    Moves s { s with
      toCache := s.toCache.bpin i
      pins := update s.pins i (s.pins i + 1) }
  | bunpin (i : BufId) (hpin : 0 < s.pins i) :
    Moves s { s with
      toCache := s.toCache.bunpin i
      pins := update s.pins i (s.pins i - 1) }

theorem step_bget (hrun : s.panicked = false) (hidle : s.ctl p = .idle) (dev blockno : UInt32) :
    step s (.bget p dev blockno) = s.bget p dev blockno := if_pos ⟨hrun, hidle⟩

theorem moves_bget (hi : s.Inv l) (hidle : s.ctl p = .idle) (dev blockno : UInt32) :
    ∃ s', s.bget p dev blockno = some s' ∧ Moves s s' := by
  unfold Sys.bget
  obtain ⟨i, hhit⟩ | ⟨i, hmiss⟩ | ⟨-, hpanic⟩ := hi.bget_cases dev blockno
  · rw [hhit.got]
    exact ⟨_, rfl, .hit p i hidle⟩
  · rw [hmiss.got]
    exact ⟨_, rfl, .miss p i dev blockno hidle hmiss⟩
  · rw [hpanic]
    exact ⟨_, rfl, .panic⟩

theorem moves_of_step {a : Act N} (hi : s.Inv l) (h : step s a = some s') : Moves s s' := by
  cases a with
  | bget p dev blockno =>
    obtain ⟨⟨-, hidle⟩, h⟩ := Option.ite_none_right_eq_some.mp h
    obtain ⟨t, ht, hmoves⟩ := moves_bget hi hidle dev blockno
    rw [ht] at h
    cases h
    exact hmoves
  | acquiresleep p =>
    simp only [step] at h
    split at h
    · next i hctl =>
      obtain ⟨⟨-, hfree⟩, h⟩ := Option.ite_none_right_eq_some.mp h
      cases h
      exact .acquiresleep p i hctl hfree
    · cases h
  | fill p i =>
    obtain ⟨-, h⟩ := Option.ite_none_right_eq_some.mp h
    cases h
    exact .fill i
  | releasesleep p i =>
    obtain ⟨⟨-, hidle, hheld⟩, h⟩ := Option.ite_none_right_eq_some.mp h
    cases h
    exact .releasesleep p i hidle hheld
  | brelse p =>
    simp only [step] at h
    split at h
    · next i hctl =>
      obtain ⟨-, h⟩ := Option.ite_none_right_eq_some.mp h
      cases h
      exact .brelse p i hctl
    · cases h
  | bpin i =>
    obtain ⟨-, h⟩ := Option.ite_none_right_eq_some.mp h
    cases h
    exact .bpin i
  | bunpin i =>
    obtain ⟨⟨-, hpin⟩, h⟩ := Option.ite_none_right_eq_some.mp h
    cases h
    exact .bunpin i hpin

theorem Moves.inv (hm : Moves s s') (hi : s.Inv l) : ∃ l', s'.Inv l' := by
  cases hm with
  | hit p i hidle => exact ⟨l, inv_hit hi hidle⟩
  | miss p i dev blockno hidle hmiss => exact ⟨l, inv_miss hi hidle hmiss⟩
  | panic => exact ⟨l, hi.counts rfl rfl rfl rfl rfl rfl hi.refs⟩
  | acquiresleep p i hctl hfree => exact ⟨l, inv_acquiresleep hi hctl hfree⟩
  | fill i => exact ⟨l, hi.counts rfl rfl rfl rfl rfl rfl hi.refs⟩
  | releasesleep p i hidle hheld => exact ⟨l, inv_releasesleep hi hidle hheld⟩
  | brelse p i hctl => exact ⟨_, inv_brelse hi hctl⟩
  | bpin i => exact ⟨l, inv_bpin hi i⟩
  | bunpin i hpin => exact ⟨l, inv_bunpin hi hpin⟩

/-- Only `bget` gives a buffer to another block: one that has been unused for the longest time. -/
theorem Moves.reassigned (hm : Moves s s') (hne : s'.dev i ≠ s.dev i ∨ s'.blockno i ≠ s.blockno i) :
    s.refcnt i = 0 ∧ ∀ j, s.refcnt j = 0 → j ≠ i → Before s.released i j := by
  cases hm with
  | miss p k dev blockno hidle hmiss =>
    have hik : i = k := by
      by_contra hik
      change update s.dev k dev i ≠ _ ∨ update s.blockno k blockno i ≠ _ at hne
      rw [update_of_ne hik, update_of_ne hik] at hne
      simp at hne
    subst hik
    exact ⟨hmiss.unused, hmiss.oldest⟩
  | brelse p k hctl =>
    rw [brelse_fields.1, (Cache.brelse_fields s.toCache).1, (Cache.brelse_fields s.toCache).2.1] at hne
    simp at hne
  | hit | panic | acquiresleep | fill | releasesleep | bpin | bunpin => simp [Cache.bpin, Cache.bunpin] at hne

end Steps

/-! ### Runs -/

theorem circle_binit (l l₀ : List BufId) (c : Cache) (hc : Circle c.next c.prev .head (l₀.map .buf))
    (hl : l.Nodup) (hdisj : ∀ i ∈ l, i ∉ l₀) :
    Circle (l.foldl (fun c i => c.insertFront (.buf i)) c).next
      (l.foldl (fun c i => c.insertFront (.buf i)) c).prev .head ((l.reverse ++ l₀).map .buf) := by
  induction l generalizing c l₀ with
  | nil => exact hc
  | cons i l ih =>
    obtain ⟨hil, hl⟩ := List.nodup_cons.mp hl
    have hi : Node.buf i ∉ Node.head :: l₀.map Node.buf := by
      simpa using hdisj i List.mem_cons_self
    have hstep := Cache.circle_insertFront hc hi
    rw [← List.map_cons] at hstep
    have hrest : ∀ j ∈ l, j ∉ i :: l₀ := by
      intro j hj hmem
      obtain rfl | hmem := List.mem_cons.mp hmem
      · exact hil hj
      · exact hdisj j (List.mem_cons_of_mem i hj) hmem
    rw [List.reverse_cons, List.append_assoc]
    exact ih (i :: l₀) _ hstep hl hrest

theorem binit_fields (l : List BufId) (c : Cache) :
    (l.foldl (fun c i => c.insertFront (.buf i)) c).dev = c.dev ∧
      (l.foldl (fun c i => c.insertFront (.buf i)) c).refcnt = c.refcnt := by
  induction l generalizing c with
  | nil => exact ⟨rfl, rfl⟩
  | cons i l ih => exact ih (c.insertFront (.buf i))

theorem refs_init (i : BufId) : (init N).refs i = 0 := by
  simp [Sys.refs, init, holders, share_idle]

theorem inv_init : (init N).Inv (List.finRange NBUF).reverse := by
  obtain ⟨hdev, hcnt⟩ := binit_fields (List.finRange NBUF)
    ⟨fun _ => .head, fun _ => .head, fun _ => 0, fun _ => 0, fun _ => false, fun _ => 0⟩
  refine ⟨?_, ?_, ?_, ?_, ?_, ?_⟩
  · have := circle_binit (List.finRange NBUF) []
      ⟨fun _ => .head, fun _ => .head, fun _ => 0, fun _ => 0, fun _ => false, fun _ => 0⟩
      (Circle.nil rfl rfl) (List.nodup_finRange NBUF) (fun _ _ h => List.not_mem_nil h)
    rwa [List.append_nil] at this
  · intro i
    exact List.mem_reverse.mpr (List.mem_finRange i)
  · intro i j hi
    exact absurd (congrFun hdev i) hi
  · intro i
    rw [refs_init]
    exact congrArg UInt32.toNat (congrFun hcnt i)
  · rw [List.pairwise_reverse]
    exact List.pairwise_lt_finRange NBUF
  · intro i t ht
    cases ht

theorem inv_run {as : List (Act N)} {s : Sys N} (h : run step (init N) as = some s) :
    ∃ l, s.Inv l := by
  refine Lib.run_invariant (I := fun s => ∃ l, s.Inv l) ?_ ⟨_, inv_init⟩ h
  intro t a t' ht hstep
  obtain ⟨l, hi⟩ := ht
  exact (moves_of_step hi hstep).inv hi

/-- In every run: the links are one circle through all buffers in both directions; no two buffers
have the same block of a device other than 0; `refcnt` is the number of references, modulo the
size of a `uint`; and a buffer is given to another block only when its count is 0, and it is then
the one that `brelse` released to 0 first. `bget` always ends. -/
theorem cache_chain {as : List (Act N)} {s : Sys N} (h : run step (init N) as = some s) :
    (∃ l : List BufId, l.Perm (List.finRange NBUF) ∧
      Path s.next (s.next .head) (l.map .buf) .head) ∧
    (∀ x, s.prev (s.next x) = x ∧ s.next (s.prev x) = x) ∧
    (∀ i j, s.dev i ≠ 0 → s.dev i = s.dev j → s.blockno i = s.blockno j → i = j) ∧
    (∀ i, (s.refcnt i).toNat = s.refs i % 2 ^ 32) ∧
    (∀ a s' i, step s a = some s' → (s'.dev i ≠ s.dev i ∨ s'.blockno i ≠ s.blockno i) →
      s.refcnt i = 0 ∧ ∀ j, s.refcnt j = 0 → j ≠ i → Before s.released i j) ∧
    ∀ p dev blockno, s.panicked = false → s.ctl p = .idle →
      (step s (.bget p dev blockno)).isSome := by
  obtain ⟨l, hi⟩ := inv_run h
  have hnodup : l.Nodup := List.Nodup.of_map Node.buf (List.nodup_cons.mp hi.circle.nodup).2
  have hall (x : Node) : x ∈ Node.head :: l.map Node.buf := by
    cases x with
    | head => exact List.mem_cons_self
    | buf i => exact List.mem_cons_of_mem _ (List.mem_map_of_mem (hi.all i))
  refine ⟨⟨l, ?_, hi.circle.next_path.2⟩, fun x => ?_, hi.unique, hi.refs, ?_, ?_⟩
  · refine (List.perm_ext_iff_of_nodup hnodup (List.nodup_finRange NBUF)).mpr fun i => ?_
    exact ⟨fun _ => List.mem_finRange i, fun _ => hi.all i⟩
  · exact ⟨hi.circle.prev_next (hall x), hi.circle.next_prev (hall x)⟩
  · intro a s' i hstep hne
    exact (moves_of_step hi hstep).reassigned hne
  · intro p dev blockno hrun hidle
    obtain ⟨s', hs', -⟩ := moves_bget hi hidle dev blockno
    rw [step_bget hrun hidle, hs']
    rfl

/-- A buffer is pinned again and again. -/
theorem run_bpin (i : BufId) (n : Nat) {s : Sys N} (h : s.panicked = false) :
    ∃ s', run step s (List.replicate n (.bpin i)) = some s' ∧ s'.pins i = s.pins i + n ∧
      s'.panicked = false ∧ s'.lock = s.lock ∧ s'.ctl = s.ctl ∧ s'.dev = s.dev ∧
      s'.released = s.released := by
  induction n generalizing s with
  | zero => exact ⟨s, rfl, rfl, h, rfl, rfl, rfl, rfl⟩
  | succ n ih =>
    let t : Sys N := { s with
      toCache := s.toCache.bpin i
      pins := update s.pins i (s.pins i + 1) }
    have ht : t.pins i = s.pins i + 1 := update_self ..
    obtain ⟨s', hrun, hpins, hrest⟩ := ih (s := t) h
    refine ⟨s', ?_, ?_, hrest⟩
    · rw [List.replicate_succ, Lib.run_cons, show step s (.bpin i) = some t from if_pos h]
      exact hrun
    · rw [hpins, ht]
      omega

/-- After `2 ^ 32` calls of `bpin` the count of the first buffer is 0 again, and `bget` takes it for
another block. -/
theorem bpin_wraps : ∃ (i : BufId) (s s' : Sys 1),
    run step (init 1) (List.replicate (2 ^ 32) (.bpin i)) = some s ∧
    s.refs i = 2 ^ 32 ∧ s.refcnt i = 0 ∧
    step s (.bget 0 1 7) = some s' ∧ s'.dev i = 1 ∧ s'.blockno i = 7 := by
  obtain ⟨i, hi0⟩ : ∃ i : BufId, i.val = 0 := ⟨⟨0, by decide⟩, rfl⟩
  obtain ⟨s, hrun, hpins, hpanic, hlock, hctl, hdev, hrel⟩ :=
    run_bpin i (2 ^ 32) (s := init 1) rfl
  obtain ⟨l, hi⟩ := inv_run hrun
  have hrefs : s.refs i = 2 ^ 32 := by
    unfold Sys.refs
    rw [hlock, hctl, hpins]
    simp [init, holders, share_idle]
  have hzero : s.refcnt i = 0 := by
    have := hi.refs i
    rw [hrefs] at this
    exact UInt32.toNat_inj.mp this
  have hidle : s.ctl 0 = .idle := by
    rw [hctl]
    rfl
  have hdev0 (j : BufId) : s.dev j = 0 := by
    rw [hdev]
    exact congrFun (binit_fields (List.finRange NBUF) _).1 j
  obtain ⟨k, hhit⟩ | ⟨k, hmiss⟩ | ⟨hnone, -⟩ := hi.bget_cases 1 7
  · have := hhit.dev_eq
    rw [hdev0] at this
    cases this
  · -- no other buffer is older than the first
    have hk : k = i := by
      by_contra hki
      have := hmiss.oldest i hzero (Ne.symm hki)
      rw [hrel] at this
      have hlt : k.val < i.val := this
      omega
    subst hk
    have hstep := step_bget hpanic hidle 1 7
    rw [Sys.bget, hmiss.got] at hstep
    exact ⟨k, s, _, hrun, hrefs, hzero, hstep, update_self .., update_self ..⟩
  · exact absurd hzero (hnone i)

/-- A process gets a buffer and waits for its lock: one reference. -/
theorem cache_chain_bget : ∃ s : Sys 1, run step (init 1) [.bget 0 1 7] = some s ∧
    ∃ i, (s.refcnt i).toNat = s.refs i % 2 ^ 32 := by
  obtain ⟨s, hs, -⟩ := moves_bget (inv_init (N := 1)) (p := 0) rfl 1 7
  have hrun : run step (init 1) [.bget 0 1 7] = some s :=
    Lib.run_cons_some.mpr ⟨s, (step_bget rfl rfl 1 7).trans hs, rfl⟩
  exact ⟨s, hrun, ⟨0, by decide⟩, (cache_chain hrun).2.2.2.1 _⟩

end Xv6.Bcache
