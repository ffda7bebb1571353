import Xv6.Names.Model
import Xv6.Lib.Count
import Xv6.Lib.Run

/-!
# References to inodes

`At` says who has the references that `ip->ref` counts: the open files, the processes with their
current directories, and the call that is running, which has those in `held`, each with the number
of its inode. There is one lemma for each routine.
-/
namespace Xv6.Names

set_option autoImplicit false

open Lib.Hoare Function

/-- The inode that an open file has a reference to. -/
def Kind.holds : Kind → Option Id
  | .none => Option.none
  | .pipe _ _ => Option.none
  | .inode ip => some ip
  | .device ip _ => some ip

/-- One if the holder `x` has a reference to `a`. -/
def one {α : Type} [DecidableEq α] (a : α) (x : Option α) : Nat := if x = some a then 1 else 0

theorem one_none {α : Type} [DecidableEq α] (a : α) : one a none = 0 := rfl

theorem one_some {α : Type} [DecidableEq α] (a b : α) :
    one a (some b) = if a = b then 1 else 0 := by
  unfold one
  simp only [Option.some.injEq, eq_comm]

theorem one_self {α : Type} [DecidableEq α] (a : α) : one a (some a) = 1 := if_pos rfl

/-- The references of the open files and of the processes. -/
def baseRefs (w : World) (ip : Id) : Nat :=
  (∑ f, one ip (w.ftable f).kind.holds) + ∑ p, one ip (w.proc p).cwd

/-- The inodes that are open or a current directory. -/
def inUse (w : World) : Finset Id := Finset.univ.filter fun ip => baseRefs w ip ≠ 0

abbrev Held := Multiset (Id × Nat)

def Held.refs (held : Held) (ip : Id) : Nat := (held.map Prod.fst).count ip

/-- In a call that found the world `b`, the world is `w`. -/
structure At (b : World) (held : Held) (w : World) : Prop where
  /-- The routines of `fs.c` change inodes and their table. -/
  rest : { w with inode := b.inode, itable := b.itable } = b
  refs : ∀ ip, (w.itable ip).ref = baseRefs b ip + held.refs ip
  base : ∀ ip, baseRefs b ip ≠ 0 → (w.itable ip).inum = (b.itable ip).inum
  keys : ∀ x ∈ held, (w.itable x.1).inum = x.2
  uniq : ∀ ip jp, (w.itable ip).ref ≠ 0 → (w.itable jp).ref ≠ 0 →
    (w.itable ip).inum = (w.itable jp).inum → ip = jp

section Tables

variable {b w : World} {held held' : Held} {ip jp : Id} {inum n : Nat}

theorem At.ftable (h : At b held w) : w.ftable = b.ftable :=
  (congrArg World.ftable h.rest :)

theorem At.proc (h : At b held w) : w.proc = b.proc :=
  (congrArg World.proc h.rest :)

theorem refs_cons (jp : Id) (n : Nat) (held : Held) (ip : Id) :
    Held.refs ((jp, n) ::ₘ held) ip = held.refs ip + one ip (some jp) := by
  unfold Held.refs
  rw [Multiset.map_cons, Multiset.count_cons, one_some]

theorem refs_cons_self (ip : Id) (n : Nat) (held : Held) :
    Held.refs ((ip, n) ::ₘ held) ip = held.refs ip + 1 := by
  rw [refs_cons, one_self]

theorem refs_cons_of_ne (hne : ip ≠ jp) (n : Nat) (held : Held) :
    Held.refs ((jp, n) ::ₘ held) ip = held.refs ip := by
  rw [refs_cons, one_some, if_neg hne, Nat.add_zero]

theorem refs_pos {x : Id × Nat} (hx : x ∈ held) : 0 < held.refs x.1 :=
  Multiset.count_pos.mpr (Multiset.mem_map_of_mem _ hx)

theorem At.ref_ne_zero (h : At b held w) {x : Id × Nat} (hx : x ∈ held) :
    (w.itable x.1).ref ≠ 0 := by
  have := refs_pos hx
  have := h.refs x.1
  omega

/-- An entry of the table changes. -/
theorem At.set (h : At b held w) {e : Entry}
    (hself : e.ref = baseRefs b ip + held'.refs ip)
    (hrest : ∀ jp, jp ≠ ip → held'.refs jp = held.refs jp)
    (hkeys : ∀ x ∈ held', x ∈ held ∨ x = (ip, e.inum))
    (hinum : (w.itable ip).ref ≠ 0 → e.inum = (w.itable ip).inum)
    (huniq : ∀ jp, jp ≠ ip → (w.itable jp).ref ≠ 0 → (w.itable jp).inum ≠ e.inum) :
    At b held' { w with itable := update w.itable ip e } where
  rest := h.rest
  refs := by
    intro jp
    dsimp only
    by_cases hj : jp = ip
    · subst hj
      rw [update_self, hself]
    · rw [update_of_ne hj, h.refs jp, hrest jp hj]
  base := by
    intro jp hjp
    dsimp only
    by_cases hj : jp = ip
    · subst hj
      have := h.refs jp
      rw [update_self, hinum (by omega)]
      exact h.base jp hjp
    · rw [update_of_ne hj]
      exact h.base jp hjp
  keys := by
    intro x hx
    dsimp only
    by_cases hj : x.1 = ip
    · rw [hj, update_self]
      obtain hx | hx := hkeys x hx
      · have hne := h.ref_ne_zero hx
        rw [hj] at hne
        rw [hinum hne, ← hj]
        exact h.keys x hx
      · rw [hx]
    · rw [update_of_ne hj]
      obtain hx | hx := hkeys x hx
      · exact h.keys x hx
      · rw [hx] at hj
        exact absurd rfl hj
  uniq := by
    intro a c
    dsimp only
    by_cases ha : a = ip <;> by_cases hc : c = ip
    · intro _ _ _
      rw [ha, hc]
    · subst ha
      rw [update_self, update_of_ne hc]
      intro _ hcr heq
      exact absurd heq.symm (huniq c hc hcr)
    · subst hc
      rw [update_self, update_of_ne ha]
      intro har _ heq
      exact absurd heq (huniq a ha har)
    · rw [update_of_ne ha, update_of_ne hc]
      exact h.uniq a c

/-- No other entry has the number of an entry in use. -/
theorem At.alone (h : At b held w) (hip : (w.itable ip).ref ≠ 0) :
    ∀ jp, jp ≠ ip → (w.itable jp).ref ≠ 0 → (w.itable jp).inum ≠ (w.itable ip).inum :=
  fun jp hj hjr heq => hj (h.uniq jp ip hjr hip heq)

/-- A reference more to an entry in use. -/
theorem At.gain (h : At b held w) (hip : (w.itable ip).ref ≠ 0) :
    At b ((ip, (w.itable ip).inum) ::ₘ held)
      { w with
        itable := update w.itable ip { w.itable ip with ref := (w.itable ip).ref + 1 } } := by
  refine h.set ?_ ?_ ?_ (fun _ => rfl) (h.alone hip)
  · have := h.refs ip
    rw [refs_cons_self]
    dsimp only
    omega
  · intro jp hj
    rw [refs_cons_of_ne hj]
  · intro x hx
    exact (Multiset.mem_cons.mp hx).symm

theorem At.lose (h : At b ((ip, n) ::ₘ held) w) (v : Bool) :
    At b held
      { w with
        itable := update w.itable ip ⟨(w.itable ip).inum, (w.itable ip).ref - 1, v⟩ } := by
  have hip := h.ref_ne_zero (Multiset.mem_cons_self (ip, n) held)
  have hrefs := h.refs ip
  rw [refs_cons_self] at hrefs
  refine h.set ?_ ?_ ?_ (fun _ => rfl) (h.alone hip)
  · dsimp only
    omega
  · intro jp hj
    rw [refs_cons_of_ne hj]
  · intro x hx
    exact .inl (Multiset.mem_cons_of_mem hx)

theorem At.flag (h : At b held w) (hip : (w.itable ip).ref ≠ 0) (v : Bool) :
    At b held
      { w with itable := update w.itable ip { w.itable ip with valid := v } } :=
  h.set (h.refs ip) (fun _ _ => rfl) (fun _ hx => .inl hx) (fun _ => rfl) (h.alone hip)

/-- An unused entry is taken for an inode that no entry has. -/
theorem At.recycle (h : At b held w) (hip : (w.itable ip).ref = 0)
    (hno : ∀ jp, (w.itable jp).ref ≠ 0 → (w.itable jp).inum ≠ inum) :
    At b ((ip, inum) ::ₘ held)
      { w with itable := update w.itable ip ⟨inum, 1, false⟩ } := by
  refine h.set ?_ ?_ ?_ (fun hne => absurd hip hne) (fun jp _ hjr => hno jp hjr)
  · have := h.refs ip
    rw [refs_cons_self]
    dsimp only
    omega
  · intro jp hj
    rw [refs_cons_of_ne hj]
  · intro x hx
    exact (Multiset.mem_cons.mp hx).symm

theorem At.inode (h : At b held w) (i : Nat → Inode) : At b held { w with inode := i } :=
  ⟨h.rest, h.refs, h.base, h.keys, h.uniq⟩

/-- The references of files and processes change, and those of the call to the contrary. -/
theorem At.rebase {t : World} (h : At b held w) (hitable : t.itable = w.itable)
    (hrefs : ∀ ip, baseRefs t ip + held'.refs ip = baseRefs b ip + held.refs ip)
    (hkeys : ∀ x ∈ held', x ∈ held ∨ x.2 = (w.itable x.1).inum) : At t held' t where
  rest := rfl
  refs := by
    intro ip
    rw [hitable, h.refs, hrefs]
  base := fun _ _ => rfl
  keys := by
    intro x hx
    rw [hitable]
    obtain hx | hx := hkeys x hx
    · exact h.keys x hx
    · exact hx.symm
  uniq := by
    rw [hitable]
    exact h.uniq

/-- The inodes that are open or a current directory and those of the call leave an entry. -/
def Room (w : World) (n : Nat) : Prop := (inUse w).card + n < NINODE

theorem At.exists_unused (h : At b held w) (hroom : Room b held.card) :
    ∃ ip, (w.itable ip).ref = 0 := by
  by_contra hall
  rw [not_exists] at hall
  have hsub : Finset.univ ⊆ inUse b ∪ (held.map Prod.fst).toFinset := by
    intro ip _
    have hne := hall ip
    rw [h.refs ip] at hne
    rw [Finset.mem_union, inUse, Finset.mem_filter, Multiset.mem_toFinset]
    by_cases hb : baseRefs b ip = 0
    · refine .inr (Multiset.count_pos.mp ?_)
      unfold Held.refs at hne
      omega
    · exact .inl ⟨Finset.mem_univ ip, hb⟩
  have hcard := Finset.card_le_card hsub
  have hunion := Finset.card_union_le (inUse b) (held.map Prod.fst).toFinset
  have hheld := Multiset.toFinset_card_le (held.map Prod.fst)
  rw [Multiset.card_map] at hheld
  rw [Finset.card_univ, Fintype.card_fin] at hcard
  unfold Room at hroom
  omega

end Tables

/-! ### The routines of `fs.c` -/

theorem igetScan_hit {t : Id → Entry} {inum : Nat} {ips : List Id} {empty : Option Id} {ip : Id}
    (h : igetScan t inum empty ips = .inl ip) : (t ip).ref ≠ 0 ∧ (t ip).inum = inum := by
  induction ips generalizing empty with
  | nil => cases h
  | cons jp ips ih =>
    rw [igetScan] at h
    split at h
    · next hhit =>
      cases h
      exact ⟨Nat.ne_of_gt hhit.1, hhit.2⟩
    · exact ih h

theorem igetScan_miss {t : Id → Entry} {inum : Nat} {ips : List Id} {empty r : Option Id}
    (h : igetScan t inum empty ips = .inr r) :
    (∀ jp ∈ ips, (t jp).ref ≠ 0 → (t jp).inum ≠ inum) ∧
    (∀ ip, r = some ip → empty = some ip ∨ (t ip).ref = 0) ∧
    (r = none → empty = none ∧ ∀ jp ∈ ips, (t jp).ref ≠ 0) := by
  induction ips generalizing empty with
  | nil =>
    cases h
    exact ⟨by simp, fun ip hip => .inl hip, fun hr => ⟨hr, by simp⟩⟩
  | cons jp ips ih =>
    rw [igetScan] at h
    split at h
    · cases h
    · next hmiss =>
      obtain ⟨hno, hsome, hnone⟩ := ih h
      refine ⟨?_, ?_, ?_⟩
      · intro kp hkp hr
        obtain rfl | hkp := List.mem_cons.mp hkp
        · exact fun heq => hmiss ⟨Nat.pos_of_ne_zero hr, heq⟩
        · exact hno kp hkp hr
      · intro ip hip
        obtain heq | hzero := hsome ip hip
        · split at heq
          · next hj =>
            cases heq
            exact .inr hj.2
          · exact .inl heq
        · exact .inr hzero
      · intro hr
        obtain ⟨hempty, hall⟩ := hnone hr
        split at hempty
        · cases hempty
        · next hj =>
          refine ⟨hempty, fun kp hkp => ?_⟩
          obtain rfl | hkp := List.mem_cons.mp hkp
          · exact fun hz => hj ⟨hempty, hz⟩
          · exact hall kp hkp

section Routines

variable {b w : World} {held : Held} {ip dp : Id} {inum n d : Nat} {E : Panic → Prop}

theorem wp_setInode {Q : PUnit → World → Prop} (inum : Nat) (i : Inode) :
    wp (setInode inum i) Q E w ↔ Q () { w with inode := update w.inode inum i } := Iff.rfl

theorem wp_setEntry {Q : PUnit → World → Prop} (ip : Id) (e : Entry) :
    wp (setEntry ip e) Q E w ↔ Q () { w with itable := update w.itable ip e } := Iff.rfl

/-- `iget` does not fail while the table has room. -/
theorem wp_iget (h : At b held w) (hroom : Room b held.card ∨ E .noInodes) (inum : Nat) :
    wp (iget inum) (fun ip t => At b ((ip, inum) ::ₘ held) t ∧ t.inode = w.inode) E w := by
  unfold iget
  rw [wp_bind, wp_get]
  cases hscan : igetScan w.itable inum none (List.finRange NINODE) with
  | inl ip =>
    obtain ⟨href, hnum⟩ := igetScan_hit hscan
    have hgain := h.gain href
    rw [hnum] at hgain
    exact ⟨hgain, rfl⟩
  | inr r =>
    obtain ⟨hno, hsome, hnone⟩ := igetScan_miss hscan
    cases r with
    | none =>
      obtain hroom | hE := hroom
      · obtain ⟨ip, hip⟩ := h.exists_unused hroom
        exact absurd hip ((hnone rfl).2 ip (List.mem_finRange ip))
      · exact hE
    | some ip =>
      have hzero := (hsome ip rfl).resolve_left (by simp)
      exact ⟨h.recycle hzero fun jp => hno jp (List.mem_finRange jp), rfl⟩

theorem wp_idup (h : At b held w) (hip : (w.itable ip).ref ≠ 0) :
    wp (idup ip) (fun r t => r = ip ∧ At b ((ip, (w.itable ip).inum) ::ₘ held) t ∧
      t.inode = w.inode) E w :=
  ⟨rfl, h.gain hip, rfl⟩

theorem wp_ilock (h : At b held w) (hip : (ip, n) ∈ held)
    (htype : (w.inode n).type ≠ .free ∨ E .noType) :
    wp (ilock ip) (fun i t => i = w.inode n ∧ At b held t ∧ t.inode = w.inode) E w := by
  have href : (w.itable ip).ref ≠ 0 := h.ref_ne_zero hip
  have hnum : (w.itable ip).inum = n := h.keys _ hip
  unfold ilock
  rw [wp_bind, wp_get]
  dsimp only
  rw [hnum]
  apply wp_ite
  · intro hlt
    omega
  · intro _
    apply wp_ite
    · intro _
      exact ⟨rfl, h, rfl⟩
    · intro _
      rw [wp_bind, wp_setEntry]
      apply wp_ite
      · intro hfree
        exact htype.resolve_left (not_not.mpr hfree)
      · intro _
        exact ⟨rfl, hnum ▸ h.flag href true, rfl⟩

theorem wp_iput (h : At b ((ip, n) ::ₘ held) w) :
    wp (iput ip) (fun _ t => At b held t ∧ (∀ m, m ≠ n → t.inode m = w.inode m) ∧
      ((w.inode n).nlink ≠ 0 ∨ baseRefs b ip + held.refs ip ≠ 0 → t.inode = w.inode)) E w := by
  have hnum : (w.itable ip).inum = n := h.keys _ (Multiset.mem_cons_self (ip, n) held)
  have hrefs := h.refs ip
  rw [refs_cons_self] at hrefs
  unfold iput
  rw [wp_bind, wp_get]
  dsimp only
  apply wp_ite
  · intro hlast
    have hinode := (h.lose false).inode
      (update w.inode n { (w.inode n).truncated with type := .free })
    rw [hnum] at hlast hinode ⊢
    refine ⟨hinode, fun m hm => update_of_ne hm _ _, ?_⟩
    intro hkeep
    omega
  · intro _
    exact ⟨h.lose _, fun _ _ => rfl, fun _ => rfl⟩

end Routines

end Xv6.Names
