import Xv6.Names.Runs

/-!
# A directory is a finite map

The map of a directory takes a name to the inode of its entry. `dirlookup` reads the map, `dirlink`
adds a binding, and clearing the entry that `dirlookup` has found removes it.
-/
namespace Xv6.Names

set_option autoImplicit false

open Lib.Hoare Function

/-- No two live entries have the same name. -/
def Distinct (des : List Dirent) : Prop :=
  ∀ (i j : Nat) (de de' : Dirent), des[i]? = some de → des[j]? = some de' → de.inum ≠ 0 → de'.inum ≠ 0 →
    text de.name = text de'.name → i = j

theorem distinct_of_nodup {des : List Dirent} (h : (des.map fun de => text de.name).Nodup) :
    Distinct des := by
  intro i j de de' hi hj _ _ hname
  have hlt : i < (des.map fun de => text de.name).length := by
    obtain ⟨hlt, -⟩ := List.getElem?_eq_some_iff.mp hi
    rwa [List.length_map]
  apply (List.getElem?_inj hlt h).mp
  rw [List.getElem?_map, List.getElem?_map, hi, hj, Option.map_some, Option.map_some, hname]

section Map

variable {des des' : List Dirent} {e name : List UInt8} {off m : Nat} {x : Dirent}

theorem lookup_eq_some (h : lookup des e = some m) :
    ∃ (i : Nat) (de : Dirent), des[i]? = some de ∧ de.inum ≠ 0 ∧ text de.name = e ∧ de.inum.toNat = m := by
  obtain ⟨de, hfind, hm⟩ := Option.map_eq_some_iff.mp h
  have hde := List.find?_some hfind
  obtain ⟨i, hi⟩ := List.getElem?_of_mem (List.mem_of_find?_eq_some hfind)
  simp only [decide_eq_true_eq] at hde
  exact ⟨i, de, hi, hde.1, hde.2, hm⟩

theorem lookup_eq_none_iff :
    lookup des e = none ↔ ∀ (i : Nat) (de : Dirent), des[i]? = some de → de.inum ≠ 0 → text de.name ≠ e := by
  unfold lookup
  rw [Option.map_eq_none_iff, List.find?_eq_none]
  constructor
  · intro h i de hi hlive hname
    simpa [hlive, hname] using h de (List.mem_of_getElem? hi)
  · intro h de hde
    obtain ⟨i, hi⟩ := List.getElem?_of_mem hde
    simpa using h i de hi

theorem Distinct.lookup_eq_some_iff (h : Distinct des) :
    lookup des e = some m ↔
      ∃ (i : Nat) (de : Dirent), des[i]? = some de ∧ de.inum ≠ 0 ∧ text de.name = e ∧ de.inum.toNat = m := by
  refine ⟨lookup_eq_some, fun hex => ?_⟩
  obtain ⟨i, de, hi, hlive, hname, hm⟩ := hex
  cases hl : lookup des e with
  | none => exact absurd hname (lookup_eq_none_iff.mp hl i de hi hlive)
  | some k =>
    obtain ⟨j, de', hj, hlive', hname', hk⟩ := lookup_eq_some hl
    have hij := h i j de de' hi hj hlive hlive' (hname.trans hname'.symm)
    subst hij
    rw [hi] at hj
    cases hj
    rw [← hk, hm]

/-- The entries `des'` are those of `des` but for the one at `off`. -/
def Replaces (off : Nat) (x : Dirent) (des des' : List Dirent) : Prop :=
  ∀ i : Nat, des'[i]? = if i = off then some x else des[i]?

theorem putEntry_replaces (x : Dirent) (hoff : off ≤ des.length) :
    Replaces off x des (putEntry x off des) := by
  intro i
  unfold putEntry
  split
  · next hlt =>
    rw [List.getElem?_set]
    by_cases hi : off = i
    · rw [if_pos hi, if_pos hi.symm, if_pos hlt]
    · rw [if_neg hi, if_neg (Ne.symm hi)]
  · next hge =>
    have hlen : off = des.length := by omega
    by_cases hi : i = off
    · rw [if_pos hi, hi, hlen, List.getElem?_concat_length]
    · rw [if_neg hi]
      by_cases hlt : i < des.length
      · rw [List.getElem?_append_left hlt]
      · rw [List.getElem?_eq_none (by simp only [List.length_append, List.length_singleton]; omega),
          List.getElem?_eq_none (by omega)]

theorem set_replaces (x : Dirent) (hoff : off < des.length) :
    Replaces off x des (des.set off x) := by
  have hput := putEntry_replaces x (Nat.le_of_lt hoff)
  unfold putEntry at hput
  rwa [if_pos hoff] at hput

/-- A new entry takes the place of one that is not live. -/
theorem Replaces.link (h : Replaces off x des des') (hdist : Distinct des)
    (hfree : ∀ de : Dirent, des[off]? = some de → de.inum = 0) (hx : x.inum ≠ 0)
    (habsent : lookup des (text x.name) = none) :
    Distinct des' ∧ lookup des' = update (lookup des) (text x.name) (some x.inum.toNat) := by
  rw [lookup_eq_none_iff] at habsent
  have hother : ∀ (i : Nat) (de : Dirent), des'[i]? = some de → de.inum ≠ 0 →
      i = off ∧ de = x ∨ i ≠ off ∧ des[i]? = some de := by
    intro i de hi _
    rw [h i] at hi
    split at hi
    · next heq =>
      cases hi
      exact .inl ⟨heq, rfl⟩
    · next hne => exact .inr ⟨hne, hi⟩
  have hdist' : Distinct des' := by
    intro i j de de' hi hj hlive hlive' hname
    obtain ⟨rfl, rfl⟩ | ⟨_, hi⟩ := hother i de hi hlive
    · obtain ⟨rfl, _⟩ | ⟨_, hj⟩ := hother j de' hj hlive'
      · rfl
      · exact absurd hname.symm (habsent j de' hj hlive')
    · obtain ⟨rfl, rfl⟩ | ⟨_, hj⟩ := hother j de' hj hlive'
      · exact absurd hname (habsent i de hi hlive)
      · exact hdist i j de de' hi hj hlive hlive' hname
  refine ⟨hdist', funext fun e => ?_⟩
  by_cases he : e = text x.name
  · subst he
    rw [update_self, hdist'.lookup_eq_some_iff]
    exact ⟨off, x, by rw [h off, if_pos rfl], hx, rfl, rfl⟩
  · rw [update_of_ne he]
    apply Option.ext
    intro m
    rw [hdist'.lookup_eq_some_iff, hdist.lookup_eq_some_iff]
    constructor
    · intro hex
      obtain ⟨i, de, hi, hlive, hname, hm⟩ := hex
      obtain ⟨rfl, rfl⟩ | ⟨_, hi⟩ := hother i de hi hlive
      · exact absurd hname.symm he
      · exact ⟨i, de, hi, hlive, hname, hm⟩
    · intro hex
      obtain ⟨i, de, hi, hlive, hname, hm⟩ := hex
      refine ⟨i, de, ?_, hlive, hname, hm⟩
      rw [h i, if_neg]
      · exact hi
      · intro heq
        rw [heq] at hi
        exact hlive (hfree de hi)

/-- The live entry of a name is cleared. -/
theorem Replaces.clear (h : Replaces off x des des') (hdist : Distinct des) (hx : x.inum = 0)
    {de : Dirent} (hoff : des[off]? = some de) (hlive : de.inum ≠ 0) :
    Distinct des' ∧ lookup des' = update (lookup des) (text de.name) none := by
  have hother : ∀ (i : Nat) (d : Dirent), des'[i]? = some d → d.inum ≠ 0 → i ≠ off ∧ des[i]? = some d := by
    intro i d hi hd
    rw [h i] at hi
    split at hi
    · cases hi
      exact absurd hx hd
    · next hne => exact ⟨hne, hi⟩
  have hdist' : Distinct des' := by
    intro i j d d' hi hj hd hd' hname
    exact hdist i j d d' (hother i d hi hd).2 (hother j d' hj hd').2 hd hd' hname
  refine ⟨hdist', funext fun e => ?_⟩
  by_cases he : e = text de.name
  · subst he
    rw [update_self, lookup_eq_none_iff]
    intro i d hi hd hname
    obtain ⟨hne, hi⟩ := hother i d hi hd
    exact hne (hdist i off d de hi hoff hd hlive hname)
  · rw [update_of_ne he]
    apply Option.ext
    intro m
    rw [hdist'.lookup_eq_some_iff, hdist.lookup_eq_some_iff]
    constructor
    · intro hex
      obtain ⟨i, d, hi, hd, hname, hm⟩ := hex
      exact ⟨i, d, (hother i d hi hd).2, hd, hname, hm⟩
    · intro hex
      obtain ⟨i, d, hi, hd, hname, hm⟩ := hex
      refine ⟨i, d, ?_, hd, hname, hm⟩
      rw [h i, if_neg]
      · exact hi
      · intro heq
        rw [heq, hoff] at hi
        cases hi
        exact he hname.symm

end Map

/-! ### Operations on a directory -/

/-- What a caller does with a directory. -/
inductive DirOp where
  | find (name : List UInt8)
  | link (name : List UInt8) (inum : Nat) (block : Bool)
  | unlink (name : List UInt8)

/-- What it learns: the inode and the position of the entry, or whether the entry was made. -/
inductive Ans where
  | absent
  | found (inum off : Nat)
  | linked (ok : Bool)

/-- The entry that `sys_unlink` writes. -/
def Dirent.cleared : Dirent := ⟨0, List.replicate DIRSIZ 0⟩

/-- An operation on the directory `dp`; the reference from `dirlookup` is dropped at the end. -/
def DirOp.body (dp : Id) : DirOp → Kernel Ans
  | .find name => do
    match ← dirlookup dp name with
    | none => pure .absent
    | some (ip, off) => do
      let w ← get
      iput ip
      pure (.found (w.itable ip).inum off)
  | .link name inum block => do
    let ok ← dirlink dp name inum block
    pure (.linked ok)
  | .unlink name => do
    match ← dirlookup dp name with
    | none => pure .absent
    | some (ip, off) => do
      let w ← get
      let d := w.inode (w.itable dp).inum
      setInode (w.itable dp).inum { d with entries := d.entries.set off .cleared }
      iput ip
      pure (.found (w.itable ip).inum off)

def runOps (dp : Id) : List DirOp → Kernel (List Ans)
  | [] => pure []
  | op :: ops => do
    let a ← op.body dp
    let as ← runOps dp ops
    pure (a :: as)

/-- The answer of `dirlookup` is the binding of the name, with a position whose clearing removes
that binding and no other. -/
def Answers (des : List Dirent) (name : List UInt8) (a : Ans) : Prop :=
  (lookup des (text name) = none → a = .absent) ∧
  ∀ m, lookup des (text name) = some m → ∃ off, a = .found m off ∧
    lookup (des.set off .cleared) = update (lookup des) (text name) none

/-- The position is the first free one, or the end. -/
def FirstFree (des : List Dirent) (off : Nat) : Prop :=
  off ≤ des.length ∧ (∀ (i : Nat) (de : Dirent), i < off → des[i]? = some de → de.inum ≠ 0) ∧
    ∀ de : Dirent, des[off]? = some de → de.inum = 0

/-- An operation in terms of the map. -/
def DirOp.Spec (des : List Dirent) (a : Ans) (des' : List Dirent) : DirOp → Prop
  | .find name => des' = des ∧ Answers des name a
  | .link name inum block =>
    (lookup des (text name) = none ∧ Writable des block → a = .linked true ∧
      lookup des' = update (lookup des) (text name) (some inum) ∧
      ∃ off, FirstFree des off ∧
        des' = putEntry ⟨.ofNat inum, strncpy name DIRSIZ⟩ off des) ∧
    (¬(lookup des (text name) = none ∧ Writable des block) → a = .linked false ∧ des' = des)
  | .unlink name =>
    Answers des name a ∧ lookup des' = update (lookup des) (text name) none

/-- A sequence of operations, each with its answer, in terms of the map. -/
def Trace : List Dirent → List DirOp → List Ans → List Dirent → Prop
  | des, [], as, des' => as = [] ∧ des' = des
  | des, op :: ops, as, des' => ∃ a rest mid, as = a :: rest ∧ op.Spec des a mid ∧
      Trace mid ops rest des'

/-- The numbers that `dirlink` gets are those of inodes. -/
def DirOp.Valid : DirOp → Prop
  | .find _ => True
  | .link _ inum _ => inum ≠ 0 ∧ inum < 2 ^ 16
  | .unlink _ => True

theorem firstFree_freeEntry (des : List Dirent) : FirstFree des (freeEntry des) := by
  refine ⟨freeEntry_le des, fun i de hi hde => freeEntry_first hi hde, fun de hde => ?_⟩
  obtain ⟨hlt, -⟩ := List.getElem?_eq_some_iff.mp hde
  obtain ⟨de', hde', hfree⟩ := freeEntry_free hlt
  rw [hde] at hde'
  cases hde'
  exact hfree

theorem lookup_text_eq_none_iff {des : List Dirent} {name : List UInt8} :
    lookup des (text name) = none ↔ findEntry name des = none := by
  rw [lookup_eq_none_iff, findEntry_eq_none_iff]
  constructor
  · intro h de hde
    obtain ⟨i, hi⟩ := List.getElem?_of_mem hde
    exact h i de hi
  · intro h i de hi
    exact h de (List.mem_of_getElem? hi)

section Steps

variable {des : List Dirent} {name : List UInt8} {off : Nat} {de : Dirent}

/-- What follows from the position that `dirlookup` has found. -/
theorem found_clear (hdist : Distinct des) (hfind : findEntry name des = some off)
    (hde : des[off]? = some de) (hlive : de.inum ≠ 0) :
    lookup des (text name) = some de.inum.toNat ∧ Distinct (des.set off .cleared) ∧
      lookup (des.set off .cleared) = update (lookup des) (text name) none := by
  obtain ⟨de', hde', -, hname⟩ := findEntry_some hfind
  rw [hde] at hde'
  cases hde'
  obtain ⟨hlt, -⟩ := List.getElem?_eq_some_iff.mp hde
  have hclear := (set_replaces .cleared hlt).clear hdist rfl hde hlive
  rw [hname] at hclear
  refine ⟨?_, hclear⟩
  rw [hdist.lookup_eq_some_iff]
  exact ⟨off, de, hde, hlive, hname, rfl⟩

theorem answers_found (hdist : Distinct des) (hfind : findEntry name des = some off)
    (hde : des[off]? = some de) (hlive : de.inum ≠ 0) :
    Answers des name (.found de.inum.toNat off) := by
  obtain ⟨hsome, -, hclear⟩ := found_clear hdist hfind hde hlive
  constructor
  · intro hnone
    rw [hnone] at hsome
    cases hsome
  · intro m hm
    rw [hsome] at hm
    cases hm
    exact ⟨off, rfl, hclear⟩

theorem answers_absent (hfind : findEntry name des = none) : Answers des name .absent := by
  rw [← lookup_text_eq_none_iff] at hfind
  constructor
  · intro _
    rfl
  · intro m hm
    rw [hfind] at hm
    cases hm

end Steps

section Runs

variable {b w : World} {held : Held} {dp : Id} {d : Nat} {E : Panic → Prop}

/-- A directory to which the caller has a reference. -/
structure OpenDir (b : World) (held : Held) (dp : Id) (d : Nat) (w : World) : Prop where
  inodes : At b held w
  mem : (dp, d) ∈ held
  type : (w.inode d).type = .dir
  distinct : Distinct (w.inode d).entries

theorem wp_dirOp (h : OpenDir b held dp d w) (hroom : Room b held.card) (op : DirOp)
    (hop : op.Valid) :
    wp (op.body dp) (fun a t => OpenDir b held dp d t ∧
      op.Spec (w.inode d).entries a (t.inode d).entries) (fun _ => False) w := by
  cases op with
  | find name =>
    apply wp_call (wp_dirlookup h.inodes h.mem (.inl hroom) (.inl h.type) name)
    intro r t ht
    obtain ⟨hinode, ⟨rfl, hfind, hat⟩ | ⟨ip, off, de, rfl, hfind, hde, hlive, hat⟩⟩ := ht
    · have hopen : OpenDir b held dp d t := ⟨hat, h.mem, by rw [hinode]; exact h.type,
        by rw [hinode]; exact h.distinct⟩
      exact ⟨hopen, by rw [hinode], answers_absent hfind⟩
    · have hnum : (t.itable ip).inum = de.inum.toNat := hat.keys _ (Multiset.mem_cons_self _ _)
      dsimp only
      rw [wp_bind, wp_get]
      apply wp_call (wp_iput_other hat h.mem)
      intro _ u hu
      have hd : u.inode d = w.inode d := by rw [hu.2.1, hinode]
      have hopen : OpenDir b held dp d u := ⟨hu.1, h.mem, by rw [hd]; exact h.type,
        by rw [hd]; exact h.distinct⟩
      rw [wp_pure, hnum]
      exact ⟨hopen, by rw [hd], answers_found h.distinct hfind hde hlive⟩
  | link name inum block =>
    apply wp_call (wp_dirlink h.inodes h.mem (.inl hroom) (.inl h.type) name inum block)
    intro r t ht
    obtain ⟨hat, ⟨rfl, hfind, hw, hinode⟩ | ⟨rfl, hfail, hd, -⟩⟩ := ht
    · have hinum : (UInt16.ofNat inum).toNat = inum := by
        rw [UInt16.toNat_ofNat', Nat.mod_eq_of_lt hop.2]
      have hne : UInt16.ofNat inum ≠ 0 := by
        intro hz
        rw [hz] at hinum
        exact hop.1 hinum.symm
      have hd : (t.inode d) = (w.inode d).linked name inum := by
        rw [hinode, update_self]
      have habsent := lookup_text_eq_none_iff.mpr hfind
      have hfree := firstFree_freeEntry (w.inode d).entries
      have hlink := (putEntry_replaces ⟨.ofNat inum, strncpy name DIRSIZ⟩ hfree.1).link h.distinct
        hfree.2.2 hne (by rw [text_strncpy]; exact habsent)
      rw [text_strncpy, hinum] at hlink
      refine ⟨⟨hat, h.mem, ?_, ?_⟩, ?_, ?_⟩
      · rw [hd]
        exact h.type
      · rw [hd]
        exact hlink.1
      · intro _
        rw [hd]
        exact ⟨rfl, hlink.2, _, hfree, rfl⟩
      · intro hnot
        exact absurd ⟨habsent, hw⟩ hnot
    · have hopen : OpenDir b held dp d t := ⟨hat, h.mem, by rw [hd]; exact h.type,
        by rw [hd]; exact h.distinct⟩
      refine ⟨hopen, ?_, ?_⟩
      · intro hcan
        exact absurd hcan.2 (hfail (lookup_text_eq_none_iff.mp hcan.1))
      · intro _
        exact ⟨rfl, by rw [hd]⟩
  | unlink name =>
    apply wp_call (wp_dirlookup h.inodes h.mem (.inl hroom) (.inl h.type) name)
    intro r t ht
    obtain ⟨hinode, ⟨rfl, hfind, hat⟩ | ⟨ip, off, de, rfl, hfind, hde, hlive, hat⟩⟩ := ht
    · have hopen : OpenDir b held dp d t := ⟨hat, h.mem, by rw [hinode]; exact h.type,
        by rw [hinode]; exact h.distinct⟩
      refine ⟨hopen, answers_absent hfind, ?_⟩
      rw [hinode, ← lookup_text_eq_none_iff.mpr hfind, update_eq_self]
    · have hnum : (t.itable ip).inum = de.inum.toNat := hat.keys _ (Multiset.mem_cons_self _ _)
      have hdnum : (t.itable dp).inum = d := hat.keys _ (Multiset.mem_cons_of_mem h.mem)
      obtain ⟨-, hdist, hclear⟩ := found_clear h.distinct hfind hde hlive
      dsimp only
      rw [wp_bind, wp_get, wp_bind, wp_setInode, hdnum, hinode]
      apply wp_call (wp_iput_other (hat.inode _) h.mem)
      intro _ u hu
      have hd : u.inode d =
          { w.inode d with entries := (w.inode d).entries.set off .cleared } := by
        rw [hu.2.1]
        exact update_self _ _ _
      have hopen : OpenDir b held dp d u := ⟨hu.1, h.mem, by rw [hd]; exact h.type,
        by rw [hd]; exact hdist⟩
      rw [wp_pure, hnum]
      refine ⟨hopen, answers_found h.distinct hfind hde hlive, ?_⟩
      rw [hd]
      exact hclear

/-- Every sequence of operations is one on the map. -/
theorem wp_runOps (h : OpenDir b held dp d w) (hroom : Room b held.card) (ops : List DirOp)
    (hops : ∀ op ∈ ops, op.Valid) :
    wp (runOps dp ops) (fun as t => OpenDir b held dp d t ∧
      Trace (w.inode d).entries ops as (t.inode d).entries) (fun _ => False) w := by
  induction ops generalizing w with
  | nil => exact ⟨h, rfl, rfl⟩
  | cons op ops ih =>
    rw [runOps]
    apply wp_call (wp_dirOp h hroom op (hops op List.mem_cons_self))
    intro a t ht
    apply wp_call (ih ht.1 fun op' hop' => hops op' (List.mem_cons_of_mem _ hop'))
    intro as u hu
    exact ⟨hu.1, a, as, (t.inode d).entries, rfl, ht.2, hu.2⟩

end Runs

/-- A directory refines a finite map from names, cut to `DIRSIZ` bytes, to inodes: every sequence of
operations has answers and ends with entries that are those of the map's operations. -/
theorem directory_refines_map {b w : World} {held : Held} {dp : Id} {d : Nat} (hw : At b held w)
    (hdp : (dp, d) ∈ held) (hroom : Room b held.card) (htype : (w.inode d).type = .dir)
    (hdist : Distinct (w.inode d).entries) {ops : List DirOp} (hops : ∀ op ∈ ops, op.Valid) :
    ∃ as t, runOps dp ops w = .ok (as, t) ∧
      Trace (w.inode d).entries ops as (t.inode d).entries := by
  obtain ⟨as, t, hrun, ht⟩ := wp_total (wp_runOps ⟨hw, hdp, htype, hdist⟩ hroom ops hops)
  exact ⟨as, t, hrun, ht.2⟩

/-- A name is made and unmade again in the root directory. -/
def twoOps : List DirOp := [.link (fileName 1) 5 true, .unlink (fileName 1)]

theorem directory_refines_map_twoOps :
    ∃ w as t, runOps ⟨0, by decide⟩ twoOps w = .ok (as, t) ∧
      Trace (w.inode ROOTINO).entries twoOps as (t.inode ROOTINO).entries := by
  have hboot := (steady_boot (rootWith [fileName 0]) 200).inodes
  have href : ((boot (rootWith [fileName 0]) 200).itable ⟨0, by decide⟩).ref ≠ 0 := by decide
  have hw := hboot.gain href
  have hroom : Room (boot (rootWith [fileName 0]) 200) 1 := by
    unfold Room
    decide +kernel
  have hdist : Distinct (rootWith [fileName 0] ROOTINO).entries := by
    apply distinct_of_nodup
    decide
  have hops : ∀ op ∈ twoOps, op.Valid := by
    intro op hop
    simp only [twoOps, List.mem_cons, List.not_mem_nil, or_false] at hop
    obtain rfl | rfl := hop
    · exact ⟨by decide, by decide⟩
    · trivial
  obtain ⟨as, t, hrun, htrace⟩ := directory_refines_map hw (Multiset.mem_cons_self _ _) hroom
    rfl hdist hops
  exact ⟨_, as, t, hrun, htrace⟩

/-- With a full table `dirlookup` has no answer for a name that is there. -/
theorem dirlookup_no_inodes :
    ((Lib.run step (boot (rootWith ((List.range 50).map fileName)) 200) fullRun).map fun w =>
      (lookup (w.inode ROOTINO).entries (fileName 49),
        panicOf ((DirOp.find (fileName 49)).body ⟨0, by decide⟩ w))) =
      some (some 51, some .noInodes) := by
  decide +kernel

end Xv6.Names
