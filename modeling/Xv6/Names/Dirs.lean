import Xv6.Names.Refs
import Xv6.Names.Text

/-!
# Directories

A directory is a list of entries. `dirlookup` finds the first live entry with a name, and `dirlink`
writes the first free one or a new one at the end.
-/
namespace Xv6.Names

set_option autoImplicit false

open Lib.Hoare

/-! ### Entries -/

section Entries

variable {name : List UInt8} {des : List Dirent} {off : Nat}

theorem findEntry_eq_none_iff :
    findEntry name des = none ↔ ∀ de ∈ des, de.inum ≠ 0 → text de.name ≠ text name := by
  induction des with
  | nil => simp [findEntry]
  | cons de des ih =>
    simp only [findEntry, namecmp_eq_zero_iff]
    rw [List.forall_mem_cons, ← ih]
    split
    · next hhit =>
      constructor
      · intro h
        cases h
      · intro h
        exact absurd hhit.2.symm (h.1 hhit.1)
    · next hmiss =>
      rw [Option.map_eq_none_iff]
      constructor
      · intro h
        exact ⟨fun hlive heq => hmiss ⟨hlive, heq.symm⟩, h⟩
      · intro h
        exact h.2

/-- The entry that is found is live and has the name, and no one before it has. -/
theorem findEntry_some (h : findEntry name des = some off) :
    ∃ de, des[off]? = some de ∧ de.inum ≠ 0 ∧ text de.name = text name := by
  induction des generalizing off with
  | nil => cases h
  | cons de des ih =>
    simp only [findEntry, namecmp_eq_zero_iff] at h
    split at h
    · next hhit =>
      cases h
      exact ⟨de, rfl, hhit.1, hhit.2.symm⟩
    · obtain ⟨k, hk, hoff⟩ := Option.map_eq_some_iff.mp h
      subst hoff
      exact ih hk

theorem freeEntry_le (des : List Dirent) : freeEntry des ≤ des.length := by
  induction des with
  | nil => exact Nat.le_refl 0
  | cons de des ih =>
    rw [freeEntry, List.length_cons]
    split
    · exact Nat.zero_le _
    · exact Nat.succ_le_succ ih

/-- The entry that `dirlink` reuses is free. -/
theorem freeEntry_free (h : freeEntry des < des.length) :
    ∃ de, des[freeEntry des]? = some de ∧ de.inum = 0 := by
  induction des with
  | nil => exact absurd h (Nat.lt_irrefl 0)
  | cons de des ih =>
    rw [freeEntry] at h ⊢
    split at h
    · next hfree =>
      rw [if_pos hfree]
      exact ⟨de, rfl, hfree⟩
    · next hlive =>
      rw [if_neg hlive]
      exact ih (Nat.lt_of_succ_lt_succ h)

/-- All entries before it are live. -/
theorem freeEntry_first {i : Nat} {de : Dirent} (hi : i < freeEntry des) (hde : des[i]? = some de) :
    de.inum ≠ 0 := by
  induction des generalizing i with
  | nil => exact absurd hi (Nat.not_lt_zero i)
  | cons e des ih =>
    rw [freeEntry] at hi
    split at hi
    · exact absurd hi (Nat.not_lt_zero i)
    · next hlive =>
      cases i with
      | zero =>
        cases hde
        exact hlive
      | succ i => exact ih (Nat.lt_of_succ_lt_succ hi) hde

/-- The directory can take an entry: a free one, or a new one with a block for it. -/
def Writable (des : List Dirent) (block : Bool) : Prop :=
  freeEntry des < des.length ∨
    freeEntry des < MAXENTRIES ∧ (freeEntry des % EPB ≠ 0 ∨ block)

end Entries

/-! ### The routines -/

/-- Every live entry of a directory names an inode with a type and a name. -/
def Sound (inode : Nat → Inode) : Prop :=
  ∀ n, (inode n).type = .dir → ∀ de ∈ (inode n).entries, de.inum ≠ 0 →
    (inode de.inum.toNat).type ≠ .free ∧ (inode de.inum.toNat).nlink ≠ 0

section Routines

variable {b w : World} {held : Held} {dp : Id} {d : Nat} {E : Panic → Prop}

/-- Dropping another reference leaves the directory alone. -/
theorem wp_iput_other {ip : Id} {n : Nat} (hat : At b ((ip, n) ::ₘ held) w)
    (hdp : (dp, d) ∈ held) :
    wp (iput ip) (fun _ t => At b held t ∧ t.inode d = w.inode d ∧
      ((w.inode n).nlink ≠ 0 → t.inode = w.inode)) E w := by
  apply wp_mono _ (fun _ he => he) (wp_iput hat)
  intro _ t ht
  obtain ⟨ht, hother, hkept⟩ := ht
  refine ⟨ht, ?_, fun hne => hkept (.inl hne)⟩
  by_cases hd : d = n
  · -- The directory names itself, and the caller has a reference to it.
    have hip : ip = dp := by
      apply hat.uniq
      · exact hat.ref_ne_zero (x := (ip, n)) (Multiset.mem_cons_self _ _)
      · exact hat.ref_ne_zero (x := (dp, d)) (Multiset.mem_cons_of_mem hdp)
      · have hk := hat.keys (ip, n) (Multiset.mem_cons_self _ _)
        have hd' := hat.keys (dp, d) (Multiset.mem_cons_of_mem hdp)
        dsimp only at hk hd'
        rw [hk, hd', hd]
    have hpos : 0 < held.refs dp := refs_pos hdp
    rw [hkept (.inr (by rw [hip]; omega))]
  · exact hother d hd

theorem wp_dirlookup (h : At b held w) (hdp : (dp, d) ∈ held)
    (hroom : Room b held.card ∨ E .noInodes) (htype : (w.inode d).type = .dir ∨ E .dirlookup)
    (name : List UInt8) :
    wp (dirlookup dp name) (fun r t => t.inode = w.inode ∧
      (r = none ∧ findEntry name (w.inode d).entries = none ∧ At b held t ∨
        ∃ ip off de, r = some (ip, off) ∧ findEntry name (w.inode d).entries = some off ∧
          (w.inode d).entries[off]? = some de ∧ de.inum ≠ 0 ∧
          At b ((ip, de.inum.toNat) ::ₘ held) t)) E w := by
  have hnum : (w.itable dp).inum = d := h.keys _ hdp
  unfold dirlookup
  rw [wp_bind, wp_get]
  dsimp only
  rw [hnum]
  apply wp_ite
  · intro hbad
    exact htype.resolve_left hbad
  · intro _
    cases hfind : findEntry name (w.inode d).entries with
    | none => exact ⟨rfl, .inl ⟨rfl, rfl, h⟩⟩
    | some off =>
      obtain ⟨de, hde, hlive, -⟩ := findEntry_some hfind
      dsimp only
      rw [List.getD_eq_getElem?_getD, hde, Option.getD_some]
      apply wp_call (wp_iget h hroom _)
      intro ip t ht
      exact ⟨ht.2, .inr ⟨ip, off, de, rfl, rfl, hde, hlive, ht.1⟩⟩

/-- The contents of a directory with a new entry. -/
def Inode.linked (i : Inode) (name : List UInt8) (inum : Nat) : Inode :=
  { i with entries := putEntry ⟨.ofNat inum, strncpy name DIRSIZ⟩ (freeEntry i.entries) i.entries }

theorem wp_dirlink (h : At b held w) (hdp : (dp, d) ∈ held)
    (hroom : Room b held.card ∨ E .noInodes) (htype : (w.inode d).type = .dir ∨ E .dirlookup)
    (name : List UInt8) (inum : Nat) (block : Bool) :
    wp (dirlink dp name inum block) (fun r t => At b held t ∧
      (r = true ∧ findEntry name (w.inode d).entries = none ∧
          Writable (w.inode d).entries block ∧
          t.inode = Function.update w.inode d ((w.inode d).linked name inum) ∨
        r = false ∧ (findEntry name (w.inode d).entries = none → ¬Writable (w.inode d).entries block) ∧
          t.inode d = w.inode d ∧
          (Sound w.inode → (w.inode d).type = .dir → t.inode = w.inode))) E w := by
  unfold dirlink
  apply wp_call (wp_dirlookup h hdp hroom htype name)
  intro r t ht
  obtain ⟨hinode, ⟨rfl, hfind, hat⟩ | ⟨ip, off, de, rfl, hfind, hde, hlive, hat⟩⟩ := ht
  · have hnum : (t.itable dp).inum = d := hat.keys _ hdp
    dsimp only
    rw [wp_bind, wp_get, hnum, hinode]
    apply wp_ite
    · intro hw
      rw [wp_bind, wp_setInode, wp_pure, hinode]
      exact ⟨hat.inode _, .inl ⟨rfl, hfind, hw, rfl⟩⟩
    · intro hw
      rw [wp_pure]
      exact ⟨hat, .inr ⟨rfl, fun _ => hw, by rw [hinode], fun _ _ => hinode⟩⟩
  · dsimp only
    apply wp_call (wp_iput_other hat hdp)
    intro _ u hu
    rw [hinode] at hu
    obtain ⟨hu, hd, hkept⟩ := hu
    refine ⟨hu, .inr ⟨rfl, fun hnone => ?_, hd, ?_⟩⟩
    · rw [hnone] at hfind
      cases hfind
    · intro hsound hdir
      exact hkept (hsound d hdir de (List.mem_of_getElem? hde) hlive).2

end Routines

end Xv6.Names
