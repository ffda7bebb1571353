import Xv6.Names.Calls
import Xv6.Names.Walk

/-!
# Calls on names

`create`, `sys_link` and `sys_unlink` give back the references that they take, but for the one to
the inode that `create` returns.
-/
namespace Xv6.Names

set_option autoImplicit false

open Lib.Hoare

/-- `E` allows every panic but the one of `iget`. -/
def Lax (E : Panic → Prop) : Prop := ∀ e, e ≠ .noInodes → E e

section Create

variable {b w : World} {held : Held} {ip dp : Id} {n d : Nat} {p : Pid} {E : Panic → Prop}

theorem wp_ialloc (h : At b held w) (hroom : Room b held.card ∨ E .noInodes) (type : Ty)
    (inums : List Nat) :
    wp (ialloc type inums) (fun r t => r = none ∧ At b held t ∨
      ∃ ip n, r = some ip ∧ At b ((ip, n) ::ₘ held) t) E w := by
  induction inums with
  | nil => exact .inl ⟨rfl, h⟩
  | cons inum inums ih =>
    rw [ialloc, wp_bind, wp_get]
    apply wp_ite
    · intro _
      rw [wp_bind, wp_setInode]
      apply wp_call (wp_iget (h.inode _) hroom inum)
      intro ip t ht
      exact .inr ⟨ip, inum, rfl, ht.1⟩
    · intro _
      exact ih

theorem wp_createLinks (h : At b held w) (hip : (ip, n) ∈ held) (hdp : (dp, d) ∈ held)
    (hroom : Room b held.card ∨ E .noInodes) (hE : Lax E) (name : List UInt8) (type : Ty)
    (env : Env) :
    wp (createLinks dp ip name type env) (fun _ t => At b held t) E w := by
  have hlink : ∀ {v : World} {jp : Id} {m : Nat}, At b held v → (jp, m) ∈ held →
      ∀ nm inum block, wp (dirlink jp nm inum block) (fun _ t => At b held t) E v := by
    intro v jp m hv hjp nm inum block
    exact wp_mono (fun _ _ ht => ht.1) (fun _ he => he)
      (wp_dirlink hv hjp hroom (.inr (hE _ (by decide))) nm inum block)
  have hlast : ∀ {v : World}, At b held v → ∀ (own : Bool) inum,
      wp (if own = true then dirlink dp name inum (env.block 2) else pure false)
        (fun _ t => At b held t) E v := by
    intro v hv own inum
    apply wp_ite
    · intro _
      exact hlink hv hdp _ _ _
    · intro _
      exact hv
  unfold createLinks
  rw [wp_bind, wp_get]
  dsimp only
  apply wp_ite
  · intro _
    apply wp_call (hlink h hip _ _ _)
    intro r t ht
    apply wp_ite
    · intro _
      exact wp_call (hlink ht hip _ _ _) fun own u hu => hlast hu own _
    · intro _
      exact hlast ht false (w.itable ip).inum
  · intro _
    exact hlast h true (w.itable ip).inum

theorem wp_iput_drop {α : Type} (a : α) (h : At b ((ip, n) ::ₘ held) w) :
    wp (iput ip >>= fun _ => pure a) (fun r t => r = a ∧ At b held t) E w :=
  wp_call (wp_iput h) fun _ _ ht => ⟨rfl, ht.1⟩

theorem wp_createFail (h : At b ((ip, n) ::ₘ (dp, d) ::ₘ held) w) :
    wp (createFail dp ip) (fun r t => r = none ∧ At b held t) E w := by
  unfold createFail
  rw [wp_bind, wp_get]
  dsimp only
  rw [wp_bind, wp_setInode]
  exact wp_call (wp_iput (h.inode _)) fun _ t ht => wp_iput_drop none ht.1

/-- `create` ends with a reference to the inode that it returns. -/
theorem wp_create (h : At b held w) (hroom : Room b (held.card + 2) ∨ E .noInodes) (hE : Lax E)
    (p : Pid) (path : List UInt8) (type : Ty) (major minor : Int) (env : Env) :
    wp (create p path type major minor env) (fun r t => r = none ∧ At b held t ∨
      ∃ ip n, r = some ip ∧ At b ((ip, n) ::ₘ held) t) E w := by
  have hroom1 : Room b (held.card + 1) ∨ E .noInodes := hroom.imp_left fun hr => hr.mono (by omega)
  have hnone : ∀ {c : Kernel (Option Id)} {v : World},
      wp c (fun r t => r = none ∧ At b held t) E v →
      wp c (fun r t => r = none ∧ At b held t ∨ ∃ ip n, r = some ip ∧ At b ((ip, n) ::ₘ held) t) E v :=
    fun hc => wp_mono (fun _ _ ht => .inl ht) (fun _ he => he) hc
  unfold create nameiparent
  apply wp_call (wp_namex true h hroom1 (.inr (hE _ (by decide))) (.inr (hE _ (by decide))) path _)
  intro r t ht
  obtain ⟨m, ⟨rfl, -, hat⟩ | ⟨dp, name, d, rfl, -, hat⟩, -⟩ := ht
  · exact .inl ⟨rfl, hat⟩
  · dsimp only
    apply wp_call (wp_ilock hat (Multiset.mem_cons_self _ _) (.inr (hE _ (by decide))))
    intro _ t ht
    apply wp_call (wp_dirlookup ht.2.1 (Multiset.mem_cons_self _ _) (by rwa [Multiset.card_cons])
      (.inr (hE _ (by decide))) name)
    intro r t ht
    obtain ⟨-, ⟨rfl, -, hat⟩ | ⟨ip, off, de, rfl, -, -, -, hat⟩⟩ := ht
    · -- The name is free.
      rw [wp_bind, wp_get]
      apply wp_call (wp_ialloc hat (by rwa [Multiset.card_cons]) type _)
      intro r t ht
      obtain ⟨rfl, hat⟩ | ⟨ip, n, rfl, hat⟩ := ht
      · exact hnone (wp_iput_drop none hat)
      · dsimp only
        apply wp_call (wp_ilock hat (Multiset.mem_cons_self _ _) (.inr (hE _ (by decide))))
        intro i t ht
        rw [wp_bind, wp_get, wp_bind, wp_setInode]
        apply wp_call (wp_createLinks (ht.2.1.inode _) (Multiset.mem_cons_self _ _)
          (Multiset.mem_cons_of_mem (Multiset.mem_cons_self _ _))
          (by simpa only [Multiset.card_cons, Nat.add_assoc] using hroom) hE name type env)
        intro own t ht
        have hdrop : ∀ {v : World}, At b ((ip, n) ::ₘ (dp, d) ::ₘ held) v →
            wp (iput dp >>= fun _ => pure (some ip)) (fun r t => r = none ∧ At b held t ∨
              ∃ ip n, r = some ip ∧ At b ((ip, n) ::ₘ held) t) E v := by
          intro v hv
          rw [Multiset.cons_swap] at hv
          exact wp_mono (fun _ _ hu => .inr ⟨ip, n, hu⟩) (fun _ he => he) (wp_iput_drop (some ip) hv)
        apply wp_ite
        · intro _
          apply wp_ite
          · intro _
            rw [wp_bind, wp_get, wp_bind, wp_setInode]
            exact hdrop (ht.inode _)
          · intro _
            exact hdrop ht
        · intro _
          exact hnone (wp_createFail ht)
    · -- The name is taken.
      rw [Multiset.cons_swap] at hat
      apply wp_call (wp_iput hat)
      intro _ t ht
      apply wp_call (wp_ilock ht.1 (Multiset.mem_cons_self _ _) (.inr (hE _ (by decide))))
      intro i t ht
      apply wp_ite
      · intro _
        exact .inr ⟨ip, _, rfl, ht.2.1⟩
      · intro _
        exact hnone (wp_iput_drop none ht.2.1)

end Create

section Names

variable {b w : World} {held : Held} {ip dp : Id} {n d : Nat} {E : Panic → Prop}

theorem wp_linkBad (h : At b ((ip, n) ::ₘ held) w) (hE : Lax E) :
    wp (linkBad ip) (fun _ t => At b held t) E w := by
  unfold linkBad
  apply wp_call (wp_ilock h (Multiset.mem_cons_self _ _) (.inr (hE _ (by decide))))
  intro i t ht
  rw [wp_bind, wp_get, wp_bind, wp_setInode]
  exact wp_mono (fun _ _ hu => hu.2) (fun _ he => he) (wp_iput_drop none (ht.2.1.inode _))

theorem wp_sysLink (h : At b held w) (hroom : Room b (held.card + 2) ∨ E .noInodes) (hE : Lax E)
    (p : Pid) (old new : List UInt8) (env : Env) :
    wp (sysLink p old new env) (fun _ t => At b held t) E w := by
  unfold sysLink namei nameiparent
  apply wp_call (wp_namex false h (hroom.imp_left fun hr => hr.mono (by omega))
    (.inr (hE _ (by decide))) (.inr (hE _ (by decide))) old _)
  intro r t ht
  obtain ⟨m, ⟨rfl, -, hat⟩ | ⟨ip, name, n, rfl, -, hat⟩, -⟩ := ht
  · exact hat
  · dsimp only
    apply wp_call (wp_ilock hat (Multiset.mem_cons_self _ _) (.inr (hE _ (by decide))))
    intro i t ht
    apply wp_ite
    · intro _
      exact wp_mono (fun _ _ hu => hu.2) (fun _ he => he) (wp_iput_drop none ht.2.1)
    · intro _
      rw [wp_bind, wp_get, wp_bind, wp_setInode]
      apply wp_call (wp_namex true (ht.2.1.inode _) (by rwa [Multiset.card_cons])
        (.inr (hE _ (by decide))) (.inr (hE _ (by decide))) new _)
      intro r t ht
      obtain ⟨m, ⟨rfl, -, hat⟩ | ⟨dp, name, d, rfl, -, hat⟩, -⟩ := ht
      · exact wp_linkBad hat hE
      · dsimp only
        apply wp_call (wp_ilock hat (Multiset.mem_cons_self _ _) (.inr (hE _ (by decide))))
        intro _ t ht
        rw [wp_bind, wp_get]
        apply wp_call (wp_dirlink ht.2.1 (Multiset.mem_cons_self _ _)
          (by simpa only [Multiset.card_cons, Nat.add_assoc] using hroom)
          (.inr (hE _ (by decide))) name _ _)
        intro r t ht
        apply wp_ite
        · intro _
          apply wp_call (wp_iput ht.1)
          intro _ u hu
          exact wp_mono (fun _ _ hv => hv.2) (fun _ he => he) (wp_iput_drop (some 0) hu.1)
        · intro _
          exact wp_call (wp_iput ht.1) fun _ u hu => wp_linkBad hu.1 hE

theorem wp_sysUnlink (h : At b held w) (hroom : Room b (held.card + 1) ∨ E .noInodes) (hE : Lax E)
    (p : Pid) (path : List UInt8) (env : Env) :
    wp (sysUnlink p path env) (fun _ t => At b held t) E w := by
  have hdrop : ∀ {v : World} {jp : Id} {k : Nat} (a : Option Nat), At b ((jp, k) ::ₘ held) v →
      wp (iput jp >>= fun _ => pure a) (fun _ t => At b held t) E v := fun a hv =>
    wp_mono (fun _ _ hu => hu.2) (fun _ he => he) (wp_iput_drop a hv)
  unfold sysUnlink nameiparent
  apply wp_call (wp_namex true h hroom (.inr (hE _ (by decide))) (.inr (hE _ (by decide))) path _)
  intro r t ht
  obtain ⟨m, ⟨rfl, -, hat⟩ | ⟨dp, name, d, rfl, -, hat⟩, -⟩ := ht
  · exact hat
  · dsimp only
    apply wp_call (wp_ilock hat (Multiset.mem_cons_self _ _) (.inr (hE _ (by decide))))
    intro _ t ht
    apply wp_ite
    · intro _
      exact hdrop none ht.2.1
    · intro _
      apply wp_call (wp_dirlookup ht.2.1 (Multiset.mem_cons_self _ _)
        (by rwa [Multiset.card_cons]) (.inr (hE _ (by decide))) name)
      intro r t ht
      obtain ⟨-, ⟨rfl, -, hat⟩ | ⟨ip, off, de, rfl, -, -, -, hat⟩⟩ := ht
      · exact hdrop none hat
      · dsimp only
        apply wp_call (wp_ilock hat (Multiset.mem_cons_self _ _) (.inr (hE _ (by decide))))
        intro i t ht
        apply wp_ite
        · intro _
          exact hE _ (by decide)
        · intro _
          apply wp_ite
          · intro _
            exact wp_call (wp_iput ht.2.1) fun _ u hu => hdrop none hu.1
          · intro _
            have hswap := ht.2.1
            rw [Multiset.cons_swap] at hswap
            rw [wp_bind, wp_get, wp_bind, wp_setInode]
            apply wp_call (wp_iput (hswap.inode _))
            intro _ u hu
            rw [wp_bind, wp_get, wp_bind, wp_setInode]
            exact hdrop (some 0) (hu.1.inode _)

end Names

end Xv6.Names
