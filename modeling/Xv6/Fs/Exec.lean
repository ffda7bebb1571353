import Xv6.Fs.Refs
import Mathlib.Data.List.Nodup

/-!
# Running the routines of `kernel/fs.c` alone

One routine after the other runs on the disk as the buffer cache shows it, so that a buffer
is the number of its block. `user` has what the copies from and to user memory will do:
the bytes that are copied in, and whether the copy succeeds. `logged` is `log.lh.block`.

What a routine does to the disk must not depend on what is in free blocks. `Runs` says so
together with what it says about one run: a run from a disk that differs in free blocks
only goes the same way.
-/
namespace Xv6.Fs

set_option autoImplicit false

open Xv6.Lib Xv6.Lib.Prog Function

structure Io where
  disk : Disk
  user : List (List UInt8 × Bool)
  /-- A transaction is open. -/
  trans : Bool
  logged : List Nat

inductive Stop where
  | panic (m : Panic)
  /-- `log_write` outside of a transaction. -/
  | logWrite
  deriving DecidableEq, Repr

/-- The loop of `log_write`, which records a block once. -/
def absorb (bs : List Nat) (b : Nat) : List Nat := if b ∈ bs then bs else bs ++ [b]

namespace Io

variable (s : Io)

/-- What the next copy does. -/
def copy : List UInt8 × Bool := s.user.headD ([], true)

def next : Io := { s with user := s.user.tail }

/-- The bytes that a copy of `n` bytes stores: all of them, or as many as it got. -/
def copied (n : Nat) : List UInt8 :=
  if s.copy.2 then (s.copy.1 ++ List.replicate n 0).take n else s.copy.1.take n

def setBlock (b : Nat) (x : Block) : Io := { s with disk := update s.disk b x }

def record (b : Nat) : Io := { s with logged := absorb s.logged b }

end Io

def doOp : (e : Op Nat) → Io → Except Stop (e.Ans × Io)
  | .bread b, s => .ok (b, s)
  | .load b, s => .ok (s.disk b, s)
  | .store b x, s => .ok ((), s.setBlock b x)
  | .copyin b off n, s =>
    .ok (s.copy.2, s.next.setBlock b (putBytes (s.disk b) off (s.copied n)))
  | .copyout _, s => .ok (s.copy.2, s.next)
  | .logWrite b, s => if s.trans then .ok ((), s.record b) else .error .logWrite
  | .bwrite _, s => .ok ((), s)
  | .bunpin _, s => .ok ((), s)
  | .brelse _, s => .ok ((), s)
  | .header, s => .ok ([], s)
  | .clear, s => .ok ((), s)
  | .panic m, _ => .error (.panic m)

def exec {α : Type} : Routine Nat α → Io → Except Stop (α × Io)
  | .ret a, s => .ok (a, s)
  | .op e k, s =>
    match doOp e s with
    | .ok (r, s') => exec (k r) s'
    | .error m => .error m

/-- The operations as they run; a routine may stop with `E`. -/
def ioSpec (E : Stop → Prop) : Spec (Op Nat) Op.Ans Io := fun e Q s =>
  match doOp e s with
  | .ok (r, s') => Q r s'
  | .error m => E m

theorem exec_bind {α β : Type} (p : Routine Nat α) (f : α → Routine Nat β) (s : Io) :
    exec (p >>= f) s = (exec p s).bind fun r => exec (f r.1) r.2 := by
  induction p generalizing s with
  | ret a => rfl
  | op e k ih =>
    rw [op_bind, exec, exec]
    split
    · exact ih _ _
    · rfl

/-! ## Free blocks -/

variable (sb : Superblock)

/-- A data block that the bitmap has as free. -/
def FreeBlock (d : Disk) (b : Nat) : Prop := IsData sb b ∧ (view sb d).used b = false

/-- `t` is `s` up to what is in free blocks. -/
structure Twin (s t : Io) : Prop where
  user : t.user = s.user
  trans : t.trans = s.trans
  logged : t.logged = s.logged
  disk : ∀ b, FreeBlock sb s.disk b ∨ t.disk b = s.disk b

/-- From `s` the routine ends with `Q`, or stops with `E`, and so it does from the twins. -/
def Runs {α : Type} (E : Stop → Prop) (p : Routine Nat α) (Q : α → Io → Prop) (s : Io) : Prop :=
  match exec p s with
  | .ok (a, t) => Q a t ∧ ∀ s', Twin sb s s' → ∃ t', exec p s' = .ok (a, t') ∧ Twin sb t t'
  | .error m => E m ∧ ∀ s', Twin sb s s' → exec p s' = .error m

/-- From `s` to `t` blocks in `A` have been logged, and all that changed but those in `X`. -/
structure Logs (A X : Nat → Prop) (s t : Io) : Prop where
  inTrans : t.trans = s.trans
  keep : ∀ b ∈ s.logged, b ∈ t.logged
  only : ∀ b ∈ t.logged, b ∈ s.logged ∨ A b
  all : ∀ b, t.disk b = s.disk b ∨ b ∈ t.logged ∨ X b
  nodup : s.logged.Nodup → t.logged.Nodup

/-- From `s` to `t` blocks in `A` have been logged, all that changed among them, and nothing
has been copied from or to user memory. -/
structure Saves (A : Nat → Prop) (s t : Io) : Prop extends Logs A (fun _ => False) s t where
  user : t.user = s.user

section

variable {sb} {α β : Type} {E : Stop → Prop} {p q : Routine Nat α} {Q Q' : α → Io → Prop}
  {s t u : Io} {b : Nat} {x : Block}

theorem Twin.refl : Twin sb s s := ⟨rfl, rfl, rfl, fun _ => .inr rfl⟩

theorem Twin.eq (h : Twin sb s t) (hb : ¬FreeBlock sb s.disk b) : t.disk b = s.disk b :=
  (h.disk b).resolve_left hb

theorem Runs.elim (h : Runs sb E p Q s) :
    (∃ a t, exec p s = .ok (a, t) ∧ Q a t) ∨ ∃ m, exec p s = .error m ∧ E m := by
  unfold Runs at h
  split at h
  · rename_i a t heq
    exact .inl ⟨a, t, heq, h.1⟩
  · rename_i m heq
    exact .inr ⟨m, heq, h.1⟩

theorem Runs.pure {a : α} (h : Q a s) : Runs sb E (pure a) Q s :=
  ⟨h, fun s' hs' => ⟨s', rfl, hs'⟩⟩

theorem Runs.bind {f : β → Routine Nat α} {p : Routine Nat β}
    (h : Runs sb E p (fun a => Runs sb E (f a) Q) s) : Runs sb E (p >>= f) Q s := by
  unfold Runs at h
  unfold Runs
  rw [exec_bind]
  split at h
  · rename_i a t heq
    obtain ⟨hrest, htwin⟩ := h
    have hs' : ∀ s', Twin sb s s' → ∃ t', exec (p >>= f) s' = exec (f a) t' ∧ Twin sb t t' := by
      intro s' hs
      obtain ⟨t', ht', htw⟩ := htwin s' hs
      exact ⟨t', by rw [exec_bind, ht']; rfl, htw⟩
    rw [heq]
    change match exec (f a) t with
      | .ok (a, t) => _
      | .error m => _
    split at hrest
    · refine ⟨hrest.1, fun s' hs => ?_⟩
      obtain ⟨t', ht', htw⟩ := hs' s' hs
      rw [ht']
      exact hrest.2 t' htw
    · refine ⟨hrest.1, fun s' hs => ?_⟩
      obtain ⟨t', ht', htw⟩ := hs' s' hs
      rw [ht']
      exact hrest.2 t' htw
  · rename_i m heq
    rw [heq]
    refine ⟨h.1, fun s' hs => ?_⟩
    rw [exec_bind, h.2 s' hs]
    rfl

theorem Runs.ite {c : Prop} [Decidable c] (hp : c → Runs sb E p Q s) (hq : ¬c → Runs sb E q Q s) :
    Runs sb E (if c then p else q) Q s := by
  by_cases h : c
  · rw [if_pos h]
    exact hp h
  · rw [if_neg h]
    exact hq h

/-- Steps that take every twin to a twin. -/
theorem Runs.of_exec {g : Io → Io} (hp : ∀ t, Twin sb s t → exec p t = exec q (g t))
    (hg : ∀ t, Twin sb s t → Twin sb (g s) (g t)) (h : Runs sb E q Q (g s)) : Runs sb E p Q s := by
  unfold Runs at h ⊢
  rw [hp s .refl]
  split
  · rename_i a t heq
    rw [heq] at h
    refine ⟨h.1, fun s' hs => ?_⟩
    rw [hp s' hs]
    exact h.2 _ (hg s' hs)
  · rename_i m heq
    rw [heq] at h
    refine ⟨h.1, fun s' hs => ?_⟩
    rw [hp s' hs]
    exact h.2 _ (hg s' hs)

theorem runs_bread {k : Nat → Routine Nat α} (h : Runs sb E (k b) Q s) :
    Runs sb E (bread b >>= k) Q s := h

theorem runs_brelse {k : Unit → Routine Nat α} (h : Runs sb E (k ()) Q s) :
    Runs sb E (brelse b >>= k) Q s := h

theorem Runs.brelse {Q : Unit → Io → Prop} (h : Q () s) : Runs sb E (brelse b) Q s :=
  ⟨h, fun s' hs' => ⟨s', rfl, hs'⟩⟩

theorem runs_load {k : Block → Routine Nat α} (hb : ¬FreeBlock sb s.disk b)
    (h : Runs sb E (k (s.disk b)) Q s) : Runs sb E (load b >>= k) Q s :=
  .of_exec (g := id) (fun t ht => congrArg (fun x => exec (k x) t) (ht.eq hb)) (fun _ ht => ht) h

theorem Twin.record (h : Twin sb s t) : Twin sb (s.record b) (t.record b) where
  user := h.user
  trans := h.trans
  logged := by
    simp only [Io.record, h.logged]
  disk := h.disk

/-- A store keeps twins if no free block gets into use by it, but the one stored to. -/
theorem Twin.setBlock (h : Twin sb s t)
    (hfree : ∀ c ≠ b, FreeBlock sb s.disk c → FreeBlock sb (update s.disk b x) c) :
    Twin sb (s.setBlock b x) (t.setBlock b x) where
  user := h.user
  trans := h.trans
  logged := h.logged
  disk c := by
    by_cases hc : c = b
    · subst hc
      right
      simp only [Io.setBlock, update_self]
    · refine (h.disk c).imp (hfree c hc) fun he => ?_
      simp only [Io.setBlock, update_of_ne hc, he]

theorem runs_store {k : Unit → Routine Nat α}
    (hfree : ∀ c ≠ b, FreeBlock sb s.disk c → FreeBlock sb (update s.disk b x) c)
    (h : Runs sb E (k ()) Q (s.setBlock b x)) : Runs sb E (store b x >>= k) Q s :=
  .of_exec (g := fun t => t.setBlock b x) (fun _ _ => rfl) (fun _ htw => htw.setBlock hfree) h

theorem exec_logWrite (k : Unit → Routine Nat α) (ht : s.trans = true) :
    exec (logWrite b >>= k) s = exec (k ()) (s.record b) := by
  change exec (.op (.logWrite b) k) s = _
  simp only [exec, doOp, if_pos ht]

theorem runs_logWrite {k : Unit → Routine Nat α} (ht : s.trans = true)
    (h : Runs sb E (k ()) Q (s.record b)) : Runs sb E (logWrite b >>= k) Q s :=
  .of_exec (g := fun t => t.record b) (fun _ htw => exec_logWrite k (htw.trans.trans ht))
    (fun _ htw => htw.record) h

theorem Twin.copy (h : Twin sb s t) : t.copy = s.copy := by
  rw [Io.copy, Io.copy, h.user]

theorem Twin.next (h : Twin sb s t) : Twin sb s.next t.next :=
  ⟨congrArg List.tail h.user, h.trans, h.logged, h.disk⟩

theorem runs_copyout {n : Nat} {k : Bool → Routine Nat α} (h : Runs sb E (k s.copy.2) Q s.next) :
    Runs sb E (eitherCopyout true n >>= k) Q s :=
  .of_exec (g := Io.next) (fun _ ht => by rw [← ht.copy]; rfl) (fun _ ht => ht.next) h

/-- A copy that fails is one of the coming ones. -/
theorem Io.exists_bad (s : Io) (h : ¬s.copy.2 = true) : ∃ c ∈ s.user, c.2 = false := by
  unfold Io.copy at h
  cases hu : s.user with
  | nil => simp [hu] at h
  | cons c cs =>
    rw [hu] at h
    exact ⟨c, List.mem_cons_self, Bool.not_eq_true _ ▸ h⟩

/-- A store that is logged. -/
theorem runs_save {k : Unit → Routine Nat α} (ht : s.trans = true)
    (hfree : ∀ c ≠ b, FreeBlock sb s.disk c → FreeBlock sb (update s.disk b x) c)
    (h : Runs sb E (k ()) Q ((s.setBlock b x).record b)) :
    Runs sb E (store b x >>= fun _ => logWrite b >>= k) Q s := by
  refine .of_exec (g := fun t => (t.setBlock b x).record b) (fun t htw => ?_)
    (fun t htw => (htw.setBlock hfree).record) h
  exact exec_logWrite k (s := t.setBlock b x) (htw.trans.trans ht)

/-! ## What is logged -/

variable {A A' X : Nat → Prop}

theorem Logs.refl : Logs A X s s :=
  ⟨rfl, fun _ h => h, fun _ h => .inl h, fun _ => .inl rfl, fun h => h⟩

theorem Logs.trans (h : Logs A X s t) (h' : Logs A X t u) : Logs A X s u where
  inTrans := h'.inTrans.trans h.inTrans
  keep b hb := h'.keep b (h.keep b hb)
  only b hb := (h'.only b hb).elim (h.only b) .inr
  all b := by
    rcases h'.all b with h1 | h1 | h1
    · rcases h.all b with h2 | h2 | h2
      · exact .inl (h1.trans h2)
      · exact .inr (.inl (h'.keep b h2))
      · exact .inr (.inr h2)
    · exact .inr (.inl h1)
    · exact .inr (.inr h1)
  nodup hn := h'.nodup (h.nodup hn)

theorem Logs.weaken (h : Logs A X s t) (hA : ∀ b, A b → A' b) : Logs A' X s t :=
  ⟨h.inTrans, h.keep, fun b hb => (h.only b hb).imp_right (hA b), h.all, h.nodup⟩

theorem Logs.exempt {X' : Nat → Prop} (h : Logs A X s t) (hX : ∀ b, X b → X' b) : Logs A X' s t :=
  ⟨h.inTrans, h.keep, h.only, fun b => (h.all b).imp_right (.imp_right (hX b)), h.nodup⟩

theorem mem_record {c : Nat} : c ∈ (s.record b).logged ↔ c ∈ s.logged ∨ c = b := by
  unfold Io.record absorb
  dsimp only
  split
  · rename_i hb
    constructor
    · exact .inl
    · rintro (h | rfl)
      · exact h
      · exact hb
  · simp

theorem Logs.save (hA : A b) : Logs A X s ((s.setBlock b x).record b) where
  inTrans := rfl
  keep c hc := mem_record.mpr (.inl hc)
  only c hc := (mem_record.mp hc).imp_right fun (h : c = b) => h ▸ hA
  all c := by
    by_cases hc : c = b
    · exact .inr (.inl (mem_record.mpr (.inr hc)))
    · exact .inl (update_of_ne hc ..)
  nodup hn := by
    change (absorb s.logged b).Nodup
    unfold absorb
    split
    · exact hn
    · rename_i hb
      rw [← List.concat_eq_append]
      exact List.Nodup.concat hb hn

/-- A block that has been changed is logged. -/
theorem Logs.record (h : Logs A X s t) (hA : A b) (hX : ∀ c, X c → c = b) :
    Logs A (fun _ => False) s (t.record b) where
  inTrans := h.inTrans
  keep c hc := mem_record.mpr (.inl (h.keep c hc))
  only c hc := (mem_record.mp hc).elim (h.only c) fun (he : c = b) => .inr (he ▸ hA)
  all c := by
    rcases h.all c with h1 | h1 | h1
    · exact .inl h1
    · exact .inr (.inl (mem_record.mpr (.inl h1)))
    · exact .inr (.inl (mem_record.mpr (.inr (hX c h1))))
  nodup hn := by
    change (absorb t.logged b).Nodup
    unfold absorb
    split
    · exact h.nodup hn
    · rename_i hb
      rw [← List.concat_eq_append]
      exact List.Nodup.concat hb (h.nodup hn)

theorem Logs.of_setBlock (htrans : t.trans = s.trans) (hlogged : t.logged = s.logged)
    (hdisk : t.disk = (s.setBlock b x).disk) (hX : X b) : Logs A X s t where
  inTrans := htrans
  keep c hc := hlogged ▸ hc
  only c hc := .inl (hlogged ▸ hc)
  all c := by
    by_cases hc : c = b
    · exact .inr (.inr (hc ▸ hX))
    · left
      rw [hdisk]
      exact update_of_ne hc ..
  nodup hn := hlogged ▸ hn

theorem Saves.refl : Saves A s s := ⟨.refl, rfl⟩

theorem Saves.trans (h : Saves A s t) (h' : Saves A t u) : Saves A s u :=
  ⟨h.toLogs.trans h'.toLogs, h'.user.trans h.user⟩

theorem Saves.weaken (h : Saves A s t) (hA : ∀ b, A b → A' b) : Saves A' s t :=
  ⟨h.toLogs.weaken hA, h.user⟩

theorem Saves.save (hA : A b) : Saves A s ((s.setBlock b x).record b) := ⟨.save hA, rfl⟩

/-- What is logged by a routine is logged also where blocks of `X` may change without. -/
theorem Saves.logs (h : Saves A s t) : Logs A X s t := h.toLogs.exempt fun _ => False.elim

end

/-! ## The operations on any disk -/

section

variable {α : Type} {E : Stop → Prop} {Q : α → Io → Prop} {s : Io}

theorem wp_store {b : Nat} {x : Block} {k : Unit → Routine Nat α} :
    wp (ioSpec E) (store b x >>= k) Q s ↔ wp (ioSpec E) (k ()) Q (s.setBlock b x) := Iff.rfl

end

end Xv6.Fs
