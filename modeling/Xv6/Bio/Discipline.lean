import Xv6.Bio.Model

/-!
# What routines do with their buffers

A routine works on buffers it has got from `bread`, and whatever it stores into one
it passes to `log_write` (or, inside `commit`, to `bwrite`) before `brelse`. The
one exception is a `copyin` that fails after copying part of its bytes; the
specification below is for copies that fail before they have copied anything.
-/
namespace Xv6.Bio

set_option autoImplicit false

open Xv6.Lib Xv6.Lib.Prog Function
open Xv6.Fs (Op Routine Dinode Src bread load store bwrite bunpin brelse header clear)
open Xv6.Log (Conf putHeader)

/-- A locked buffer: as the log and the disk have it, changed since, or as on disk. -/
inductive Status where
  | clean
  | dirty
  | synced
  deriving DecidableEq

/-- The buffers a process has locked, with their block numbers. -/
abbrev Held := BufId → Option (Nat × Status)

/-- What a process knows: its buffers and, if it is committing, `log.lh` and how many
of its blocks it has copied home. -/
@[ext] structure Ghost where
  held : Held
  log : Option (List Nat × Nat)

namespace Ghost

def set (g : Ghost) (i : BufId) (x : Nat × Status) : Ghost :=
  { g with held := update g.held i (some x) }

def unset (g : Ghost) (i : BufId) : Ghost := { g with held := update g.held i none }

variable (g : Ghost) (i : BufId) (x y : Nat × Status)

@[simp] theorem set_held_self : (g.set i x).held i = some x := update_self ..

theorem set_held_ne {j : BufId} (h : j ≠ i) : (g.set i x).held j = g.held j :=
  update_of_ne h _ _

@[simp] theorem set_log : (g.set i x).log = g.log := rfl

@[simp] theorem set_set : (g.set i x).set i y = g.set i y := by
  simp [set, update_idem]

theorem unset_set (h : g.held i = none) : (g.set i x).unset i = g := by
  unfold set unset
  rw [update_idem, ← h, update_eq_self]

end Ghost

def spec : Spec (Op BufId) Op.Ans Ghost
  | .bread b, Q, g => ∀ i, g.held i = none → Q i (g.set i (b, .clean))
  | .load _, Q, g => ∀ x, Q x g
  | .store i _, Q, g => ∃ b st, g.held i = some (b, st) ∧ Q () (g.set i (b, .dirty))
  | .copyin i _ _, Q, g =>
    ∃ b st, g.held i = some (b, st) ∧ Q true (g.set i (b, .dirty)) ∧ Q false g
  | .copyout _, Q, g => ∀ ok, Q ok g
  | .logWrite i, Q, g =>
    g.log = none ∧ ∃ b st, g.held i = some (b, st) ∧ Q () (g.set i (b, .clean))
  | .bwrite i, Q, g =>
    g.log ≠ none ∧ ∃ b st, g.held i = some (b, st) ∧ Q () (g.set i (b, .synced))
  | .bunpin i, Q, g =>
    ∃ lh n, g.log = some (lh, n) ∧ n < lh.length ∧ g.held i = some (lh.getD n 0, .synced) ∧
      Q () { g with log := some (lh, n + 1) }
  | .brelse i, Q, g => ∃ b st, g.held i = some (b, st) ∧ st ≠ .dirty ∧ Q () (g.unset i)
  | .header, Q, g => ∃ lh n, g.log = some (lh, n) ∧ Q lh g
  | .clear, Q, g => ∃ lh, g.log = some (lh, lh.length) ∧ Q () { g with log := some ([], 0) }
  | .panic _, _, _ => True

theorem spec_mono : spec.Monotone := by
  intro e Q Q' g hQ h
  cases e with
  | bread b => intro i hi; exact hQ _ _ (h i hi)
  | load i => intro x; exact hQ _ _ (h x)
  | store i x => obtain ⟨b, st, hi, hq⟩ := h; exact ⟨b, st, hi, hQ _ _ hq⟩
  | copyin i off n => obtain ⟨b, st, hi, ht, hf⟩ := h; exact ⟨b, st, hi, hQ _ _ ht, hQ _ _ hf⟩
  | copyout n => intro ok; exact hQ _ _ (h ok)
  | logWrite i => obtain ⟨hl, b, st, hi, hq⟩ := h; exact ⟨hl, b, st, hi, hQ _ _ hq⟩
  | bwrite i => obtain ⟨hl, b, st, hi, hq⟩ := h; exact ⟨hl, b, st, hi, hQ _ _ hq⟩
  | bunpin i => obtain ⟨lh, n, hl, hn, hi, hq⟩ := h; exact ⟨lh, n, hl, hn, hi, hQ _ _ hq⟩
  | brelse i => obtain ⟨b, st, hi, hst, hq⟩ := h; exact ⟨b, st, hi, hst, hQ _ _ hq⟩
  | header => obtain ⟨lh, n, hl, hq⟩ := h; exact ⟨lh, n, hl, hQ _ _ hq⟩
  | clear => obtain ⟨lh, hl, hq⟩ := h; exact ⟨lh, hl, hQ _ _ hq⟩
  | panic m => exact trivial

/-- A routine that gives back every buffer it takes. -/
def Tidy {α : Type} (c : Routine BufId α) : Prop :=
  ∀ g : Ghost, g.log = none → wp spec c (fun _ g' => g' = g) g

section

variable {α β : Type}

theorem tidy_pure (a : α) : Tidy (pure a) := fun _ _ => rfl

theorem tidy_panic (m : Fs.Panic) : Tidy (Fs.panic m : Routine BufId α) := fun _ _ => trivial

theorem Tidy.bind {c : Routine BufId α} {f : α → Routine BufId β} (hc : Tidy c)
    (hf : ∀ a, Tidy (f a)) : Tidy (c >>= f) := by
  intro g hg
  refine wp_call spec_mono (hc g hg) ?_
  rintro a _ rfl
  exact hf a _ hg

/-- A routine that works on one locked buffer and releases it. -/
def Releases (i : BufId) (c : Routine BufId α) : Prop :=
  ∀ (g : Ghost) (b : Nat), g.log = none → g.held i = some (b, .clean) →
    wp spec c (fun _ g' => g' = g.unset i) g

theorem tidy_bread {b : Nat} {f : BufId → Routine BufId β} (hf : ∀ i, Releases i (f i)) :
    Tidy (bread b >>= f) := by
  intro g hg i hi
  refine wp_mono spec_mono ?_ (hf i (g.set i (b, .clean)) b hg (Ghost.set_held_self ..))
  rintro a _ rfl
  exact g.unset_set i _ hi

variable {i : BufId}

theorem Releases.load {f : Block → Routine BufId β} (hf : ∀ x, Releases i (f x)) :
    Releases i (Fs.load i >>= f) := fun g b hg hi x => hf x g b hg hi

/-- A tidy routine in between leaves the locked buffer as it is. -/
theorem Releases.call {c : Routine BufId α} {f : α → Routine BufId β} (hc : Tidy c)
    (hf : ∀ a, Releases i (f a)) : Releases i (c >>= f) := by
  intro g b hg hi
  refine wp_call spec_mono (hc g hg) ?_
  rintro a _ rfl
  exact hf a _ b hg hi

theorem Releases.brelse {f : Unit → Routine BufId β} (hf : Tidy (f ())) :
    Releases i (Fs.brelse i >>= f) := by
  intro g b hg hi
  exact ⟨b, .clean, hi, by decide, hf (g.unset i) hg⟩

theorem unset_of_set {g : Ghost} {b : Nat} {st : Status} : (g.set i (b, st)).unset i = g.unset i := by
  simp [Ghost.set, Ghost.unset, update_idem]

/-- `store` and `log_write`, as one update of the buffer. -/
theorem Releases.update {x : Block} {f : Unit → Routine BufId β} (hf : Releases i (f ())) :
    Releases i (Fs.store i x >>= fun _ => Fs.logWrite i >>= f) := by
  intro g b hg hi
  refine ⟨b, .clean, hi, hg, b, .dirty, Ghost.set_held_self .., ?_⟩
  have h := hf ((g.set i (b, .dirty)).set i (b, .clean)) b hg (Ghost.set_held_self ..)
  refine wp_mono spec_mono ?_ h
  rintro a _ rfl
  rw [Ghost.set_set, unset_of_set]

theorem Releases.brelse_last : Releases i (Fs.brelse i) := by
  intro g b _ hi
  exact ⟨b, .clean, hi, by decide, rfl⟩

end

/-! ## The routines of `fs.c` -/

variable (sb : Superblock)

theorem tidy_bzero (b : Nat) : Tidy (Fs.bzero b) :=
  tidy_bread fun _ => Releases.update .brelse_last

theorem tidy_ballocLoop (n b : Nat) : Tidy (Fs.ballocLoop sb n b) := by
  induction n generalizing b with
  | zero => exact tidy_pure 0
  | succ n ih =>
    refine tidy_bread fun i => Releases.load fun x => ?_
    split
    · exact Releases.update (Releases.brelse ((tidy_bzero _).bind fun _ => tidy_pure _))
    · exact Releases.brelse (ih _)

theorem tidy_balloc : Tidy (Fs.balloc sb) := tidy_ballocLoop sb _ 0

theorem tidy_bfree (b : Nat) : Tidy (Fs.bfree sb b) := by
  refine tidy_bread fun i => Releases.load fun x => ?_
  split
  · exact fun _ _ _ _ => trivial
  · exact Releases.update .brelse_last

theorem tidy_iallocLoop (type n inum : Nat) : Tidy (Fs.iallocLoop sb type n inum) := by
  induction n generalizing inum with
  | zero => exact tidy_pure none
  | succ n ih =>
    refine tidy_bread fun i => Releases.load fun x => ?_
    split
    · exact Releases.update (Releases.brelse (tidy_pure _))
    · exact Releases.brelse (ih _)

theorem tidy_iupdate (inum : Nat) (ip : Dinode) : Tidy (Fs.iupdate sb inum ip) :=
  tidy_bread fun _ => Releases.load fun _ => Releases.update .brelse_last

theorem tidy_readInode (inum : Nat) : Tidy (Fs.readInode sb inum) :=
  tidy_bread fun _ => Releases.load fun _ => Releases.brelse (tidy_pure _)

theorem tidy_bmapAddr (ip : Dinode) (i : Nat) : Tidy (Fs.bmapAddr sb ip i) := by
  unfold Fs.bmapAddr
  split
  · refine (tidy_balloc sb).bind fun addr => ?_
    split <;> exact tidy_pure _
  · exact tidy_pure _

theorem tidy_bmapEntry (ind j : Nat) : Tidy (Fs.bmapEntry sb ind j) := by
  refine tidy_bread fun i => Releases.load fun x => ?_
  split
  · refine Releases.call (tidy_balloc sb) fun addr => ?_
    split
    · exact Releases.update (Releases.brelse (tidy_pure _))
    · exact Releases.brelse (tidy_pure _)
  · exact Releases.brelse (tidy_pure _)

theorem tidy_bmap (ip : Dinode) (bn : Nat) : Tidy (Fs.bmap sb ip bn) := by
  unfold Fs.bmap
  split
  · exact tidy_bmapAddr sb ip bn
  split
  · refine (tidy_bmapAddr sb ip _).bind ?_
    rintro ⟨ip, ind⟩
    dsimp only
    split
    · exact tidy_pure _
    · refine Tidy.bind ?_ fun addr => ?_
      · exact tidy_bmapEntry sb _ _
      · exact tidy_pure _
  · exact tidy_panic _

theorem tidy_itruncDirect (n i : Nat) (ip : Dinode) : Tidy (Fs.itruncDirect sb n i ip) := by
  induction n generalizing i ip with
  | zero => exact tidy_pure ip
  | succ n ih =>
    unfold Fs.itruncDirect
    split
    · exact (tidy_bfree sb _).bind fun _ => ih _ _
    · exact ih _ _

theorem tidy_freeEntries (as : List Nat) : Tidy (Fs.freeEntries sb as) := by
  induction as with
  | nil => exact tidy_pure ()
  | cons a as ih =>
    unfold Fs.freeEntries
    split
    · exact (tidy_bfree sb a).bind fun _ => ih
    · exact ih

theorem tidy_itrunc (inum : Nat) (ip : Dinode) : Tidy (Fs.itrunc sb inum ip) := by
  refine (tidy_itruncDirect sb _ _ ip).bind fun ip => Tidy.bind ?_ fun ip => ?_
  · unfold Fs.itruncIndirect
    split
    · refine tidy_bread fun i => Releases.load fun x => ?_
      refine Releases.call (tidy_freeEntries sb _) fun _ => Releases.brelse ?_
      exact (tidy_bfree sb _).bind fun _ => tidy_pure _
    · exact tidy_pure ip
  · exact (tidy_iupdate sb inum _).bind fun _ => tidy_pure _

theorem tidy_eitherCopyout (user : Bool) (n : Nat) : Tidy (Fs.eitherCopyout user n) := by
  unfold Fs.eitherCopyout
  split
  · exact fun g _ ok => rfl
  · exact tidy_pure true

theorem tidy_readiLoop (user : Bool) (n fuel : Nat) (ip : Dinode) (tot off : Nat)
    (acc : List UInt8) : Tidy (Fs.readiLoop sb user n fuel ip tot off acc) := by
  induction fuel generalizing ip tot off acc with
  | zero => exact tidy_pure _
  | succ fuel ih =>
    unfold Fs.readiLoop
    split
    · refine (tidy_bmap sb ip _).bind ?_
      rintro ⟨ip, addr⟩
      dsimp only
      split
      · exact tidy_pure _
      refine tidy_bread fun i => Releases.load fun x => ?_
      refine Releases.call (tidy_eitherCopyout user _) fun ok => Releases.brelse ?_
      split
      · exact ih _ _ _ _
      · exact tidy_pure _
    · exact tidy_pure _

theorem tidy_readi (ip : Dinode) (user : Bool) (off n : Nat) : Tidy (Fs.readi sb ip user off n) := by
  unfold Fs.readi
  split
  · exact tidy_pure _
  · exact tidy_readiLoop sb user _ _ ip 0 off []

/-- The buffer of `writei`: a copy that succeeds is logged, one that fails has
changed nothing. -/
theorem releases_eitherCopyin {β : Type} {i : BufId} (off : Nat) (src : Src) (tot n : Nat)
    {f : Bool → Routine BufId β}
    (htrue : ∀ (g : Ghost) (b : Nat), g.log = none → g.held i = some (b, .dirty) →
      wp spec (f true) (fun _ g' => g' = g.unset i) g)
    (hfalse : Releases i (f false)) : Releases i (Fs.eitherCopyin i off src tot n >>= f) := by
  intro g b hg hi
  have hset : wp spec (f true) (fun _ g' => g' = g.unset i) (g.set i (b, .dirty)) := by
    have h := htrue (g.set i (b, .dirty)) b hg (Ghost.set_held_self ..)
    rw [unset_of_set] at h
    exact h
  cases src with
  | user => exact ⟨b, .clean, hi, hset, hfalse g b hg hi⟩
  | kernel bytes => exact fun x => ⟨b, .clean, hi, hset⟩

theorem tidy_writeiLoop (src : Src) (n fuel : Nat) (ip : Dinode) (tot off : Nat) :
    Tidy (Fs.writeiLoop sb src n fuel ip tot off) := by
  induction fuel generalizing ip tot off with
  | zero => exact tidy_pure _
  | succ fuel ih =>
    unfold Fs.writeiLoop
    split
    · refine (tidy_bmap sb ip _).bind ?_
      rintro ⟨ip, addr⟩
      dsimp only
      split
      · exact tidy_pure _
      refine tidy_bread fun i => releases_eitherCopyin _ src tot _ ?_ ?_
      · intro g b hg hi
        rw [if_pos rfl]
        refine ⟨hg, b, .dirty, hi, b, .clean, Ghost.set_held_self .., by decide, ?_⟩
        rw [unset_of_set]
        exact ih _ _ _ _ hg
      · rw [if_neg Bool.false_ne_true]
        exact Releases.brelse (tidy_pure _)
    · exact tidy_pure _

theorem tidy_writei (inum : Nat) (ip : Dinode) (src : Src) (off n : Nat) :
    Tidy (Fs.writei sb inum ip src off n) := by
  unfold Fs.writei
  split
  · exact tidy_pure _
  split
  · exact tidy_pure _
  refine (tidy_writeiLoop sb src n n ip 0 off).bind ?_
  rintro ⟨ip, tot, off⟩
  exact (tidy_iupdate sb inum _).bind fun _ => tidy_pure _

theorem tidy_call (f : Call) : Tidy (f.body sb) := by
  cases f with
  | readi ip user off n => exact (tidy_readi sb ip user off n).bind fun _ => tidy_pure _
  | writei inum ip src off n => exact (tidy_writei sb inum ip src off n).bind fun _ => tidy_pure _
  | balloc => exact (tidy_balloc sb).bind fun _ => tidy_pure _
  | bfree b => exact tidy_bfree sb b
  | ialloc type => exact (tidy_iallocLoop sb type _ _).bind fun _ => tidy_pure _
  | iupdate inum ip => exact tidy_iupdate sb inum ip
  | bmap ip bn => exact (tidy_bmap sb ip bn).bind fun _ => tidy_pure _
  | itrunc inum ip => exact (tidy_itrunc sb inum ip).bind fun _ => tidy_pure _
  | readInode inum => exact (tidy_readInode sb inum).bind fun _ => tidy_pure _

/-! ## Commit -/

variable (c : Conf)

/-- Releasing the two buffers that were taken leaves the others. -/
theorem unset_both {g g' : Ghost} {i j : BufId} (hi : g.held i = none) (hj : g.held j = none)
    (hlog : g'.log = g.log) (hoff : ∀ l, l ≠ i → l ≠ j → g'.held l = g.held l) :
    (g'.unset i).unset j = g := by
  refine Ghost.ext (funext fun l => ?_) hlog
  change update (update g'.held i none) j none l = g.held l
  by_cases hlj : l = j
  · subst hlj; rw [update_self, hj]
  rw [update_of_ne hlj]
  by_cases hli : l = i
  · subst hli; rw [update_self, hi]
  · rw [update_of_ne hli, hoff l hli hlj]

/-- What is known after two `bread`s. -/
theorem held_both {g : Ghost} {i j : BufId} {x y : Nat × Status} (hj : (g.set i x).held j = none) :
    j ≠ i ∧ g.held j = none ∧ ((g.set i x).set j y).held i = some x := by
  have hij : j ≠ i := by rintro rfl; rw [Ghost.set_held_self] at hj; cases hj
  refine ⟨hij, ?_, ?_⟩
  · rwa [Ghost.set_held_ne _ _ _ hij] at hj
  · rw [Ghost.set_held_ne _ _ _ (Ne.symm hij), Ghost.set_held_self]

theorem wp_writeLog {lh : List Nat} {n : Nat} (k tail : Nat) {g : Ghost} (hg : g.log = some (lh, n)) :
    wp spec (writeLog c k tail) (fun _ g' => g' = g) g := by
  induction k generalizing tail with
  | zero => rfl
  | succ k ih =>
    refine ⟨lh, n, hg, ?_⟩
    change wp spec (if tail < lh.length then _ else _) _ g
    split
    · intro i hi j hj x
      obtain ⟨hij, hj', hhi⟩ := held_both (y := (lh.getD tail 0, .clean)) hj
      refine ⟨_, _, hhi, ?_, _, _, Ghost.set_held_self .., ?_⟩
      · rw [Ghost.set_log, Ghost.set_log, Ghost.set_log, hg]; rintro ⟨⟩
      rw [Ghost.set_set]
      refine ⟨lh.getD tail 0, .clean, ?_, by decide, c.start + tail + 1, .synced, ?_, by decide, ?_⟩
      · rw [Ghost.set_held_ne _ _ _ hij, Ghost.set_held_self]
      · exact (update_of_ne (Ne.symm hij) _ _).trans (Ghost.set_held_self ..)
      have hback : ((((g.set i (c.start + tail + 1, .clean)).set j (lh.getD tail 0, .clean)).set i
          (c.start + tail + 1, .synced)).unset j).unset i = g := by
        refine unset_both hj' hi rfl fun l hlj hli => ?_
        rw [Ghost.set_held_ne _ _ _ hli, Ghost.set_held_ne _ _ _ hlj, Ghost.set_held_ne _ _ _ hli]
      rw [hback]
      exact ih (tail + 1)
    · rfl

theorem wp_writeHead {lh : List Nat} {n : Nat} {g : Ghost} (hg : g.log = some (lh, n)) :
    wp spec (writeHead c) (fun _ g' => g' = g) g := by
  intro i hi
  refine ⟨lh, n, hg, fun x => ⟨_, _, Ghost.set_held_self .., ?_, _, _, Ghost.set_held_self .., ?_⟩⟩
  · rw [Ghost.set_log, Ghost.set_log, hg]; rintro ⟨⟩
  refine ⟨_, _, Ghost.set_held_self .., by decide, ?_⟩
  rw [Ghost.set_set, Ghost.set_set]
  exact g.unset_set i _ hi

theorem wp_installTrans {lh : List Nat} (k tail : Nat) {g : Ghost} (hg : g.log = some (lh, tail))
    (ht : tail ≤ lh.length) (hk : lh.length ≤ tail + k) :
    wp spec (installTrans c k tail) (fun _ g' => g' = { g with log := some (lh, lh.length) }) g := by
  induction k generalizing tail g with
  | zero =>
    have he : tail = lh.length := by omega
    change g = _
    rw [← he, ← hg]
  | succ k ih =>
    refine ⟨lh, tail, hg, ?_⟩
    change wp spec (if tail < lh.length then _ else _) _ g
    split
    · intro i hi j hj x
      obtain ⟨hij, hj', hhi⟩ := held_both (y := (lh.getD tail 0, .clean)) hj
      refine ⟨_, _, Ghost.set_held_self .., ?_, _, _, Ghost.set_held_self .., ?_⟩
      · rw [Ghost.set_log, Ghost.set_log, Ghost.set_log, hg]; rintro ⟨⟩
      rw [Ghost.set_set, Ghost.set_set]
      refine ⟨lh, tail, hg, ‹_›, Ghost.set_held_self .., c.start + tail + 1, .clean, ?_, by decide, ?_⟩
      · exact (Ghost.set_held_ne _ _ _ (Ne.symm hij)).trans (Ghost.set_held_self ..)
      refine ⟨lh.getD tail 0, .synced, ?_, by decide, ?_⟩
      · exact (update_of_ne hij _ _).trans (Ghost.set_held_self ..)
      have hback : (Ghost.unset { (g.set i (c.start + tail + 1, .clean)).set j
          (lh.getD tail 0, .synced) with log := some (lh, tail + 1) } i).unset j =
            { g with log := some (lh, tail + 1) } :=
        unset_both hi hj' rfl fun l hli hlj =>
          (Ghost.set_held_ne _ _ _ hlj).trans (Ghost.set_held_ne _ _ _ hli)
      change wp spec (installTrans c k (tail + 1)) _ (Ghost.unset (Ghost.unset _ i) j)
      rw [hback]
      exact ih (g := { g with log := some (lh, tail + 1) }) (tail + 1) rfl ‹_› (by omega)
    · have he : tail = lh.length := by omega
      change g = _
      rw [← he, ← hg]

/-- A commit leaves an empty log and no buffer locked that was not before. -/
theorem wp_commit {lh : List Nat} {g : Ghost} (hg : g.log = some (lh, 0))
    (hlen : lh.length ≤ LOGSIZE) :
    wp spec (commit c) (fun _ g' => g' = { g with log := some ([], 0) }) g := by
  refine ⟨lh, 0, hg, ?_⟩
  change wp spec (if 0 < lh.length then _ else _) _ g
  split
  · refine wp_call spec_mono (wp_writeLog c LOGSIZE 0 hg) ?_
    rintro _ _ rfl
    refine wp_call spec_mono (wp_writeHead c hg) ?_
    rintro _ _ rfl
    refine wp_call spec_mono (wp_installTrans c LOGSIZE 0 hg (Nat.zero_le _) (by omega)) ?_
    rintro _ _ rfl
    exact ⟨lh, rfl, wp_writeHead c rfl⟩
  · have he : lh = [] := List.length_eq_zero_iff.mp (by omega)
    subst he
    change g = _
    rw [← hg]

end Xv6.Bio
