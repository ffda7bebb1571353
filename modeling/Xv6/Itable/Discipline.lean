import Xv6.Itable.Model
import Mathlib.Data.Fintype.Basic

/-!
# What a process may rely on in the inode table

`itable.lock` protects the references and keys of entries, the sleep-lock of an inode the
rest of its entry. An entry does not go away under a process that owns a reference to it.
`spec` says for each operation what it needs to be known, and what is known afterwards;
every routine meets it.
-/
namespace Xv6.Itable

set_option autoImplicit false

open Xv6.Lib Xv6.Lib.Prog
open Xv6.Fs (Dinode)

/-- How far a process is with one entry. `last`: `iput` holds `itable.lock` and has found
the only reference. `freeing`: it has locked the inode to free it. `locked`: the inode is
locked and its changes are saved. `invalid` to `loaded`: `ilock` reads it from disk.
`ready`: `ilock` is done. -/
inductive Phase where
  | none
  | last (i : Id)
  | freeing (i : Id)
  | locked (i : Id)
  | invalid (i : Id)
  | read (i : Id) (d : Dinode)
  | filled (i : Id) (d : Dinode)
  | loaded (i : Id) (d : Dinode)
  | ready (i : Id)

/-- What a process knows: whether it holds `itable.lock`, the inodes it has locked, an
entry that it owns a reference to, one that it owns a reference to alone and is about to
drop. With `itable.lock` it knows that the entries `seen` do not hold the key `scan`, that
`empty` is free and that `live` is not. -/
structure Know where
  table : Bool
  hold : Finset Id
  want : Option Id
  put : Option Id
  scan : Option Key
  seen : Finset Id
  empty : Option Id
  live : Option Id
  phase : Phase

namespace Know

/-- Between two calls. -/
def idle (H : Finset Id) (ph : Phase) : Know := ⟨false, H, none, none, none, ∅, none, none, ph⟩

/-- With `itable.lock`, and nothing else to rely on. -/
def tabled (H : Finset Id) : Know := ⟨true, H, none, none, none, ∅, none, none, .none⟩

variable (g : Know)

/-- With `itable.lock`, to look for the key `k` or for none. -/
def acquire (k : Option Key) : Know :=
  ⟨true, g.hold, g.want, g.put, k, ∅, none, none, g.phase⟩

def release : Know := ⟨false, g.hold, none, g.put, none, ∅, none, none, g.phase⟩

end Know

/-- What a read of entry `i` cannot fail to show. -/
structure Fits (g : Know) (i : Id) (e : Inode) : Prop where
  want : g.want = some i → 0 < e.ref
  hold : i ∈ g.hold → 0 < e.ref
  loaded : ∀ d, g.phase = .loaded i d → e.din = d

/-- What can be learnt from a read of entry `i`. -/
inductive Learn (g : Know) (i : Id) (e : Inode) : Know → Prop
  | none : Learn g i e g
  | absent (k : Key) (ht : g.table = true) (hs : g.scan = some k) (he : ¬(0 < e.ref ∧ e.key = k)) :
      Learn g i e { g with
        seen := insert i g.seen
        empty := if g.empty = none ∧ e.ref = 0 then some i else g.empty }
  | live (ht : g.table = true) (he : 0 < e.ref) : Learn g i e { g with live := some i }
  | ready (hn : g.put = none) (hp : g.phase = .locked i) (hv : e.valid = true) :
      Learn g i e { g with phase := .ready i }
  | invalid (hn : g.put = none) (hp : g.phase = .locked i) (hv : e.valid = false) :
      Learn g i e { g with phase := .invalid i }
  | loaded (d : Dinode) (hp : g.phase = .loaded i d) (hd : d.type ≠ 0) :
      Learn g i e { g with phase := .ready i }

/-- The two uses of `acquiresleep`. -/
inductive Takes (g : Know) (i : Id) : Know → Prop
  | ilock (ht : g.table = false) (hw : g.want = some i) (hp : g.put = none)
      (hph : g.phase = .none) : Takes g i (.idle (insert i g.hold) (.locked i))
  | iput (hp : g.phase = .last i) :
      Takes g i { g with hold := insert i g.hold, phase := .freeing i }

def spec : Spec Op Op.Ans Know
  | .acquire, Q, g => g.table = false ∧ ∃ k, Q () (g.acquire k)
  | .release, Q, g => g.table = true ∧ (∀ i, g.phase ≠ .last i) ∧ Q () g.release
  | .inode i, Q, g => ∀ e, Fits g i e → ∃ g', Learn g i e g' ∧ Q e g'
  | .check i, Q, g => g.table = true ∧ g.put = some i ∧ g.phase = .none ∧
      ∀ e : Inode, Q e g ∨ e.ref = 1 ∧ Q e { g with phase := .last i }
  | .addRef i, Q, g => g.table = true ∧ (g.want = some i ∨ g.live = some i) ∧ g.phase = .none ∧
      Q () (.tabled g.hold)
  | .subRef i, Q, g => g.table = true ∧ g.put = some i ∧ g.phase = .none ∧
      Q () (.tabled g.hold)
  | .recycle i k, Q, g => g.table = true ∧ g.scan = some k ∧ g.seen = Finset.univ ∧
      g.empty = some i ∧ g.phase = .none ∧ Q () (.tabled g.hold)
  | .acquiresleep i, Q, g => ∃ g', Takes g i g' ∧ Q () g'
  | .releasesleep i, Q, g =>
    g.phase = .locked i ∧ Q () { g with hold := g.hold.erase i, phase := .none }
  | .holdingsleep i, Q, g => Q (decide (i ∈ g.hold)) g
  | .dinode i, Q, g => g.phase = .invalid i ∧ ∀ d, Q d { g with phase := .read i d }
  | .setDin i d, Q, g => g.phase = .read i d ∧ Q () { g with phase := .filled i d } ∨
      g.phase = .freeing i ∧ Q () g
  | .setValid i v, Q, g => v = true ∧ (∃ d, g.phase = .filled i d ∧ Q () { g with phase := .loaded i d }) ∨
      v = false ∧ g.phase = .freeing i ∧ Q () { g with phase := .locked i }
  | .iupdate i, Q, g => i ∈ g.hold ∧ (g.phase = .none ∨ g.phase = .freeing i) ∧ Q () g
  | .claim _ _, Q, g => ∀ b, Q b g
  | .panic m, _, _ => m = .noInodes ∨ m = .noType

/-! ## The routines -/

/-- Between two calls, with the inodes that are locked. -/
def Idle (_ : Unit) (g : Know) : Prop := ∃ H, g = .idle H .none

/-- What is known when a call returns. -/
def fin : Option Call → Unit → Know → Prop
  | some (.ilock i) => fun _ g => ∃ H, g = .idle H (.ready i)
  | _ => Idle

/-- What is known when a call starts. -/
def Call.start (H : Finset Id) : Call → Know
  | .idup ip => { Know.idle H .none with want := some ip }
  | .ilock ip => { Know.idle H .none with want := some ip }
  | .iunlock ip => .idle H (.locked ip)
  | .iput ip => { Know.idle H .none with put := some ip }
  | _ => .idle H .none

theorem igetLoop_cons (k : Key) (empty : Option Id) (ip : Id) (ips : List Id) :
    igetLoop k empty (ip :: ips) = inode ip >>= fun e =>
      if 0 < e.ref ∧ e.key = k then addRef ip >>= fun _ => release
      else igetLoop k (if empty = none ∧ e.ref = 0 then some ip else empty) ips := by
  cases empty <;> rfl

section

variable {H : Finset Id}

/-- The loop of `iget` once the slots `seen` have been passed. -/
theorem wp_igetLoop (k : Key) (empty : Option Id) (seen : Finset Id) (ips : List Id)
    (hall : ∀ j ∉ ips, j ∈ seen) :
    wp spec (igetLoop k empty ips) Idle
      { Know.idle H .none with table := true, scan := some k, seen := seen, empty := empty } := by
  induction ips generalizing empty seen with
  | nil =>
    have huniv : seen = Finset.univ :=
      Finset.eq_univ_iff_forall.mpr fun j => hall j List.not_mem_nil
    cases empty with
    | none => exact .inl rfl
    | some ip => exact ⟨rfl, rfl, huniv, rfl, rfl, rfl, nofun, ⟨H, rfl⟩⟩
  | cons ip ips ih =>
    rw [igetLoop_cons]
    intro e _
    by_cases he : 0 < e.ref ∧ e.key = k
    · refine ⟨_, .live rfl he.1, wp_ite (fun _ => ?_) (absurd he)⟩
      exact ⟨rfl, .inr rfl, rfl, rfl, nofun, ⟨H, rfl⟩⟩
    · refine ⟨_, .absent k rfl rfl he, wp_ite (absurd · he) fun _ => ?_⟩
      apply ih
      intro j hj
      by_cases hjp : j = ip
      · exact Finset.mem_insert.mpr (.inl hjp)
      · exact Finset.mem_insert_of_mem (hall j (by simp [hjp, hj]))

theorem wp_iget (k : Key) : wp spec (iget k) Idle (.idle H .none) :=
  ⟨rfl, some k, wp_igetLoop k none ∅ ids fun j hj => absurd (List.mem_finRange j) hj⟩

theorem wp_idup (ip : Id) : wp spec (idup ip) Idle (Call.start H (.idup ip)) :=
  ⟨rfl, none, rfl, .inl rfl, rfl, rfl, nofun, ⟨H, rfl⟩⟩

theorem wp_ilock (ip : Id) :
    wp spec (ilock ip) (fin (some (.ilock ip))) (Call.start H (.ilock ip)) := by
  intro e he
  have hpos : ¬ e.ref < 1 := Nat.not_lt.mpr (he.want rfl)
  refine ⟨_, .none, wp_ite (absurd · hpos) fun _ => ?_⟩
  refine ⟨_, .ilock rfl rfl rfl rfl, ?_⟩
  intro e _
  have hready : fin (some (.ilock ip)) () (.idle (insert ip H) (.ready ip)) := ⟨_, rfl⟩
  by_cases hv : e.valid = true
  · exact ⟨_, .ready rfl rfl hv, wp_ite (fun _ => hready) (absurd hv)⟩
  refine ⟨_, .invalid rfl rfl (by simpa using hv), wp_ite (absurd · hv) fun _ => ⟨rfl, fun d => ?_⟩⟩
  refine .inl ⟨rfl, .inl ⟨rfl, d, rfl, ?_⟩⟩
  intro e he
  have hd : e.din = d := he.loaded d rfl
  by_cases hz : e.din.type = 0
  · exact ⟨_, .none, wp_ite (fun _ => .inr rfl) (absurd hz)⟩
  · exact ⟨_, .loaded d rfl (hd ▸ hz), wp_ite (absurd · hz) fun _ => hready⟩

theorem wp_iunlock (ip : Id) (hi : ip ∈ H) :
    wp spec (iunlock ip) Idle (Call.start H (.iunlock ip)) := by
  intro e he
  have hpos : ¬ e.ref < 1 := Nat.not_lt.mpr (he.hold hi)
  refine ⟨_, .none, wp_ite (fun h => ?_) fun _ => ⟨rfl, ⟨_, rfl⟩⟩⟩
  rcases h with h | h
  · exact absurd (hi : ip ∈ (Call.start H (.iunlock ip)).hold) (of_decide_eq_false h)
  · exact absurd h hpos

/-- How `iput` ends. -/
theorem wp_putRef (ip : Id) :
    wp spec (acquire >>= fun _ => subRef ip >>= fun _ => release) Idle
      (Call.start H (.iput ip)) :=
  ⟨rfl, none, rfl, rfl, rfl, rfl, nofun, ⟨H, rfl⟩⟩

/-- Freeing the inode. -/
theorem wp_free (ip : Id) (d d' : Dinode) (hi : ip ∈ H) :
    wp spec (do
      setDin ip d
      iupdate ip
      setDin ip d'
      iupdate ip
      setValid ip false
      releasesleep ip
      acquire
      subRef ip
      release) Idle ⟨false, H, none, some ip, none, ∅, none, none, .freeing ip⟩ := by
  refine .inr ⟨rfl, hi, .inr rfl, .inr ⟨rfl, hi, .inr rfl, .inr ⟨rfl, rfl, rfl, ?_⟩⟩⟩
  exact wp_putRef (H := H.erase ip) ip

theorem wp_iput (ip : Id) : wp spec (iput ip) Idle (Call.start H (.iput ip)) := by
  refine ⟨rfl, none, rfl, rfl, rfl, ?_⟩
  intro e
  by_cases he : e.ref = 1 ∧ e.valid = true ∧ e.din.nlink = 0
  · refine .inr ⟨he.1, wp_ite (fun _ => ?_) (absurd he)⟩
    exact ⟨_, .iput rfl, rfl, nofun, wp_free (H := insert ip H) ip _ _ (Finset.mem_insert_self ..)⟩
  · exact .inl (wp_ite (absurd · he) fun _ => ⟨rfl, rfl, rfl, rfl, nofun, ⟨H, rfl⟩⟩)

theorem wp_iallocLoop (dev type n inum : Nat) :
    wp spec (iallocLoop dev type n inum) Idle (.idle H .none) := by
  induction n generalizing inum with
  | zero => exact ⟨H, rfl⟩
  | succ n ih =>
    intro b
    cases b with
    | true => exact wp_iget _
    | false => exact ih (inum + 1)

/-- Every call meets the discipline. -/
theorem wp_body (f : Call) (hi : ∀ ip, f = .iunlock ip ∨ f = .iupdate ip → ip ∈ H) :
    wp spec f.body (fin (some f)) (f.start H) := by
  cases f with
  | iget k => exact wp_iget k
  | idup ip => exact wp_idup ip
  | ilock ip => exact wp_ilock ip
  | iunlock ip => exact wp_iunlock ip (hi ip (.inl rfl))
  | iput ip => exact wp_iput ip
  | iupdate ip => exact ⟨hi ip (.inr rfl), .inl rfl, H, rfl⟩
  | ialloc dev type n => exact wp_iallocLoop ..

end

end Xv6.Itable
