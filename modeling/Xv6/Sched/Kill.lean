import Xv6.Sched.Model
import Xv6.Lib.Run
import Mathlib.Data.Fintype.Basic

/-!
# `kill`

The process table as `fork`, `exit`, `wait` and `kill` change it one after the other. A `fork`
takes two steps: the child has its slot and its pid once `allocproc` has returned, and starts
its life when it becomes `RUNNABLE`. `kill` looks at the pid of a slot only, which an unused slot
has too: 0.
-/
namespace Xv6.Sched.Kill

open Function

set_option autoImplicit false

/-- The table with the next pid. `forking` has the slots between the two steps of a `fork`,
and `named` those whose pid a `kill` has named since they were allocated; no branch reads
`named`. -/
structure Procs where
  proc : Slot → Proc
  nextpid : Int
  forking : Slot → Bool
  named : Slot → Bool

namespace Procs

variable (s : Procs)

def setProc (p : Slot) (v : Proc) : Procs := { s with proc := update s.proc p v }

def freeproc (p : Slot) : Procs := s.setProc p .unused

/-- `allocpid`, in `int` arithmetic, and the slot's new owner. -/
def take (p : Slot) : Procs :=
  { s.setProc p { s.proc p with pid := s.nextpid, state := .USED } with
    nextpid := Int.bmod (s.nextpid + 1) (2 ^ 32)
    named := update s.named p false }

/-- `trapframe` and `pagetable` say whether the two allocations succeed. -/
def allocproc (trapframe pagetable : Bool) : Procs × Option Slot :=
  match slots.find? fun p => (s.proc p).state = .UNUSED with
  | none => (s, none)
  | some p =>
    if trapframe = false then ((s.take p).freeproc p, none)
    else if pagetable = false then ((s.take p).freeproc p, none)
    else (s.take p, some p)

/-- `fork` up to the release of the child's lock; `copied` is the outcome of `uvmcopy`. -/
def forkStart (trapframe pagetable copied : Bool) : Procs :=
  match s.allocproc trapframe pagetable with
  | (s, none) => s
  | (s, some np) =>
    if copied = false then s.freeproc np
    else { s with forking := update s.forking np true }

/-- The rest of `fork`. -/
def forkEnd (p np : Slot) : Procs :=
  { s.setProc np { s.proc np with parent := some p, state := .RUNNABLE } with
    forking := update s.forking np false }

def reparent (p : Slot) : Procs :=
  { s with proc := fun q =>
      if (s.proc q).parent = some p then { s.proc q with parent := some initproc } else s.proc q }

def exit (p : Slot) (status : Int) : Procs :=
  (s.reparent p).setProc p { (s.reparent p).proc p with xstate := status, state := .ZOMBIE }

/-- A `wait` that finds an exited child; `copied` is the outcome of `copyout`. -/
def wait (p : Slot) (copied : Bool) : Procs :=
  match slots.find? fun q => (s.proc q).parent = some p ∧ (s.proc q).state = .ZOMBIE with
  | none => s
  | some q => if copied = false then s else s.freeproc q

/-- What `kill` does to the slot it has found. -/
def hit (v : Proc) : Proc :=
  { v with killed := true, state := if v.state = .SLEEPING then .RUNNABLE else v.state }

def kill (pid : Int) : Procs × Int :=
  match slots.find? fun p => (s.proc p).pid = pid with
  | none => (s, -1)
  | some p => (s.setProc p (hit (s.proc p)), 0)

/-- The slots that `kill(pid)` is meant for. -/
def Live (p : Slot) : Prop := (s.proc p).state ≠ .UNUSED

instance (p : Slot) : Decidable (s.Live p) := inferInstanceAs (Decidable (_ ≠ _))

def name (pid : Int) : Procs :=
  { s with named := fun p => s.named p || decide (s.Live p ∧ (s.proc p).pid = pid) }

end Procs

/-- `sched` is a change of state by the scheduler, `sleep` or `wakeup`. -/
inductive Act where
  | fork (trapframe pagetable copied : Bool)
  | forkEnd (p np : Slot)
  | exit (p : Slot) (status : Int)
  | wait (p : Slot) (copied : Bool)
  | kill (pid : Int)
  | sched (p : Slot) (st : ProcState)
  deriving DecidableEq

/-- A process that is running or may run again. -/
def active : ProcState → Bool
  | .SLEEPING | .RUNNABLE | .RUNNING => true
  | _ => false

def step (s : Procs) : Act → Option Procs
  | .fork trapframe pagetable copied => some (s.forkStart trapframe pagetable copied)
  | .forkEnd p np => if s.forking np then some (s.forkEnd p np) else none
  | .exit p status =>
    -- the first process panics in `exit`
    if active (s.proc p).state ∧ p ≠ initproc then some (s.exit p status) else none
  | .wait p copied => if active (s.proc p).state then some (s.wait p copied) else none
  | .kill pid => some ((s.kill pid).1.name pid)
  | .sched p st =>
    if active (s.proc p).state ∧ active st then some (s.setProc p { s.proc p with state := st })
    else none

/-- After `procinit` and `userinit`; `nextpid` is 1 at first. -/
def boot : Procs where
  proc := update (fun _ => .unused) initproc ⟨.RUNNABLE, none, false, 0, 1, none⟩
  nextpid := 2
  forking := fun _ => false
  named := fun _ => false

/-! ## What `kill` is for -/

/-- `kill(pid)` succeeds if and only if a live process has the pid, and marks none but such. -/
def Reaches (s : Procs) (pid : Int) : Prop :=
  ((s.kill pid).2 = 0 ↔ ∃ p, s.Live p ∧ (s.proc p).pid = pid) ∧
    ∀ p, ((s.kill pid).1.proc p).killed ≠ (s.proc p).killed →
      s.Live p ∧ (s.proc p).pid = pid

/-- A process is marked only if a `kill` has named its pid since it was allocated. -/
def Deserved (s : Procs) : Prop := ∀ p, s.Live p → (s.proc p).killed = true → s.named p = true

/-- `kill(0)` comes to a live process with pid 0 before it comes to an unused slot. -/
def Aimed (s : Procs) (pid : Int) : Prop :=
  pid = 0 → ∀ p, ¬s.Live p → ∃ q < p, s.Live q ∧ (s.proc q).pid = 0

def AimedAct (s : Procs) : Act → Prop
  | .kill pid => Aimed s pid
  | _ => True

structure Inv (s : Procs) : Prop where
  unused : ∀ p, ¬s.Live p → s.proc p = .unused
  deserved : Deserved s

section

variable {s s' : Procs} {p q : Slot} {pid : Int}

theorem inv_boot : Inv boot := by
  have hrest : ∀ p ≠ initproc, boot.proc p = .unused := fun p h => by simp [boot, h]
  refine ⟨fun p hp => ?_, fun p _ hk => ?_⟩
  · refine hrest p ?_
    rintro rfl
    exact absurd hp (by decide)
  · by_cases h0 : p = initproc
    · subst h0
      exact nomatch hk
    · rw [hrest p h0] at hk
      exact nomatch hk

/-- One slot gets a new content, and `named` may only grow elsewhere. -/
theorem Inv.set (hi : Inv s) {v : Proc} (hs : s'.proc = update s.proc p v)
    (hunused : v.state = .UNUSED → v = .unused)
    (hv : v.state ≠ .UNUSED → v.killed = true → s'.named p = true)
    (hnamed : ∀ q ≠ p, s.named q = true → s'.named q = true) : Inv s' := by
  have hp : s'.proc p = v := by rw [hs, update_self]
  have hq : ∀ q ≠ p, s'.proc q = s.proc q := fun q h => by rw [hs, update_of_ne h]
  refine ⟨fun q hdead => ?_, fun q hlive hk => ?_⟩
  · by_cases h : q = p
    · subst h
      rw [hp]
      refine hunused ?_
      rw [Procs.Live, hp, not_not] at hdead
      exact hdead
    · rw [hq q h]
      refine hi.unused q ?_
      rwa [Procs.Live, ← hq q h]
  · by_cases h : q = p
    · subst h
      rw [Procs.Live, hp] at hlive
      rw [hp] at hk
      exact hv hlive hk
    · rw [Procs.Live, hq q h] at hlive
      rw [hq q h] at hk
      exact hnamed q h (hi.deserved q hlive hk)

theorem Inv.freeproc (hi : Inv s) : Inv (s.freeproc p) :=
  hi.set rfl (fun _ => rfl) (fun h => absurd rfl h) fun _ _ h => h

theorem Inv.take (hi : Inv s) (hp : ¬s.Live p) : Inv (s.take p) := by
  refine hi.set rfl nofun ?_ ?_
  · intro _ hk
    have : (s.proc p).killed = true := hk
    rw [hi.unused p hp] at this
    exact nomatch this
  · intro q hq h
    exact (update_of_ne hq ..).trans h

theorem Inv.allocproc (hi : Inv s) (trapframe pagetable : Bool) :
    Inv (s.allocproc trapframe pagetable).1 := by
  unfold Procs.allocproc
  split
  · exact hi
  · rename_i p hfind
    have hdead : ¬s.Live p := by
      have := List.find?_some hfind
      rw [Procs.Live, not_not]
      exact of_decide_eq_true this
    have ht := hi.take hdead
    split
    · exact ht.freeproc
    · split
      · exact ht.freeproc
      · exact ht

theorem Inv.forkStart (hi : Inv s) (trapframe pagetable copied : Bool) :
    Inv (s.forkStart trapframe pagetable copied) := by
  have ha := hi.allocproc trapframe pagetable
  unfold Procs.forkStart
  generalize s.allocproc trapframe pagetable = r at ha ⊢
  obtain ⟨t, np⟩ := r
  cases np with
  | none => exact ha
  | some np =>
    simp only
    split
    · exact ha.freeproc
    · exact ⟨ha.unused, ha.deserved⟩

/-- The mark and the pid of every slot stay, and no unused slot comes or goes. -/
theorem Inv.same (hi : Inv s) (hn : s'.named = s.named)
    (hlive : ∀ p, s'.Live p ↔ s.Live p) (hdead : ∀ p, ¬s.Live p → s'.proc p = s.proc p)
    (hk : ∀ p, (s'.proc p).killed = (s.proc p).killed) : Inv s' := by
  refine ⟨fun p hp => ?_, fun p hp hkp => ?_⟩
  · rw [hlive] at hp
    rw [hdead p hp]
    exact hi.unused p hp
  · rw [hlive] at hp
    rw [hk] at hkp
    rw [hn]
    exact hi.deserved p hp hkp

theorem Inv.reparent (hi : Inv s) : Inv (s.reparent p) := by
  have hcase : ∀ q, (s.reparent p).proc q = s.proc q ∨
      (s.proc q).parent = some p ∧
        (s.reparent p).proc q = { s.proc q with parent := some initproc } := by
    intro q
    by_cases h : (s.proc q).parent = some p
    · exact .inr ⟨h, if_pos h⟩
    · exact .inl (if_neg h)
  refine hi.same rfl (fun q => ?_) (fun q hq => ?_) fun q => ?_
  · unfold Procs.Live
    rcases hcase q with h | ⟨-, h⟩ <;> rw [h]
  · refine (hcase q).resolve_right fun h => ?_
    rw [hi.unused q hq] at h
    exact nomatch h.1
  · rcases hcase q with h | ⟨-, h⟩ <;> rw [h]

/-- A live process stays live. -/
theorem Inv.update (hi : Inv s) {v : Proc} (hp : s.Live p) (hv : v.state ≠ .UNUSED)
    (hk : v.killed = (s.proc p).killed) : Inv (s.setProc p v) :=
  hi.set rfl (fun h => absurd h hv) (fun _ h => hi.deserved p hp (hk ▸ h)) fun _ _ h => h

theorem live_of_active (h : active (s.proc p).state = true) : s.Live p := by
  intro h0
  rw [h0] at h
  exact nomatch h

/-- The slot that is found comes first in the table. -/
theorem find_le {P : Slot → Bool} (hfind : slots.find? P = some p) (hq : P q = true) : p ≤ q := by
  obtain ⟨-, as, bs, hsplit, hbefore⟩ := List.find?_eq_some_iff_append.mp hfind
  have hsorted : slots.Pairwise (· < ·) := List.pairwise_lt_finRange NPROC
  have hmem : q ∈ slots := List.mem_finRange q
  rw [hsplit] at hsorted hmem
  rcases List.mem_append.mp hmem with h | h
  · have := hbefore q h
    rw [hq] at this
    exact nomatch this
  · rcases List.mem_cons.mp h with rfl | h
    · exact le_rfl
    · exact ((List.pairwise_cons.mp (List.pairwise_append.mp hsorted).2.1).1 q h).le

theorem pid_of_find (hfind : (slots.find? fun p => (s.proc p).pid = pid) = some p) :
    (s.proc p).pid = pid := by
  simpa using List.find?_some hfind

theorem find_kill (hi : Inv s) (ha : Aimed s pid)
    (hfind : (slots.find? fun p => (s.proc p).pid = pid) = some p) : s.Live p := by
  by_contra hdead
  have h0 : pid = 0 := by rw [← pid_of_find hfind, hi.unused p hdead]; rfl
  obtain ⟨q, hlt, -, hq⟩ := ha h0 p hdead
  have hle := find_le (q := q) hfind (by rw [hq, h0]; rfl)
  exact absurd hlt (not_lt_of_ge hle)

theorem Inv.kill (hi : Inv s) (ha : Aimed s pid) : Inv ((s.kill pid).1.name pid) := by
  have hgrow : ∀ {t : Procs} q, t.named q = true → (t.name pid).named q = true := by
    intro t q h
    simp only [Procs.name, h, Bool.true_or]
  unfold Procs.kill
  split
  · exact ⟨hi.unused, fun q hq hk => hgrow q (hi.deserved q hq hk)⟩
  · rename_i p hfind
    have hlive := find_kill hi ha hfind
    have hpid := pid_of_find hfind
    have hhit : (Procs.hit (s.proc p)).state ≠ .UNUSED := by
      unfold Procs.hit
      split
      · exact nofun
      · exact hlive
    refine hi.set rfl (fun h => absurd h hhit) (fun _ _ => ?_) fun q _ h => hgrow q h
    -- the slot that is hit has just been named
    simp only [Procs.name, Procs.Live, Procs.setProc, update_self, Bool.or_eq_true,
      decide_eq_true_eq]
    exact .inr ⟨hhit, hpid⟩

theorem step_inv {a : Act} (hi : Inv s) (ha : AimedAct s a) (h : step s a = some s') : Inv s' := by
  cases a with
  | fork trapframe pagetable copied =>
    cases h
    exact hi.forkStart trapframe pagetable copied
  | forkEnd p np =>
    simp only [step] at h
    split at h
    · cases h
      refine hi.set rfl nofun (fun _ hk => ?_) fun _ _ h => h
      have hk' : (s.proc np).killed = true := hk
      by_cases hlive : s.Live np
      · exact hi.deserved np hlive hk'
      · rw [hi.unused np hlive] at hk'
        exact nomatch hk'
    · exact nomatch h
  | exit p status =>
    simp only [step] at h
    split at h
    · rename_i hg
      cases h
      have hlive : (s.reparent p).Live p := by
        have := live_of_active hg.1
        unfold Procs.Live Procs.reparent at *
        simp only
        split <;> exact this
      exact hi.reparent.update hlive nofun rfl
    · exact nomatch h
  | wait p copied =>
    simp only [step] at h
    split at h
    · cases h
      unfold Procs.wait
      split
      · exact hi
      · split
        · exact hi
        · exact hi.freeproc
    · exact nomatch h
  | kill pid =>
    cases h
    exact hi.kill ha
  | sched p st =>
    simp only [step] at h
    split at h
    · rename_i hg
      cases h
      refine hi.update (live_of_active hg.1) ?_ rfl
      rintro rfl
      exact nomatch hg.2
    · exact nomatch h

/-- In a state with the invariant, `kill` reaches the right processes exactly if it is aimed. -/
theorem reaches_iff (hi : Inv s) (pid : Int) : Reaches s pid ↔ Aimed s pid := by
  constructor
  · rintro hr rfl p hdead
    have hpid : (s.proc p).pid = 0 := by rw [hi.unused p hdead]; rfl
    cases hfind : slots.find? fun q => (s.proc q).pid = 0 with
    | none => exact absurd (decide_eq_true hpid) (List.find?_eq_none.mp hfind p (List.mem_finRange p))
    | some q =>
      have hle := find_le hfind (decide_eq_true hpid)
      have hkill : s.kill 0 = (s.setProc q (Procs.hit (s.proc q)), 0) := by
        simp only [Procs.kill, hfind]
      have hlive : s.Live q := by
        by_contra hq
        refine hq (hr.2 q ?_).1
        rw [hkill, hi.unused q hq]
        simp [Procs.setProc, Procs.hit, Proc.unused]
      refine ⟨q, lt_of_le_of_ne hle ?_, hlive, pid_of_find hfind⟩
      rintro rfl
      exact hdead hlive
  · intro ha
    unfold Reaches Procs.kill
    split
    · rename_i hnone
      rw [List.find?_eq_none] at hnone
      refine ⟨iff_of_false (by simp) ?_, fun p h => absurd rfl h⟩
      rintro ⟨p, -, hp⟩
      exact hnone p (List.mem_finRange p) (decide_eq_true hp)
    · rename_i p hfind
      have hlive := find_kill hi ha hfind
      have hpid := pid_of_find hfind
      refine ⟨iff_of_true rfl ⟨p, hlive, hpid⟩, fun q hq => ?_⟩
      by_cases h : q = p
      · subst h
        exact ⟨hlive, hpid⟩
      · exact absurd (congrArg Proc.killed (update_of_ne h ..)) hq

end

/-- In every run in which each `kill(0)` is aimed, a `kill` reaches exactly the live processes
with its pid as long as it is aimed, and nobody carries a mark that was not meant for them. -/
theorem kill_reaches_live (acts : List Act) (s : Procs) (hrun : Lib.run step boot acts = some s)
    (haim : Lib.Always step AimedAct boot acts) :
    (∀ pid, Reaches s pid ↔ Aimed s pid) ∧ Deserved s := by
  have hi : Inv s := Lib.run_invariant_under (fun _ _ _ hi ha h => step_inv hi ha h) inv_boot haim hrun
  exact ⟨reaches_iff hi, hi.deserved⟩

/-- The first process forks and the child is killed. -/
def forkKill : List Act := [.fork true true true, .forkEnd 0 1, .kill 2]

theorem kill_reaches_live_forkKill :
    ∃ s, Lib.run step boot forkKill = some s ∧ (s.proc 1).killed = true ∧ Deserved s := by
  refine ⟨_, rfl, by decide, ?_⟩
  refine (kill_reaches_live forkKill _ rfl ?_).2
  refine Lib.always_cons rfl trivial (Lib.always_cons rfl trivial (Lib.always_cons rfl ?_ trivial))
  exact fun h => absurd h (by decide)

/-- `kill(0)` returns 0 and marks the unused slot 1; the next `fork` starts its child with
the mark. -/
theorem unused_slot_killed :
    ¬Reaches boot 0 ∧
      ∃ s, Lib.run step boot [.kill 0, .fork true true true, .forkEnd 0 1] = some s ∧
        (boot.kill 0).2 = 0 ∧ (s.proc 1).state = .RUNNABLE ∧ (s.proc 1).killed = true ∧
        s.named 1 = false := by
  refine ⟨fun h => ?_, _, rfl, by decide, by decide, by decide, by decide⟩
  have := (h.2 1 (by decide)).1
  exact absurd this (by decide)

end Xv6.Sched.Kill
