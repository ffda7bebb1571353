import Xv6.Intr.Nesting

/-!
# One process, one processor

`p->lock` passes from `scheduler` to the process and back with the context switch. Whoever holds it
knows how far the change of `p->state` is; while it is free, the state says whether the process is on a
processor.
-/
namespace Xv6.Intr

set_option autoImplicit false

open Xv6.Sched (ProcState)
open Xv6.Lib

variable {C P L : Type}

/-- Some processor uses the kernel stack of process `p`. -/
def OnCpu (s : Sys C P L) (p : P) : Prop := ∃ c, (s.cpu c).cur = .proc p

variable {s : Sys C P L} {h : Hist C P} {p : P}

/-- A processor that has `p` as its current process runs it or holds its lock. -/
theorem Inv.holds (hi : Inv s h) {c : C} (hp : (s.cpu c).proc = some p) (hc : (s.cpu c).cur ≠ .proc p) :
    s.lock (.proc p) = some c := by
  obtain ⟨K, hl⟩ := hi.cpus c
  cases hcur : (s.cpu c).cur with
  | sched e =>
    cases hl.home e hcur
    exact (hl.current p hcur hp).1
  | proc q =>
    cases (hi.proc_cur hcur).symm.trans hp
    exact absurd hcur hc

theorem Inv.onCpu_iff (hi : Inv s h) (hfree : s.lock (.proc p) = none) :
    OnCpu s p ↔ s.state p = .RUNNING := by
  constructor
  · intro ⟨c, hc⟩
    obtain ⟨K, hl⟩ := hi.cpus c
    refine (hl.runs p hc).locked.resolve_right fun hK => ?_
    rw [hl.held _ hK] at hfree
    cases hfree
  · intro hst
    by_contra hno
    have hnowhere : ∀ c, (s.cpu c).cur ≠ .proc p := fun c hc => hno ⟨c, hc⟩
    obtain ⟨c, hc⟩ := (hi.out p hnowhere).stopped hst
    rw [hi.holds hc (hnowhere c)] at hfree
    cases hfree

/-- Where a process that waits goes on is in its context. -/
theorem Inv.context_eq (hi : Inv s h) (hfree : s.lock (.proc p) = none)
    (hst : s.state p = .RUNNABLE ∨ s.state p = .SLEEPING) : s.context p = some (s.todo (.proc p)) := by
  refine (hi.out p fun c hc => ?_).context ?_
  · have hrun := (hi.onCpu_iff hfree).mp ⟨c, hc⟩
    rw [hrun] at hst
    rcases hst with hst | hst <;> cases hst
  · rcases hst with hst | hst <;> simp [hst]

variable [DecidableEq C] [DecidableEq P] [DecidableEq L]

theorem Inv.freeproc_off (hi : Inv s h) {c : C} {s' : Sys C P L}
    (hstep : step s (.call c (.freeproc p)) = some s') : ¬OnCpu s p := by
  intro ⟨d, hd⟩
  obtain ⟨hok, hcall⟩ := Option.ite_none_right_eq_some.mp hstep
  obtain ⟨⟨hlock, hst⟩, -⟩ := Option.ite_none_right_eq_some.mp hcall
  have hne : s.state p ≠ .RUNNING := by
    intro hrun
    rw [hrun] at hst
    rcases hst with hst | hst <;> cases hst
  obtain ⟨K, hl⟩ := hi.cpus c
  have hrun := (hl.caller hok.2).1
  refine hi.nowhere hlock hne (fun hc => hne ?_) d hd
  rwa [hc] at hrun

/-- In every state that a run reaches, each process is the current process of at most one processor,
and at most one uses its kernel stack. While `p->lock` is free, one does exactly if the process is
`RUNNING`, and if it is `RUNNABLE` or `SLEEPING`, then its context has what it still has to do.
`freeproc` is not called on a process whose kernel stack is in use. -/
theorem one_cpu (sie intena : C → Bool) (as : List (Act C P L))
    (hrun : run step (start sie intena).1 as = some s) :
    (∀ p c d, (s.cpu c).proc = some p → (s.cpu d).proc = some p → c = d) ∧
    (∀ p c d, (s.cpu c).cur = .proc p → (s.cpu d).cur = .proc p → c = d) ∧
    (∀ p, s.lock (.proc p) = none → (OnCpu s p ↔ s.state p = .RUNNING) ∧
      (s.state p = .RUNNABLE ∨ s.state p = .SLEEPING → s.context p = some (s.todo (.proc p)))) ∧
    ∀ c p s', step s (.call c (.freeproc p)) = some s' → ¬OnCpu s p := by
  obtain ⟨h, hi⟩ : ∃ h, Inv s h := by
    refine run_invariant (I := fun s => ∃ h, Inv s h) ?_ ⟨_, inv_start sie intena⟩ hrun
    intro s a s' ⟨h, hi⟩ hstep
    exact ⟨_, hi.keep hstep⟩
  refine ⟨fun p c d => hi.one c d p, fun p c d hc hd => ?_, fun p hfree => ?_, fun c p s' => hi.freeproc_off⟩
  · exact hi.one c d p (hi.proc_cur hc) (hi.proc_cur hd)
  · exact ⟨hi.onCpu_iff hfree, hi.context_eq hfree⟩

theorem one_cpu_crossing : ∃ s, run step (start (fun _ => false) fun _ => false).1 crossing = some s ∧
    s.lock (.proc ()) = none ∧ s.state () = .RUNNING ∧ ∀ c, (s.cpu c).cur = .proc () → c = true := by
  have hok : (run step (start (fun _ => false) fun _ => false).1 crossing).map (fun s =>
      (s.lock (.proc ()), (s.cpu true).cur)) = some (none, .proc ()) := by decide +kernel
  obtain ⟨s, hrun, hs⟩ := Option.map_eq_some_iff.mp hok
  obtain ⟨hfree, hcur⟩ : s.lock (.proc ()) = none ∧ (s.cpu true).cur = .proc () := by simpa using hs
  obtain ⟨-, hone, hstate, -⟩ := one_cpu _ _ crossing hrun
  exact ⟨s, hrun, hfree, (hstate () hfree).1.mp ⟨true, hcur⟩, fun c hc => hone () c true hc hcur⟩

end Xv6.Intr
