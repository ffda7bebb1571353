import Xv6.Intr.Model
import Xv6.Lib.Run

/-!
# The interrupt flag comes back

What a thread still has to do is safe if `sched` finds what it tests for when the thread gets there.
A processor and its thread agree on the locks in `K`, taken since `noff` was last 0; no other
processor can change what they agree on.
-/
namespace Xv6.Intr

set_option autoImplicit false
set_option linter.unusedSectionVars false

open Xv6.Sched (ProcState)
open Xv6.Lib
open Function (update update_self update_of_ne update_apply update_eq_self)

section

variable {P L : Type}

/-- From `n` calls of `push_off`, the locks `K` and the process state `st` on, the tests of `sched`
succeed and the process is `RUNNING` whenever its lock is free. `o` is the process of the thread; `b`
is the interrupt flag, if an interrupt can come first. -/
def Safe (o : Option P) : Option Bool → List (Op P L) → Nat → Set (Lock P L) → ProcState → Prop
  | _, [], _, _, st => st = .RUNNING
  | _, .get :: r, n, K, st => Safe o none r (n + 1) K st
  | b, .off x :: r, n, K, st => b = some x ∧ Safe o none r (n + 1) K st
  | _, .holding _ :: r, n, K, st => Safe o none r n K st
  | _, .spin l :: r, n, K, st => 0 < n ∧ Safe o none r n (insert l K) st
  | _, .free l :: r, n, K, st =>
    (∀ p, o = some p → l = .proc p → st = .RUNNING) ∧ Safe o none r n (K \ {l}) st
  | _, .popOff :: r, n, K, st =>
    (n = 1 → st = .RUNNING) ∧ Safe o none r (n - 1) {l ∈ K | n ≠ 1} st
  | _, .state st' :: r, n, K, _ => (∃ p, o = some p ∧ .proc p ∈ K) ∧ Safe o none r n K st'
  | _, .swtch :: r, n, K, st =>
    ∃ p r', o = some p ∧ .proc p ∈ K ∧ n = 1 ∧ st ≠ .RUNNING ∧ r = .restore :: r' ∧
      Safe o none r 1 {.proc p} .RUNNING
  | _, .restore :: r, n, K, st => o ≠ none ∧ 0 < n ∧ Safe o none r n K st
  | _, .iret :: r, _, _, st => st = .RUNNING ∧ Safe o (some true) r 0 ∅ .RUNNING
  | _, .dispatch p :: r, n, K, _ =>
    o = none ∧ n = 1 ∧ .proc p ∈ K ∧ Safe o none r 0 ∅ .RUNNING
  | _, .enter :: r, n, _, _ =>
    o = none ∧ n = 1 ∧ (∃ r', r = .idle :: r') ∧ Safe o none r 1 ∅ .RUNNING
  | _, .idle :: r, n, K, st => o = none ∧ 0 < n ∧ Safe o none r n K st

variable {o : Option P} {b : Option Bool} {r : List (Op P L)} {n : Nat} {K : Set (Lock P L)}
  {st : ProcState}

/-- Only a pending `push_off` depends on the interrupt flag. -/
theorem Safe.flag (h : Safe o none r n K st) (b : Option Bool) : Safe o b r n K st := by
  cases r with
  | nil => exact h
  | cons m r =>
    cases m with
    | off x => exact absurd h.1 (by simp)
    | _ => exact h

/-- A thread that can make a call has nothing to do that depends on how it gets there. -/
theorem Safe.idling (h : Safe o b r n K st) (hr : idling r = true) :
    st = .RUNNING ∧ ∀ b n K, Safe o b r n K .RUNNING := by
  cases r with
  | nil => exact ⟨h, fun _ _ _ => rfl⟩
  | cons m r =>
    cases m with
    | iret => exact ⟨h.1, fun _ _ _ => ⟨rfl, h.2⟩⟩
    | _ => exact absurd hr (by simp [Intr.idling])

variable (hr : ∀ b n K, Safe o b r n K .RUNNING)

include hr

theorem safe_acquire (l : Lock P L) : Safe o b (acquire l ++ r) n K .RUNNING := by
  simp [acquire, pushOff, Safe, hr]

theorem safe_release (l : Lock P L) : Safe o b (release l ++ r) n K .RUNNING := by
  simp [release, Safe, hr]

theorem safe_yield {p : P} (ho : o = some p) : Safe o b (yield p ++ r) 0 K .RUNNING := by
  subst ho
  simp [yield, sched, myproc, acquire, release, pushOff, Safe, hr]

theorem safe_sleep {p : P} {lk : Lock P L} (ho : o = some p) (hne : lk ≠ .proc p) :
    Safe o b (sleep p lk ++ r) 1 K .RUNNING := by
  subst ho
  simp [sleep, sched, myproc, acquire, release, pushOff, Safe, hr, Ne.symm hne]

theorem safe_exit {p : P} {wait : Lock P L} (ho : o = some p) (hne : wait ≠ .proc p) :
    Safe o b (exit p wait ++ r) 1 K .RUNNING := by
  subst ho
  simp [exit, sched, myproc, acquire, release, pushOff, Safe, hr, hne, Ne.symm hne]

end

/-! ## The invariant -/

variable {C P L : Type}

def Thread.owner : Thread C P → Option P
  | .sched _ => none
  | .proc p => some p

/-- The state of the thread's process. -/
def Thread.status (state : P → ProcState) : Thread C P → ProcState
  | .sched _ => .RUNNING
  | .proc p => state p

/-- Processor `c` runs process `p`. -/
structure Runs (s : Sys C P L) (h : Hist C P) (c : C) (K : Set (Lock P L)) (p : P) : Prop where
  myproc : (s.cpu c).proc = some p
  locked : s.state p = .RUNNING ∨ .proc p ∈ K
  depth : h.depth p = (s.cpu c).noff
  -- what `scheduler` does when the process gives up the processor
  idle : ∃ r, s.todo (.sched c) = .idle :: r
  back : Safe none none (s.todo (.sched c)) 1 ∅ .RUNNING
  saved : ∀ x, s.saved p = some x → ∃ r, s.todo (.proc p) = .restore :: r
  intena : ∀ b, h.before p = some b → 0 < (s.cpu c).noff →
    (s.saved p).getD (s.cpu c).intena = b

structure Local (s : Sys C P L) (h : Hist C P) (c : C) (K : Set (Lock P L)) : Prop where
  held : ∀ l ∈ K, s.lock l = some c
  empty : (s.cpu c).noff = 0 → K = ∅
  quiet : 0 < (s.cpu c).noff → (s.cpu c).sie = false
  count : (s.cpu c).noff + h.pops c = h.pushes c
  safe : Safe (s.cpu c).cur.owner (some (s.cpu c).sie) (s.todo (s.cpu c).cur) (s.cpu c).noff K
    ((s.cpu c).cur.status s.state)
  runs : ∀ p, (s.cpu c).cur = .proc p → Runs s h c K p
  home : ∀ d, (s.cpu c).cur = .sched d → d = c
  -- `scheduler` holds the lock while it has a process, which it switches to or has come back from
  current : ∀ p, (s.cpu c).cur = .sched c → (s.cpu c).proc = some p → s.lock (.proc p) = some c ∧
    ∃ r, s.todo (.sched c) = .idle :: r ∧ s.state p ≠ .RUNNING ∨
      s.todo (.sched c) = .enter :: r ∧ s.state p = .RUNNING

/-- Process `p` runs nowhere. If it is not `UNUSED`, it goes on with its own lock held, and if it is
`RUNNING`, a `scheduler` is about to switch to it. -/
structure Out (s : Sys C P L) (h : Hist C P) (p : P) : Prop where
  stopped : s.state p = .RUNNING → ∃ c, (s.cpu c).proc = some p
  context : s.state p ≠ .UNUSED → s.context p = some (s.todo (.proc p))
  safe : s.state p ≠ .UNUSED → Safe (some p) none (s.todo (.proc p)) 1 {.proc p} .RUNNING
  depth : s.state p ≠ .UNUSED → h.depth p = 1
  saved : ∀ x, s.saved p = some x → ∃ r, s.todo (.proc p) = .restore :: r
  before : s.state p ≠ .UNUSED → ∀ b, h.before p = some b → s.saved p = some b

structure Inv (s : Sys C P L) (h : Hist C P) : Prop where
  cpus : ∀ c, ∃ K, Local s h c K
  out : ∀ p, (∀ c, (s.cpu c).cur ≠ .proc p) → Out s h p
  one : ∀ c d p, (s.cpu c).proc = some p → (s.cpu d).proc = some p → c = d
  noPanic : ∀ m, s.panicked = some m → m.inSched = false

/-- A step that touches only the processors in `B` and the processes in `A`. -/
structure Frame (B : C → Prop) (A : P → Prop) (s s' : Sys C P L) (h h' : Hist C P) : Prop where
  cpu : ∀ d, ¬B d → s'.cpu d = s.cpu d
  lock : ∀ l d, ¬B d → s.lock l = some d → s'.lock l = some d
  todoSched : ∀ d, ¬B d → s'.todo (.sched d) = s.todo (.sched d)
  todo : ∀ p, ¬A p → s'.todo (.proc p) = s.todo (.proc p)
  state : ∀ p, ¬A p → s'.state p = s.state p
  saved : ∀ p, ¬A p → s'.saved p = s.saved p
  context : ∀ p, ¬A p → s'.context p = s.context p
  pushes : ∀ d, ¬B d → h'.pushes d = h.pushes d
  pops : ∀ d, ¬B d → h'.pops d = h.pops d
  depth : ∀ p, ¬A p → h'.depth p = h.depth p
  before : ∀ p, ¬A p → h'.before p = h.before p

section

variable {s s' : Sys C P L} {h h' : Hist C P} {c d : C} {B : C → Prop} {A : P → Prop}
  {K : Set (Lock P L)} {p : P}

theorem Runs.frame (hf : Frame B A s s' h h') (hd : ¬B d) (hp : ¬A p) (hr : Runs s h d K p) :
    Runs s' h' d K p where
  myproc := by rw [hf.cpu d hd, hr.myproc]
  locked := by rw [hf.state p hp]; exact hr.locked
  depth := by rw [hf.depth p hp, hf.cpu d hd, hr.depth]
  idle := by rw [hf.todoSched d hd]; exact hr.idle
  back := by rw [hf.todoSched d hd]; exact hr.back
  saved := by rw [hf.saved p hp, hf.todo p hp]; exact hr.saved
  intena := by rw [hf.before p hp, hf.cpu d hd, hf.saved p hp]; exact hr.intena

theorem Local.frame (hf : Frame B A s s' h h') (hd : ¬B d)
    (hA : ∀ p, A p → (s.cpu d).proc ≠ some p) (hl : Local s h d K) : Local s' h' d K := by
  have hcpu := hf.cpu d hd
  have hown : ∀ p, (s.cpu d).cur = .proc p → ¬A p := fun p hp ha => hA p ha (hl.runs p hp).myproc
  constructor
  case held => exact fun l hl' => hf.lock l d hd (hl.held l hl')
  case empty => rw [hcpu]; exact hl.empty
  case quiet => rw [hcpu]; exact hl.quiet
  case count => rw [hcpu, hf.pops d hd, hf.pushes d hd, hl.count]
  case safe =>
    have hsafe := hl.safe
    rw [hcpu]
    cases hcur : (s.cpu d).cur with
    | sched e =>
      rw [hcur, hl.home e hcur] at hsafe
      rw [hl.home e hcur, hf.todoSched d hd]
      exact hsafe
    | proc p =>
      rw [hcur, Thread.status] at hsafe
      rw [Thread.status, hf.todo p (hown p hcur), hf.state p (hown p hcur)]
      exact hsafe
  case runs =>
    intro p hp
    rw [hcpu] at hp
    exact (hl.runs p hp).frame hf hd (hown p hp)
  case home => rw [hcpu]; exact hl.home
  case current =>
    rw [hcpu]
    intro p hp hproc
    obtain ⟨hlock, hnext⟩ := hl.current p hp hproc
    rw [hf.todoSched d hd, hf.state p fun ha => hA p ha hproc]
    exact ⟨hf.lock _ d hd hlock, hnext⟩

theorem Out.frame (hf : Frame B A s s' h h') (hp : ¬A p)
    (hproc : ∀ d, (s.cpu d).proc = some p → s.state p = .RUNNING → (s'.cpu d).proc = some p)
    (ho : Out s h p) : Out s' h' p where
  stopped := by
    rw [hf.state p hp]
    intro hst
    obtain ⟨d, hd⟩ := ho.stopped hst
    exact ⟨d, hproc d hd hst⟩
  context := by rw [hf.state p hp, hf.context p hp, hf.todo p hp]; exact ho.context
  safe := by rw [hf.state p hp, hf.todo p hp]; exact ho.safe
  depth := by rw [hf.state p hp, hf.depth p hp]; exact ho.depth
  saved := by rw [hf.saved p hp, hf.todo p hp]; exact ho.saved
  before := by rw [hf.state p hp, hf.before p hp, hf.saved p hp]; exact ho.before

theorem Inv.proc_cur (hi : Inv s h) (hp : (s.cpu c).cur = .proc p) : (s.cpu c).proc = some p := by
  obtain ⟨K, hl⟩ := hi.cpus c
  exact (hl.runs p hp).myproc

/-- A step that leaves the threads where they are. -/
theorem Inv.stay (hi : Inv s h) (hf : Frame B A s s' h h')
    (hcur : ∀ d, (s'.cpu d).cur = (s.cpu d).cur) (hA : ∀ d p, ¬B d → A p → (s.cpu d).proc ≠ some p)
    (hone : ∀ d e p, (s'.cpu d).proc = some p → (s'.cpu e).proc = some p → d = e)
    (hproc : ∀ d p, (s.cpu d).proc = some p → s.state p = .RUNNING → (s'.cpu d).proc = some p)
    (hB : ∀ d, B d → ∃ K, Local s' h' d K)
    (hout : ∀ p, A p → (∀ d, (s.cpu d).cur ≠ .proc p) → Out s' h' p)
    (hpanic : ∀ m, s'.panicked = some m → m.inSched = false) : Inv s' h' := by
  constructor
  case cpus =>
    intro d
    by_cases hd : B d
    · exact hB d hd
    · obtain ⟨K, hK⟩ := hi.cpus d
      exact ⟨K, hK.frame hf hd fun p hp => hA d p hd hp⟩
  case out =>
    intro p hp
    have hnone : ∀ d, (s.cpu d).cur ≠ .proc p := fun d => hcur d ▸ hp d
    by_cases ha : A p
    · exact hout p ha hnone
    · exact (hi.out p hnone).frame hf ha fun d => hproc d p
  case one => exact hone
  case noPanic => exact hpanic

/-- A step of processor `c` and its thread. -/
theorem Inv.own (hi : Inv s h) (hf : Frame (fun d => d = c) (fun p => (s.cpu c).cur = .proc p) s s' h h')
    (hcur : (s'.cpu c).cur = (s.cpu c).cur)
    (hproc : ∀ p, (s'.cpu c).proc = some p → (s.cpu c).proc = some p)
    (hrun : ∀ p, (s.cpu c).proc = some p → s.state p = .RUNNING → (s'.cpu c).proc = some p)
    (hl : ∃ K, Local s' h' c K)
    (hpanic : ∀ m, s'.panicked = some m → m.inSched = false) : Inv s' h' := by
  have hold : ∀ d p, (s'.cpu d).proc = some p → (s.cpu d).proc = some p := by
    intro d p hp
    by_cases hd : d = c
    · rw [hd] at hp ⊢
      exact hproc p hp
    · rwa [hf.cpu d hd] at hp
  refine hi.stay hf (fun d => ?_) (fun d p hd hp hpd => hd (hi.one d c p hpd (hi.proc_cur hp)))
    (fun d e p hd he => hi.one d e p (hold d p hd) (hold e p he)) (fun d p hp hst => ?_)
    (fun d hd => ?_) (fun p hp hnone => absurd hp (hnone c)) hpanic
  · by_cases hd : d = c
    · rw [hd, hcur]
    · rw [hf.cpu d hd]
  · by_cases hd : d = c
    · rw [hd] at hp ⊢
      exact hrun p hp hst
    · rwa [hf.cpu d hd]
  · rw [hd]
    exact hl

end

/-! ## Operations of a thread -/

section

variable {s : Sys C P L} {h : Hist C P} {c : C} {K : Set (Lock P L)} {r : List (Op P L)}

theorem owner_eq_some {t : Thread C P} {p : P} : t.owner = some p ↔ t = .proc p := by
  cases t <;> simp [Thread.owner]

theorem owner_eq_none {t : Thread C P} : t.owner = none ↔ ∃ e, t = .sched e := by
  cases t <;> simp [Thread.owner]

section

variable {m : Op P L} (hl : Local s h c K) (htodo : s.todo (s.cpu c).cur = m :: r)

include hl htodo

theorem Local.safe_cons : Safe (s.cpu c).cur.owner (some (s.cpu c).sie) (m :: r) (s.cpu c).noff K
    ((s.cpu c).cur.status s.state) := by
  rw [← htodo]
  exact hl.safe

/-- A thread that has something other to do than `restore` has no flag to restore. -/
theorem Local.not_saved (hm : m ≠ .restore) {p : P} (hp : (s.cpu c).cur = .proc p) :
    s.saved p = none := by
  cases hx : s.saved p with
  | none => rfl
  | some x =>
    obtain ⟨r', hr'⟩ := (hl.runs p hp).saved x hx
    rw [hp, hr'] at htodo
    cases htodo
    exact absurd rfl hm

end

variable [DecidableEq C] [DecidableEq P] [DecidableEq L]

/-- A `scheduler` that does neither of the two operations of a switch has no process. -/
theorem Local.no_current {m : Op P L} (hl : Local s h c K) (htodo : s.todo (s.cpu c).cur = m :: r)
    (hidle : m ≠ .idle) (henter : m ≠ .enter) (hp : (s.cpu c).cur = .sched c) :
    (s.cpu c).proc = none := by
  cases hproc : (s.cpu c).proc with
  | none => rfl
  | some p =>
    obtain ⟨-, r', ⟨hr', -⟩ | ⟨hr', -⟩⟩ := hl.current p hp hproc <;>
      rw [hp, hr'] at htodo <;>
      cases htodo
    · exact absurd rfl hidle
    · exact absurd rfl henter

/-- An operation of the thread that processor `c` runs: what it needs for the processor and the thread
to go on agreeing. -/
theorem Inv.perform (hi : Inv s h) (hl : Local s h c K) (k : Cpu C P) (K' : Set (Lock P L))
    {lock : Lock P L → Option C} {state : P → ProcState} {saved : P → Option Bool} {m : Option Panic}
    {h' : Hist C P} (hk : k.cur = (s.cpu c).cur)
    (hproc : ∀ p, k.proc = some p → (s.cpu c).proc = some p)
    (hrun : ∀ p, (s.cpu c).proc = some p → s.state p = .RUNNING → k.proc = some p)
    (hcurrent : (s.cpu c).cur = .sched c → k.proc = none)
    (hlock : ∀ l, ∀ d ≠ c, s.lock l = some d → lock l = some d)
    (hstate : ∀ p, (s.cpu c).cur ≠ .proc p → state p = s.state p ∧ saved p = s.saved p)
    (hpushes : ∀ d ≠ c, h'.pushes d = h.pushes d) (hpops : ∀ d ≠ c, h'.pops d = h.pops d)
    (hdepth : ∀ p, (s.cpu c).cur ≠ .proc p → h'.depth p = h.depth p ∧ h'.before p = h.before p)
    (hpanic : ∀ a, m = some a → a.inSched = false) (hheld : ∀ l ∈ K', lock l = some c)
    (hempty : k.noff = 0 → K' = ∅) (hquiet : 0 < k.noff → k.sie = false)
    (hcount : k.noff + h'.pops c = h'.pushes c)
    (hsafe : Safe (s.cpu c).cur.owner (some k.sie) r k.noff K' ((s.cpu c).cur.status state))
    (hruns : ∀ p, (s.cpu c).cur = .proc p → k.proc = some p ∧ (state p = .RUNNING ∨ .proc p ∈ K') ∧
      h'.depth p = k.noff ∧ (∀ x, saved p = some x → ∃ r', r = .restore :: r') ∧
      ∀ b, h'.before p = some b → 0 < k.noff → (saved p).getD k.intena = b) :
    Inv ⟨update s.cpu c k, lock, state, update s.todo (s.cpu c).cur r, saved, s.context, m⟩ h' := by
  have hhome := hl.home
  refine hi.own (c := c) ?_ (by simp [hk]) (by simpa using hproc) (by simpa using hrun) ⟨K', ?_⟩ hpanic
  · constructor
    case lock => exact fun l d hd => hlock l d hd
    case pushes => exact hpushes
    case pops => exact hpops
    all_goals grind [update_apply]
  · constructor
    case held => exact hheld
    case safe =>
      simp only [update_self, hk]
      exact hsafe
    case runs =>
      simp only [update_self]
      intro p hp
      obtain ⟨hproc, hlocked, hdepth', hsaved, hintena⟩ := hruns p (hk ▸ hp)
      have hback := (hl.runs p (hk ▸ hp)).back
      have hidle := (hl.runs p (hk ▸ hp)).idle
      constructor <;> grind [update_apply]
    case current =>
      simp only [update_self, hk]
      intro p hp hpk
      rw [hcurrent hp] at hpk
      cases hpk
    all_goals simp only [update_self]
    · exact hempty
    · exact hquiet
    · exact hcount
    · rw [hk]
      exact hhome

theorem Inv.setTodo (hi : Inv s h) (hl : Local s h c K)
    (hcurrent : (s.cpu c).cur = .sched c → (s.cpu c).proc = none)
    (hsaved : ∀ p, (s.cpu c).cur = .proc p → s.saved p = none)
    (hsafe : Safe (s.cpu c).cur.owner (some (s.cpu c).sie) r (s.cpu c).noff K
      ((s.cpu c).cur.status s.state)) :
    Inv (s.setTodo (s.cpu c).cur r) h := by
  have hnew := hi.perform hl (s.cpu c) K rfl (fun _ => id) (fun _ hp _ => hp) hcurrent
    (fun _ _ _ hd => hd) (fun _ _ => ⟨rfl, rfl⟩) (fun _ _ => rfl) (fun _ _ => rfl) (fun _ _ => ⟨rfl, rfl⟩) hi.noPanic hl.held hl.empty hl.quiet
    hl.count hsafe ?_
  · rwa [update_eq_self] at hnew
  · intro p hp
    have hr := hl.runs p hp
    refine ⟨hr.myproc, hr.locked, hr.depth, fun x hx => ?_, hr.intena⟩
    rw [hsaved p hp] at hx
    cases hx

theorem Inv.panic (hi : Inv s h) {m : Panic} (hm : m.inSched = false) : Inv (s.panic m) h := by
  refine hi.stay (B := fun _ => False) (A := fun _ => False) ?_ (fun _ => rfl) (fun _ _ _ => False.elim)
    hi.one (fun _ _ hp _ => hp) (fun _ => False.elim) (fun _ => False.elim) ?_
  · constructor <;> intros <;> first | rfl | assumption
  · intro a ha
    cases ha
    exact hm

theorem Inv.exec_off (hi : Inv s h) (hl : Local s h c K) {x : Bool}
    (htodo : s.todo (s.cpu c).cur = .off x :: r) :
    Inv (exec s c (s.cpu c).cur r (.off x)) (h.push c (s.cpu c).sie (s.cpu c).cur) := by
  obtain ⟨hx, hsafe⟩ := hl.safe_cons htodo
  have hns := fun p => hl.not_saved htodo (by simp) (p := p)
  have hcount := hl.count
  have hruns := hl.runs
  refine hi.perform hl _ K rfl (fun _ => id) (fun _ hp _ => hp)
    (hl.no_current htodo (by simp) (by simp)) (fun _ _ _ hd => hd) (fun _ _ => ⟨rfl, rfl⟩) ?_ ?_ ?_
    hi.noPanic hl.held ?_ ?_ ?_ (hsafe.flag _) ?_
  · exact fun d hd => if_neg hd
  · exact fun d _ => rfl
  · exact fun p hp => ⟨if_neg hp, if_neg fun hq => hp hq.1⟩
  · exact fun hz => absurd hz (Nat.succ_ne_zero _)
  · exact fun _ => rfl
  · simp only [Hist.push, if_true]
    omega
  · intro p hp
    have := hruns p hp
    simp only [Hist.push, Sys.setCpu, hns p hp]
    grind [Runs]

theorem Inv.exec_popOff (hi : Inv s h) (hl : Local s h c K)
    (htodo : s.todo (s.cpu c).cur = .popOff :: r) :
    Inv (exec s c (s.cpu c).cur r .popOff)
      (if (s.cpu c).sie = false ∧ 0 < (s.cpu c).noff then h.pop c (s.cpu c).cur else h) := by
  obtain ⟨hst, hsafe⟩ := hl.safe_cons htodo
  have hns := fun p => hl.not_saved htodo (by simp) (p := p)
  have hcount := hl.count
  rw [exec]
  by_cases hsie : (s.cpu c).sie = true
  · rw [if_pos hsie, if_neg (by simp [hsie])]
    exact hi.panic rfl
  rw [if_neg hsie]
  by_cases hn : (s.cpu c).noff < 1
  · rw [if_pos hn, if_neg (by omega)]
    exact hi.panic rfl
  rw [if_neg hn, if_pos ⟨by simpa using hsie, by omega⟩]
  refine hi.perform hl _ {l ∈ K | (s.cpu c).noff ≠ 1} rfl (fun _ => id) (fun _ hp _ => hp)
    (hl.no_current htodo (by simp) (by simp)) (fun _ _ _ hd => hd) (fun _ _ => ⟨rfl, rfl⟩) (fun _ _ => rfl) (fun d hd => if_neg hd) (fun p hp => ⟨if_neg hp, rfl⟩)
    hi.noPanic (fun l hl' => hl.held l hl'.1) ?_ ?_ ?_ (hsafe.flag _) ?_
  · intro hz
    have hone : (s.cpu c).noff = 1 := by
      dsimp only at hz
      omega
    simp [hone]
  · intro hpos
    dsimp only at hpos ⊢
    rw [decide_eq_false (by omega), Bool.false_and]
  · simp only [Hist.pop, if_true]
    omega
  · intro p hp
    have := hl.runs p hp
    rw [hp] at hst
    simp only [Hist.pop, Sys.setCpu, hns p hp]
    grind [Runs, Thread.status]

/-- An operation that is neither `push_off` nor `pop_off`. -/
theorem Inv.act (hi : Inv s h) (hl : Local s h c K) (k : Cpu C P) (lock : Lock P L → Option C)
    (state : P → ProcState) (saved : P → Option Bool) (K' : Set (Lock P L))
    (hk : k.cur = (s.cpu c).cur) (hnoff : k.noff = (s.cpu c).noff) (hproc : k.proc = (s.cpu c).proc)
    (hcurrent : (s.cpu c).cur = .sched c → (s.cpu c).proc = none)
    (hlock : ∀ l, ∀ d ≠ c, s.lock l = some d → lock l = some d)
    (hstate : ∀ p, (s.cpu c).cur ≠ .proc p → state p = s.state p ∧ saved p = s.saved p)
    (hheld : ∀ l ∈ K', lock l = some c) (hempty : (s.cpu c).noff = 0 → K' = ∅)
    (hquiet : 0 < (s.cpu c).noff → k.sie = false)
    (hsafe : Safe (s.cpu c).cur.owner (some k.sie) r (s.cpu c).noff K' ((s.cpu c).cur.status state))
    (hruns : ∀ p, (s.cpu c).cur = .proc p → (state p = .RUNNING ∨ .proc p ∈ K') ∧
      (∀ x, saved p = some x → ∃ r', r = .restore :: r') ∧
      ∀ b, h.before p = some b → 0 < (s.cpu c).noff → (saved p).getD k.intena = b) :
    Inv ⟨update s.cpu c k, lock, state, update s.todo (s.cpu c).cur r, saved, s.context,
      s.panicked⟩ h := by
  rw [← hnoff] at hempty hquiet hsafe
  refine hi.perform hl k K' hk (fun p hp => hproc ▸ hp) (fun p hp _ => hproc.trans hp)
    (fun hp => hproc.trans (hcurrent hp)) hlock hstate (fun _ _ => rfl) (fun _ _ => rfl)
    (fun _ _ => ⟨rfl, rfl⟩) hi.noPanic hheld hempty hquiet ?_ hsafe fun p hp => ?_
  · rw [hnoff]
    exact hl.count
  · have hr := hl.runs p hp
    obtain ⟨hlocked, hsaved, hintena⟩ := hruns p hp
    rw [hnoff, hproc]
    exact ⟨hr.myproc, hlocked, hr.depth, hsaved, hintena⟩

theorem Inv.exec_spin (hi : Inv s h) (hl : Local s h c K) {l : Lock P L}
    (htodo : s.todo (s.cpu c).cur = .spin l :: r) : Inv (exec s c (s.cpu c).cur r (.spin l)) h := by
  obtain ⟨hn, hsafe⟩ := hl.safe_cons htodo
  rw [exec]
  by_cases hfree : s.lock l = none
  · rw [if_pos hfree]
    have hnew := hi.act hl (s.cpu c) (update s.lock l (some c)) s.state s.saved
      (insert l K) rfl rfl rfl (hl.no_current htodo (by simp) (by simp)) ?_ (fun _ _ => ⟨rfl, rfl⟩) ?_ (by omega) hl.quiet
      (hsafe.flag _) ?_
    · rwa [update_eq_self] at hnew
    · grind [update_apply]
    · have hheld := hl.held
      grind [update_apply]
    · intro p hp
      have hr := hl.runs p hp
      refine ⟨hr.locked.imp id (Or.inr ·), ?_, hr.intena⟩
      rw [hl.not_saved htodo (by simp) hp]
      simp
  · rw [if_neg hfree]
    exact hi

theorem Inv.exec_free (hi : Inv s h) (hl : Local s h c K) {l : Lock P L}
    (htodo : s.todo (s.cpu c).cur = .free l :: r) : Inv (exec s c (s.cpu c).cur r (.free l)) h := by
  obtain ⟨hst, hsafe⟩ := hl.safe_cons htodo
  rw [exec]
  by_cases hlock : s.lock l = some c
  · rw [if_pos hlock]
    have hnew := hi.act hl (s.cpu c) (update s.lock l none) s.state s.saved (K \ {l}) rfl rfl rfl
      (hl.no_current htodo (by simp) (by simp)) ?_ (fun _ _ => ⟨rfl, rfl⟩) ?_ ?_ hl.quiet
      (hsafe.flag _) ?_
    · rwa [update_eq_self] at hnew
    · grind [update_apply]
    · intro l' hl'
      rw [update_of_ne hl'.2]
      exact hl.held l' hl'.1
    · intro hz
      rw [hl.empty hz, Set.empty_sdiff]
    · intro p hp
      have hr := hl.runs p hp
      rw [hp] at hst
      refine ⟨?_, ?_, hr.intena⟩
      · by_cases hlp : l = .proc p
        · exact .inl (hst p rfl hlp)
        · exact hr.locked.imp id fun hk => ⟨hk, Ne.symm hlp⟩
      · rw [hl.not_saved htodo (by simp) hp]
        simp
  · rw [if_neg hlock]
    exact hi.panic rfl

theorem Inv.exec_state (hi : Inv s h) (hl : Local s h c K) {st : ProcState}
    (htodo : s.todo (s.cpu c).cur = .state st :: r) :
    Inv (exec s c (s.cpu c).cur r (.state st)) h := by
  obtain ⟨⟨p, ho, hpK⟩, hsafe⟩ := hl.safe_cons htodo
  have hp := owner_eq_some.mp ho
  have hr := hl.runs p hp
  rw [exec, hr.myproc]
  have hnew := hi.act hl (r := r) (s.cpu c) s.lock (update s.state p st) s.saved K rfl
    rfl rfl (fun hc => absurd (hp.symm.trans hc) (by simp)) (fun _ _ _ hd => hd) ?_ hl.held hl.empty
    hl.quiet ?_ ?_
  · rwa [update_eq_self] at hnew
  · intro q hq
    have hqp : q ≠ p := fun he => hq (he ▸ hp)
    exact ⟨update_of_ne hqp .., rfl⟩
  · rw [hp] at hsafe ⊢
    rw [Thread.status, update_self]
    exact hsafe.flag _
  · intro q hq
    cases hp.symm.trans hq
    refine ⟨.inr hpK, ?_, hr.intena⟩
    rw [hl.not_saved htodo (by simp) hp]
    simp

theorem Inv.exec_restore (hi : Inv s h) (hl : Local s h c K)
    (htodo : s.todo (s.cpu c).cur = .restore :: r) :
    Inv (exec s c (s.cpu c).cur r .restore) h := by
  obtain ⟨ho, -, hsafe⟩ := hl.safe_cons htodo
  obtain ⟨p, hp⟩ := Option.ne_none_iff_exists'.mp ho
  have hp := owner_eq_some.mp hp
  have hr := hl.runs p hp
  rw [exec, hr.myproc]
  refine hi.act hl { s.cpu c with intena := (s.saved p).getD (s.cpu c).intena } s.lock s.state
    (update s.saved p none) K rfl rfl rfl (fun hc => absurd (hp.symm.trans hc) (by simp))
    (fun _ _ _ hd => hd) (fun q hq => ⟨rfl, ?_⟩) hl.held
    hl.empty hl.quiet (hsafe.flag _) fun q hq => ?_
  · have hqp : q ≠ p := fun he => hq (he ▸ hp)
    exact update_of_ne hqp ..
  · cases hp.symm.trans hq
    rw [update_self]
    exact ⟨hr.locked, by simp, hr.intena⟩

/-- What stays true of the process when only the interrupt flag of its processor changes. -/
theorem Local.keeps (hl : Local s h c K) {m : Op P L} (htodo : s.todo (s.cpu c).cur = m :: r)
    (hm : m ≠ .restore) {p : P} (hp : (s.cpu c).cur = .proc p) (hst : s.state p = .RUNNING)
    (K' : Set (Lock P L)) : (s.state p = .RUNNING ∨ .proc p ∈ K') ∧
      (∀ x, s.saved p = some x → ∃ r', r = .restore :: r') ∧
      ∀ b, h.before p = some b → 0 < (s.cpu c).noff → (s.saved p).getD (s.cpu c).intena = b := by
  have hr := hl.runs p hp
  refine ⟨.inl hst, ?_, hr.intena⟩
  rw [hl.not_saved htodo hm hp]
  simp

theorem Inv.exec_iret (hi : Inv s h) (hl : Local s h c K)
    (htodo : s.todo (s.cpu c).cur = .iret :: r) (hn : (s.cpu c).noff = 0) :
    Inv (exec s c (s.cpu c).cur r .iret) h := by
  obtain ⟨hst, hsafe⟩ := hl.safe_cons htodo
  refine hi.act hl { s.cpu c with sie := true } s.lock s.state s.saved ∅ rfl rfl rfl
    (hl.no_current htodo (by simp) (by simp)) (fun _ _ _ hd => hd) (fun _ _ => ⟨rfl, rfl⟩) (fun _ hl' => hl'.elim) (fun _ => rfl) (by omega) ?_ fun p hp => ?_
  · rw [hn, hst]
    exact hsafe
  · rw [hp] at hst
    exact hl.keeps htodo (by simp) hp hst ∅

theorem Inv.exec_idle (hi : Inv s h) (hl : Local s h c K)
    (htodo : s.todo (s.cpu c).cur = .idle :: r) : Inv (exec s c (s.cpu c).cur r .idle) h := by
  obtain ⟨ho, -, hsafe⟩ := hl.safe_cons htodo
  obtain ⟨e, he⟩ := owner_eq_none.mp ho
  cases hl.home e he
  refine hi.perform hl { s.cpu c with proc := none } K rfl (by simp) ?_ (fun _ => rfl)
    (fun _ _ _ hd => hd) (fun _ _ => ⟨rfl, rfl⟩) (fun _ _ => rfl) (fun _ _ => rfl)
    (fun _ _ => ⟨rfl, rfl⟩) hi.noPanic hl.held hl.empty hl.quiet hl.count (hsafe.flag _) ?_
  · intro p hp hst
    obtain ⟨-, r', ⟨-, hne⟩ | ⟨hr', -⟩⟩ := hl.current p he hp
    · exact absurd hst hne
    · rw [he, hr'] at htodo
      cases htodo
  · intro p hp
    rw [he] at hp
    cases hp

/-! ## Switching -/

/-- A step in which processor `c` starts or stops running process `p`. -/
theorem Inv.switch (hi : Inv s h) {s' : Sys C P L} {p : P}
    (hf : Frame (fun d => d = c) (fun q => q = p) s s' h h) (hl : Local s' h c K)
    (hp : (s.cpu c).proc = some p) (hproc : (s'.cpu c).proc = (s.cpu c).proc)
    (hold : ∀ q ≠ p, (s.cpu c).cur ≠ .proc q) (hout : (s'.cpu c).cur ≠ .proc p → Out s' h p)
    (hpanic : s'.panicked = s.panicked) : Inv s' h := by
  have hprocs : ∀ d, (s'.cpu d).proc = (s.cpu d).proc := by
    intro d
    by_cases hd : d = c
    · rw [hd, hproc]
    · rw [hf.cpu d hd]
  constructor
  case cpus =>
    intro d
    by_cases hd : d = c
    · rw [hd]
      exact ⟨K, hl⟩
    · obtain ⟨K', hK'⟩ := hi.cpus d
      exact ⟨K', hK'.frame hf hd fun q hq hqd => hd (hi.one d c p (hq ▸ hqd) hp)⟩
  case out =>
    intro q hq
    by_cases hqp : q = p
    · rw [hqp] at hq ⊢
      exact hout (hq c)
    · refine (hi.out q fun d => ?_).frame hf hqp fun d hd _ => (hprocs d).trans hd
      by_cases hd : d = c
      · rw [hd]
        exact hold q hqp
      · rw [← hf.cpu d hd]
        exact hq d
  case one =>
    intro d e q
    rw [hprocs, hprocs]
    exact hi.one d e q
  case noPanic =>
    rw [hpanic]
    exact hi.noPanic

/-- The tests of `sched` succeed. -/
theorem Inv.exec_swtch (hi : Inv s h) (hl : Local s h c K)
    (htodo : s.todo (s.cpu c).cur = .swtch :: r) : Inv (exec s c (s.cpu c).cur r .swtch) h := by
  obtain ⟨p, r', ho, hpK, hn, hst, hr', hsafe⟩ := hl.safe_cons htodo
  have hp := owner_eq_some.mp ho
  have hr := hl.runs p hp
  have hns := hl.not_saved htodo (by simp) hp
  have hsie := hl.quiet (by omega)
  rw [hp, Thread.status] at hst
  rw [hp, exec, hr.myproc]
  dsimp only
  rw [if_neg (by simp [hl.held _ hpK]), if_neg (by simp [hn]), if_neg hst, if_neg (by simp [hsie])]
  refine hi.switch (c := c) (p := p) (K := ∅) ?_ ?_ hr.myproc ?_ ?_ (fun _ => ?_) rfl
  · constructor <;> intros <;> simp_all [Sys.setCpu, Sys.setTodo, Sys.setSaved, Sys.setContext]
  · have hback := hr.back
    constructor
    case count => simpa [Sys.setCpu, Sys.setTodo] using hl.count
    case quiet => simp [Sys.setCpu, Sys.setTodo, hsie]
    case safe =>
      simp only [Sys.setCpu, Sys.setTodo, update_self]
      rw [update_of_ne (by simp), hn]
      exact hback.flag _
    case current =>
      intro q _ hq
      have hpq : p = q := by simpa [Sys.setCpu, Sys.setTodo, hr.myproc] using hq
      obtain ⟨r₀, hr₀⟩ := hr.idle
      subst hpq
      refine ⟨hl.held _ hpK, r₀, .inl ⟨?_, hst⟩⟩
      simpa [Sys.setTodo, Sys.setCpu, Sys.setSaved, Sys.setContext] using hr₀
    all_goals simp [Sys.setCpu, Sys.setTodo]
  · simp [Sys.setCpu, Sys.setTodo]
  · intro q hq
    rw [hp]
    simpa using Ne.symm hq
  · have hsafe' : Safe (some p) none r 1 {.proc p} .RUNNING := by
      rwa [hp] at hsafe
    constructor
    case stopped => exact fun hrun => absurd hrun hst
    case context => simp [Sys.setTodo, Sys.setCpu, Sys.setContext]
    case safe => simpa [Sys.setTodo] using fun _ => hsafe'
    case depth => exact fun _ => hr.depth.trans hn
    case saved => simp [Sys.setTodo, Sys.setCpu, Sys.setSaved, Sys.setContext, hr']
    case before =>
      intro _ b hb
      have hint := hr.intena b hb (by omega)
      rw [hns] at hint
      simpa [Sys.setTodo, Sys.setCpu, Sys.setSaved, Sys.setContext] using hint

/-- A process that is not `RUNNING` and whose lock another thread holds runs nowhere. -/
theorem Inv.nowhere (hi : Inv s h) {p : P} (hlock : s.lock (.proc p) = some c)
    (hst : s.state p ≠ .RUNNING) (hcur : (s.cpu c).cur ≠ .proc p) (d : C) :
    (s.cpu d).cur ≠ .proc p := by
  intro hp
  obtain ⟨K', hK'⟩ := hi.cpus d
  obtain hrun | hmem := (hK'.runs p hp).locked
  · exact hst hrun
  · have hd := hK'.held _ hmem
    rw [hlock] at hd
    cases hd
    exact hcur hp

/-- Nor has another `scheduler` such a process. -/
theorem Inv.unclaimed (hi : Inv s h) {p : P} (hlock : s.lock (.proc p) = some c)
    (hnowhere : ∀ d, (s.cpu d).cur ≠ .proc p) {d : C} (hd : d ≠ c) : (s.cpu d).proc ≠ some p := by
  intro hp
  obtain ⟨K', hK'⟩ := hi.cpus d
  cases hcur : (s.cpu d).cur with
  | sched e =>
    cases hK'.home e hcur
    have hheld := (hK'.current p hcur hp).1
    rw [hlock] at hheld
    exact hd (Option.some.inj hheld).symm
  | proc q =>
    have hq := (hK'.runs q hcur).myproc
    rw [hp] at hq
    cases hq
    exact hnowhere d hcur

/-- The thread of `scheduler` on processor `c`. -/
theorem Local.sched (hl : Local s h c K) (ho : (s.cpu c).cur.owner = none) :
    (s.cpu c).cur = .sched c := by
  obtain ⟨e, he⟩ := owner_eq_none.mp ho
  rw [he, hl.home e he]

theorem Inv.exec_dispatch (hi : Inv s h) (hl : Local s h c K) {p : P}
    (htodo : s.todo (s.cpu c).cur = .dispatch p :: r) :
    Inv (exec s c (s.cpu c).cur r (.dispatch p)) h := by
  obtain ⟨ho, hn, hpK, hsafe⟩ := hl.safe_cons htodo
  have he := hl.sched ho
  have hnone := hl.no_current htodo (by simp) (by simp) he
  rw [ho] at hsafe
  rw [exec]
  by_cases hst : s.state p = .RUNNABLE
  · rw [if_pos hst, he]
    have hlock := hl.held _ hpK
    have hnowhere := hi.nowhere hlock (by simp [hst]) (by simp [he])
    have hfree : ∀ d, (s.cpu d).proc ≠ some p := by
      intro d hd
      by_cases hdc : d = c
      · rw [hdc, hnone] at hd
        cases hd
      · exact hi.unclaimed hlock hnowhere hdc hd
    have hout := hi.out p hnowhere
    have hone := hi.one
    refine hi.stay (B := fun d => d = c) (A := fun q => q = p) ?_ ?_ (fun d q _ hq => hq ▸ hfree d) ?_ ?_
      (fun d hd => ⟨K, ?_⟩) (fun q hq _ => ?_) hi.noPanic
    · constructor <;> intros <;> simp_all [Sys.setCpu, Sys.setTodo, Sys.setState]
    · intro d
      simp only [Sys.setCpu, Sys.setTodo, Sys.setState]
      grind [update_apply]
    · intro d e q
      simp only [Sys.setCpu, Sys.setTodo, Sys.setState]
      grind [update_apply]
    · intro d q hd hrun
      simp only [Sys.setCpu, Sys.setTodo, Sys.setState]
      grind [update_apply]
    · rw [hd]
      constructor
      case held => exact hl.held
      case empty => simp [Sys.setCpu, Sys.setTodo, hn]
      case quiet => simpa [Sys.setCpu, Sys.setTodo] using hl.quiet
      case count => simpa [Sys.setCpu, Sys.setTodo] using hl.count
      case safe =>
        simp only [Sys.setCpu, Sys.setTodo, Sys.setState, update_self, he, hn]
        simpa [release, Safe, Thread.owner] using hsafe
      case runs => simp [Sys.setCpu, Sys.setTodo, Sys.setState, he]
      case home => simp [Sys.setCpu, Sys.setTodo, Sys.setState, he]
      case current =>
        intro q _ hq
        have hpq : p = q := by simpa [Sys.setCpu, Sys.setTodo, Sys.setState] using hq
        subst hpq
        refine ⟨hlock, .idle :: release (.proc p) ++ r, .inr ⟨?_, ?_⟩⟩
        · simp [Sys.setTodo]
        · simp [Sys.setCpu, Sys.setTodo, Sys.setState]
    · subst hq
      constructor
      case stopped => exact fun _ => ⟨c, by simp [Sys.setCpu, Sys.setTodo, Sys.setState]⟩
      case context =>
        simpa [Sys.setCpu, Sys.setTodo, Sys.setState] using hout.context (by simp [hst])
      case safe =>
        simpa [Sys.setCpu, Sys.setTodo, Sys.setState] using hout.safe (by simp [hst])
      case depth => exact fun _ => hout.depth (by simp [hst])
      case saved => simpa [Sys.setCpu, Sys.setTodo, Sys.setState] using hout.saved
      case before => exact fun _ => hout.before (by simp [hst])
  · rw [if_neg hst]
    refine hi.setTodo hl (fun _ => hnone) (fun q hq => by rw [he] at hq; cases hq) ?_
    rw [he, hn]
    simp only [release, List.cons_append, List.nil_append, Safe, Thread.owner, Thread.status]
    simpa using hsafe.flag _

theorem Inv.exec_enter (hi : Inv s h) (hl : Local s h c K)
    (htodo : s.todo (s.cpu c).cur = .enter :: r) : Inv (exec s c (s.cpu c).cur r .enter) h := by
  obtain ⟨ho, hn, ⟨r', hr'⟩, hsafe⟩ := hl.safe_cons htodo
  have he := hl.sched ho
  rw [ho] at hsafe
  rw [exec]
  cases hproc : (s.cpu c).proc with
  | none => exact hi.panic rfl
  | some p =>
    obtain ⟨hlock, r₀, ⟨hr₀, -⟩ | ⟨-, hst⟩⟩ := hl.current p he hproc
    · rw [he, hr₀] at htodo
      cases htodo
    have hnowhere : ∀ d, (s.cpu d).cur ≠ .proc p := by
      intro d hd
      cases hi.one d c p (hi.proc_cur hd) hproc
      rw [he] at hd
      cases hd
    have hout := hi.out p hnowhere
    dsimp only
    rw [hout.context (by simp [hst]), he]
    refine hi.switch (c := c) (p := p) (K := {.proc p}) ?_ ?_ hproc ?_ (fun q _ => ?_) (fun hne => ?_) rfl
    · constructor <;> intros <;> simp_all [Sys.setCpu, Sys.setTodo]
    · constructor
      case held => simpa [Sys.setTodo, Sys.setCpu] using hlock
      case empty => simp [Sys.setCpu, Sys.setTodo, hn]
      case quiet => simpa [Sys.setCpu, Sys.setTodo] using hl.quiet
      case count => simpa [Sys.setCpu, Sys.setTodo] using hl.count
      case safe =>
        have hrun := hout.safe (by simp [hst])
        simp only [Sys.setCpu, Sys.setTodo, update_self]
        rw [update_of_ne (by simp), update_self, hn, Thread.status, hst]
        exact hrun.flag _
      case runs =>
        intro q hq
        have hqp : p = q := by simpa [Sys.setCpu, Sys.setTodo] using hq
        subst hqp
        constructor
        case myproc => simp [Sys.setCpu, Sys.setTodo, hproc]
        case locked => exact .inl hst
        case depth => simpa [Sys.setCpu, Sys.setTodo, hn] using hout.depth (by simp [hst])
        case idle => exact ⟨r', by simp [Sys.setTodo, hr']⟩
        case back => simpa [Sys.setTodo] using hsafe
        case saved => simpa [Sys.setCpu, Sys.setTodo] using hout.saved
        case intena =>
          intro b hb _
          have hsaved := hout.before (by simp [hst]) b hb
          simp [Sys.setCpu, Sys.setTodo, hsaved]
      all_goals simp [Sys.setCpu, Sys.setTodo]
    · simp [Sys.setCpu, Sys.setTodo]
    · simp [he]
    · simp [Sys.setCpu, Sys.setTodo] at hne

/-! ## Steps and runs -/

theorem Inv.go (hi : Inv s h) {s' : Sys C P L} (hstep : step s (.go c) = some s') :
    Inv s' (note s h (.go c)) := by
  obtain ⟨K, hl⟩ := hi.cpus c
  rw [step] at hstep
  split at hstep
  · rename_i m r hp htodo
    split at hstep
    · cases hstep
    · rename_i hiret
      cases hstep
      rw [note, htodo]
      cases m with
      | get =>
        exact hi.setTodo hl (hl.no_current htodo (by simp) (by simp))
          (fun p hp => hl.not_saved htodo (by simp) hp) ⟨rfl, hl.safe_cons htodo⟩
      | off x => exact hi.exec_off hl htodo
      | holding l =>
        have hsafe := hl.safe_cons htodo
        rw [exec]
        split
        · exact hi.panic rfl
        · exact hi.setTodo hl (hl.no_current htodo (by simp) (by simp))
            (fun p hp => hl.not_saved htodo (by simp) hp) (Safe.flag hsafe _)
      | spin l => exact hi.exec_spin hl htodo
      | free l => exact hi.exec_free hl htodo
      | popOff => exact hi.exec_popOff hl htodo
      | state st => exact hi.exec_state hl htodo
      | swtch => exact hi.exec_swtch hl htodo
      | restore => exact hi.exec_restore hl htodo
      | iret => exact hi.exec_iret hl htodo (by simpa using hiret)
      | dispatch p => exact hi.exec_dispatch hl htodo
      | enter => exact hi.exec_enter hl htodo
      | idle => exact hi.exec_idle hl htodo
  · cases hstep

/-- A thread that can make a call is that of a `RUNNING` process, if of any. -/
theorem Local.caller (hl : Local s h c K) (hidle : idling (s.todo (s.cpu c).cur) = true) :
    (s.cpu c).cur.status s.state = .RUNNING ∧ (∀ p, (s.cpu c).cur = .proc p → s.saved p = none) ∧
      ((s.cpu c).cur = .sched c → (s.cpu c).proc = none) ∧
      ∀ b n K, Safe (s.cpu c).cur.owner b (s.todo (s.cpu c).cur) n K .RUNNING := by
  obtain ⟨hst, hsafe⟩ := hl.safe.idling hidle
  refine ⟨hst, fun p hp => ?_, fun hp => ?_, hsafe⟩
  · cases hx : s.saved p with
    | none => rfl
    | some x =>
      obtain ⟨r', hr'⟩ := (hl.runs p hp).saved x hx
      rw [hp, hr'] at hidle
      cases hidle
  · cases hproc : (s.cpu c).proc with
    | none => rfl
    | some p =>
      obtain ⟨-, r', ⟨hr', -⟩ | ⟨hr', -⟩⟩ := hl.current p hp hproc <;>
        rw [hp, hr'] at hidle <;>
        cases hidle

/-- A process that no processor has gets another state. -/
theorem Inv.setState (hi : Inv s h) {p : P} {st : ProcState} (hp : ∀ d, (s.cpu d).proc ≠ some p)
    (hused : s.state p ≠ .UNUSED) (hst : st ≠ .RUNNING) : Inv (s.setState p st) h := by
  have hout := hi.out p fun d hd => hp d (hi.proc_cur hd)
  refine hi.stay (B := fun _ => False) (A := fun q => q = p) ?_ (fun _ => rfl)
    (fun d q _ hq => hq ▸ hp d) hi.one (fun _ _ hq _ => hq) (fun _ => False.elim) (fun q hq _ => ?_)
    hi.noPanic
  · constructor <;> intros <;> simp_all [Sys.setState]
  · subst hq
    refine ⟨?_, fun _ => hout.context hused, fun _ => hout.safe hused, fun _ => hout.depth hused,
      hout.saved, fun _ => hout.before hused⟩
    simp [Sys.setState, hst]

theorem Inv.allocproc (hi : Inv s h) {p : P} (hp : ∀ d, (s.cpu d).proc ≠ some p) :
    Inv ((((s.setState p .USED).setSaved p none).setContext p (forkret p)).setTodo (.proc p)
      (forkret p)) (h.fresh p) := by
  refine hi.stay (B := fun _ => False) (A := fun q => q = p) ?_ (fun _ => rfl)
    (fun d q _ hq => hq ▸ hp d) hi.one (fun _ _ hq _ => hq) (fun _ => False.elim) (fun q hq _ => ?_)
    hi.noPanic
  · constructor <;> intros <;>
      simp_all [Sys.setState, Sys.setSaved, Sys.setTodo, Sys.setContext, Hist.fresh]
  · subst hq
    constructor <;> simp [Sys.setState, Sys.setSaved, Sys.setTodo, Sys.setContext, Hist.fresh, forkret,
      myproc, pushOff, release, Safe]

theorem Inv.call (hi : Inv s h) {f : Call P L} {s' : Sys C P L}
    (hstep : step s (.call c f) = some s') : Inv s' (note s h (.call c f)) := by
  obtain ⟨K, hl⟩ := hi.cpus c
  rw [step] at hstep
  split at hstep
  case isFalse => cases hstep
  rename_i hok
  obtain ⟨hst, hsaved, hcurrent, hsafe⟩ := hl.caller hok.2
  have hset := fun r => hi.setTodo (r := r) hl hcurrent hsaved
  rw [hst] at hset
  -- no processor has a process other than `RUNNING` whose lock the caller holds
  have hother : ∀ p, s.lock (.proc p) = some c → s.state p ≠ .RUNNING →
      ∀ d, (s.cpu d).proc ≠ some p := by
    intro p hlock hne d hd
    have hcur : (s.cpu c).cur ≠ .proc p := by
      intro hp
      rw [hp] at hst
      exact hne hst
    by_cases hdc : d = c
    · rw [hdc] at hd
      cases hc : (s.cpu c).cur with
      | sched e =>
        rw [hcurrent (by rw [hc, hl.home e hc])] at hd
        cases hd
      | proc q =>
        cases (hi.proc_cur hc).symm.trans hd
        exact hcur hc
    · exact hi.unclaimed hlock (hi.nowhere hlock hne hcur) hdc hd
  have hne : ∀ {l : Lock P L} {p : P}, s.lock l = some c → s.lock (.proc p) ≠ some c → l ≠ .proc p :=
    fun hl' hp he => hp (he ▸ hl')
  generalize hcur : (s.cpu c).cur = t at hstep hset hsafe
  cases f with
  | pushOff =>
    cases hstep
    exact hset _ (hsafe none _ _)
  | popOff =>
    cases hstep
    exact hset _ ⟨fun _ => rfl, hsafe none _ _⟩
  | acquire l =>
    cases hstep
    exact hset _ (safe_acquire hsafe l)
  | release l =>
    cases hstep
    exact hset _ (safe_release hsafe l)
  | intr on =>
    obtain ⟨⟨hnil, hn⟩, hs'⟩ := Option.ite_none_right_eq_some.mp hstep
    cases hs'
    have hnew := hi.act hl { s.cpu c with sie := on } s.lock s.state s.saved K rfl rfl rfl hcurrent
      (fun _ _ _ hd => hd) (fun _ _ => ⟨rfl, rfl⟩) hl.held hl.empty (by omega) (r := []) hst fun p hp => ?_
    · rw [← hnil, ← hcur, update_eq_self] at hnew
      exact hnew
    · have hr := hl.runs p hp
      refine ⟨hr.locked, ?_, hr.intena⟩
      rw [hsaved p hp]
      simp
  | yield =>
    cases t with
    | sched e => cases hstep
    | proc p =>
      obtain ⟨⟨hn, -⟩, hs'⟩ := Option.ite_none_right_eq_some.mp hstep
      cases hs'
      rw [hn] at hset
      exact hset _ (safe_yield hsafe rfl)
  | sleep lk =>
    cases t with
    | sched e => cases hstep
    | proc p =>
      obtain ⟨⟨hn, hlk, hp⟩, hs'⟩ := Option.ite_none_right_eq_some.mp hstep
      cases hs'
      rw [hn] at hset
      exact hset _ (safe_sleep hsafe rfl (hne hlk hp))
  | exit wait =>
    cases t with
    | sched e => cases hstep
    | proc p =>
      obtain ⟨⟨hn, hlk, hp⟩, hs'⟩ := Option.ite_none_right_eq_some.mp hstep
      cases hs'
      rw [hn] at hset
      exact hset _ (safe_exit hsafe rfl (hne hlk hp))
  | turn p =>
    cases t with
    | proc q => cases hstep
    | sched e =>
      obtain ⟨⟨-, hn⟩, hs'⟩ := Option.ite_none_right_eq_some.mp hstep
      cases hs'
      rw [hn] at hset
      refine hset _ ?_
      simp [turn, acquire, pushOff, Safe, Thread.owner]
  | wakeup p =>
    obtain ⟨⟨hlk, hp⟩, hs'⟩ := Option.ite_none_right_eq_some.mp hstep
    cases hs'
    exact hi.setState (hother p hlk (by simp [hp])) (by simp [hp]) (by decide)
  | fork p =>
    obtain ⟨⟨hlk, hp⟩, hs'⟩ := Option.ite_none_right_eq_some.mp hstep
    cases hs'
    exact hi.setState (hother p hlk (by simp [hp])) (by simp [hp]) (by decide)
  | freeproc p =>
    obtain ⟨⟨hlk, hp⟩, hs'⟩ := Option.ite_none_right_eq_some.mp hstep
    cases hs'
    exact hi.setState (hother p hlk (by grind)) (by grind) (by decide)
  | allocproc p =>
    obtain ⟨⟨hlk, hp⟩, hs'⟩ := Option.ite_none_right_eq_some.mp hstep
    cases hs'
    exact hi.allocproc (hother p hlk (by simp [hp]))

theorem Inv.interrupt (hi : Inv s h) {s' : Sys C P L}
    (hstep : step s (.interrupt c) = some s') : Inv s' (note s h (.interrupt c)) := by
  obtain ⟨K, hl⟩ := hi.cpus c
  obtain ⟨⟨-, hsie⟩, hs'⟩ := Option.ite_none_right_eq_some.mp hstep
  cases hs'
  have hn : (s.cpu c).noff = 0 := by
    by_contra hpos
    have hoff := hl.quiet (by omega)
    rw [hsie] at hoff
    cases hoff
  have hK := hl.empty hn
  have hsafe := hl.safe
  rw [hsie, hn, hK] at hsafe
  have hst : (s.cpu c).cur.status s.state = .RUNNING := by
    cases hcur : (s.cpu c).cur with
    | sched e => rfl
    | proc p => exact (hl.runs p hcur).locked.resolve_right (by simp [hK])
  refine hi.act hl { s.cpu c with sie := false } s.lock s.state s.saved K rfl rfl rfl (fun hp => ?_)
    (fun _ _ _ hd => hd) (fun _ _ => ⟨rfl, rfl⟩) hl.held hl.empty (fun _ => rfl) ⟨hst, hst ▸ hsafe⟩
    fun p hp => ?_
  · cases hproc : (s.cpu c).proc with
    | none => rfl
    | some p =>
      obtain ⟨-, r', ⟨hr', -⟩ | ⟨hr', -⟩⟩ := hl.current p hp hproc <;> rw [hp, hr'] at hsafe
      · exact absurd hsafe.2.1 (Nat.lt_irrefl 0)
      · cases hsafe.2.1
  · have hr := hl.runs p hp
    refine ⟨hr.locked, fun x hx => ?_, hr.intena⟩
    obtain ⟨r', hr'⟩ := hr.saved x hx
    rw [hp, hr'] at hsafe
    exact absurd hsafe.2.1 (Nat.lt_irrefl 0)

theorem Inv.keep {a : Act C P L} {s' : Sys C P L} (hi : Inv s h) (hstep : step s a = some s') :
    Inv s' (note s h a) := by
  cases a with
  | go c => exact hi.go hstep
  | call c f => exact hi.call hstep
  | interrupt c => exact hi.interrupt hstep

theorem inv_start (sie intena : C → Bool) : Inv (start sie intena : Sys C P L × Hist C P).1
    (start sie intena : Sys C P L × Hist C P).2 where
  cpus c := by
    refine ⟨∅, fun _ hl => hl.elim, fun _ => rfl, fun hn => absurd hn (Nat.lt_irrefl 0), rfl, rfl, ?_, ?_,
      ?_⟩
    · intro p hp
      cases hp
    · intro d hd
      cases hd
      rfl
    · intro p _ hp
      cases hp
  out p _ := by
    constructor
    case stopped =>
      intro hst
      cases hst
    case saved =>
      intro x hx
      cases hx
    all_goals exact fun hu => absurd rfl hu
  one c d p hp := by cases hp
  noPanic m hm := by cases hm

theorem noff_update (f : C → Cpu C P) (c d : C) {k : Cpu C P} (hk : (f c).noff ≤ k.noff) :
    (f d).noff ≤ (update f c k d).noff := by
  by_cases hd : d = c
  · rw [hd, update_self]
    exact hk
  · rw [update_of_ne hd]

/-- Only `pop_off` lowers `noff`. -/
theorem noff_exec (d : C) (t : Thread C P) {m : Op P L} (hm : m ≠ .popOff) :
    (s.cpu d).noff ≤ ((exec s c t r m).cpu d).noff := by
  cases m with
  | popOff => exact absurd rfl hm
  | off x => exact noff_update s.cpu c d (Nat.le_succ _)
  | get => exact Nat.le_refl _
  | _ =>
    rw [exec]
    repeat' split
    all_goals first
      | exact Nat.le_refl _
      | (refine noff_update s.cpu c d ?_; exact Nat.le_refl _)

theorem noff_call {t : Thread C P} {f : Call P L} {s' : Sys C P L} (hcall : call s c t f = some s')
    (d : C) : (s.cpu d).noff ≤ (s'.cpu d).noff := by
  cases f <;> cases t <;>
    simp only [call, Option.ite_none_right_eq_some, Option.some.injEq, reduceCtorEq] at hcall
  all_goals first
    | (subst hcall; exact Nat.le_refl _)
    | (obtain ⟨-, rfl⟩ := hcall; exact Nat.le_refl _)
    | (obtain ⟨-, rfl⟩ := hcall; refine noff_update s.cpu c d ?_; exact Nat.le_refl _)

theorem Inv.popped (hi : Inv s h) {p : P} {b : Bool} {d : C} {k : Cpu C P}
    (hp : (s.cpu c).cur = .proc p) (hb : h.before p = some b) (hn : 0 < (s.cpu c).noff)
    (hk : k.sie = (decide (k.noff = 0) && (s.cpu d).intena))
    (hz : (update s.cpu d k c).noff = 0) (htodo : s.todo (s.cpu d).cur = .popOff :: r) :
    (update s.cpu d k c).sie = b := by
  by_cases hd : c = d
  · subst hd
    obtain ⟨K, hl⟩ := hi.cpus c
    have hintena := (hl.runs p hp).intena b hb hn
    rw [hl.not_saved htodo (by simp) hp] at hintena
    rw [update_self] at hz ⊢
    rw [hk, hz]
    simpa using hintena
  · rw [update_of_ne hd] at hz
    omega

/-- The outermost `pop_off` of a process gives back the flag from before its outermost `push_off`. -/
theorem Inv.outermost (hi : Inv s h) {s' : Sys C P L} {a : Act C P L} (hstep : step s a = some s')
    {p : P} {b : Bool} (hp : (s.cpu c).cur = .proc p) (hb : h.before p = some b)
    (hn : 0 < (s.cpu c).noff) (hz : (s'.cpu c).noff = 0) : (s'.cpu c).sie = b := by
  by_contra hne
  have hlow : ¬(s.cpu c).noff ≤ (s'.cpu c).noff := by omega
  cases a with
  | call d f =>
    rw [step] at hstep
    split at hstep
    · exact hlow (noff_call hstep c)
    · cases hstep
  | interrupt d =>
    obtain ⟨-, hs'⟩ := Option.ite_none_right_eq_some.mp hstep
    cases hs'
    refine hlow (noff_update s.cpu d c ?_)
    exact Nat.le_refl _
  | go d =>
    rw [step] at hstep
    split at hstep
    · rename_i m r hpanic htodo
      split at hstep
      · cases hstep
      · cases hstep
        by_cases hm : m = .popOff
        · subst hm
          rw [exec] at hne hz hlow
          split at hlow
          · exact hlow (Nat.le_refl _)
          · split at hlow
            · exact hlow (Nat.le_refl _)
            · rename_i hsie hpos
              rw [if_neg hsie, if_neg hpos] at hne hz
              exact hne (hi.popped hp hb hn rfl hz htodo)
        · exact hlow (noff_exec c _ hm)
    · cases hstep

end

variable [DecidableEq C] [DecidableEq P] [DecidableEq L]

/-- In every run `noff` counts the calls of `push_off` that are not matched yet, interrupts are off
while there are any, the last `pop_off` of a process gives its interrupt flag back, and `sched` never
panics. -/
theorem interrupts_nest (sie intena : C → Bool) (as : List (Act C P L)) {x : Sys C P L × Hist C P}
    (hrun : run track (start sie intena) as = some x) :
    (∀ c, (x.1.cpu c).noff + x.2.pops c = x.2.pushes c) ∧
      (∀ c, 0 < (x.1.cpu c).noff → (x.1.cpu c).sie = false) ∧
      (∀ c p b a y, track x a = some y → (x.1.cpu c).cur = .proc p → x.2.before p = some b →
        0 < (x.1.cpu c).noff → (y.1.cpu c).noff = 0 → (y.1.cpu c).sie = b) ∧
      ∀ m, x.1.panicked = some m → m.inSched = false := by
  have hi : Inv x.1 x.2 := by
    refine run_invariant (I := fun x : Sys C P L × Hist C P => Inv x.1 x.2) ?_ (inv_start sie intena) hrun
    intro x a y hi hstep
    obtain ⟨s', hs', rfl⟩ := Option.map_eq_some_iff.mp hstep
    exact hi.keep hs'
  refine ⟨fun c => ?_, fun c => ?_, fun c p b a y hstep hp hb hn hz => ?_, hi.noPanic⟩
  · obtain ⟨K, hl⟩ := hi.cpus c
    exact hl.count
  · obtain ⟨K, hl⟩ := hi.cpus c
    exact hl.quiet
  · obtain ⟨s', hs', rfl⟩ := Option.map_eq_some_iff.mp hstep
    exact hi.outermost hs' hp hb hn hz

/-- A process is set up and started on one processor, gives it up with interrupts on, and goes on
on the other one. -/
def crossing : List (Act Bool Unit Empty) :=
  [.call false (.acquire (.proc ()))] ++ List.replicate 4 (.go false) ++
    [.call false (.allocproc ()), .call false (.fork ()), .call false (.release (.proc ()))] ++
    List.replicate 2 (.go false) ++ [.call false (.turn ())] ++ List.replicate 11 (.go false) ++
    [.call false (.intr true), .call false .yield] ++ List.replicate 15 (.go false) ++
    [.call true (.turn ())] ++ List.replicate 8 (.go true)

theorem interrupts_nest_crossing : ∃ x y,
    run track (start (fun _ => false) fun _ => false) crossing = some x ∧
      track x (.go true) = some y ∧ (y.1.cpu true).noff = 0 ∧ (y.1.cpu true).sie = true := by
  have hok : ((run track (start (fun _ => false) fun _ => false) crossing).bind fun x =>
      (track x (.go true)).map fun y => ((x.1.cpu true).cur, x.2.before (), (x.1.cpu true).noff,
        (y.1.cpu true).noff)) = some (.proc (), some true, 1, 0) := by decide +kernel
  obtain ⟨x, hrun, hx⟩ := Option.bind_eq_some_iff.mp hok
  obtain ⟨y, hstep, hy⟩ := Option.map_eq_some_iff.mp hx
  obtain ⟨hcur, hbefore, hone, hzero⟩ : (x.1.cpu true).cur = .proc () ∧ x.2.before () = some true ∧
      (x.1.cpu true).noff = 1 ∧ (y.1.cpu true).noff = 0 := by simpa using hy
  have hsie := (interrupts_nest _ _ crossing hrun).2.2.1 true () true (.go true) y hstep hcur hbefore
    (by omega) hzero
  exact ⟨x, y, hrun, hstep, hzero, hsie⟩

end Xv6.Intr
