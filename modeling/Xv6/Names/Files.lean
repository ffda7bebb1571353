import Xv6.Names.Calls
import Xv6.Names.Walk

/-!
# References to files

`Inv held S w` is what holds between the routines of a call: the inodes have the references of the
open files, of the processes and of the call; the file `f` has `S f` references; a file without
references is closed; and the ends of the pipes are those of the open files. When a call has ended,
`S` is the number of descriptors.
-/
namespace Xv6.Names

set_option autoImplicit false

open Lib.Hoare Function

/-- The descriptors of a process that point to a file. -/
def row (ofile : Fin NOFILE → Option FileId) (f : FileId) : Nat := ∑ fd, one f (ofile fd)

/-- The descriptors that point to a file. -/
def slots (w : World) (f : FileId) : Nat := ∑ p, row (w.proc p).ofile f

/-- `readopen` or `writeopen`. -/
def Pipe.isOpen (x : Pipe) (writable : Bool) : Bool := if writable then x.writeopen else x.readopen

/-- A pipe is there while one of its ends is, and each end is one open file. -/
structure Pipes (F : FileId → File) (pipe : Nat → Option Pipe) (npipe : Nat) : Prop where
  fresh : ∀ pi, npipe ≤ pi → pipe pi = none
  opened : ∀ pi x, pipe pi = some x → x.readopen = true ∨ x.writeopen = true
  ends : ∀ pi writable, (∃ f, (F f).kind = .pipe pi writable) ↔
    ∃ x, pipe pi = some x ∧ x.isOpen writable = true
  uniq : ∀ pi writable f g, (F f).kind = .pipe pi writable → (F g).kind = .pipe pi writable → f = g

/-- The references of inodes and files. -/
structure Core (held : Held) (S : FileId → Nat) (w : World) : Prop where
  inodes : At w held w
  refs : ∀ f, (w.ftable f).ref = S f
  closed : ∀ f, S f = 0 → (w.ftable f).kind = .none
  idle : ∀ p, (w.proc p).state ≠ .live → (w.proc p).cwd = none ∧ (w.proc p).ofile = fun _ => none

structure Inv (held : Held) (S : FileId → Nat) (w : World) : Prop extends Core held S w where
  pipes : Pipes w.ftable w.pipe w.npipe

/-- One reference more to a file. -/
def bump (S : FileId → Nat) (f : FileId) : FileId → Nat := update S f (S f + 1)

section Sums

variable {w : World} {f : FileId}

theorem bump_apply (S : FileId → Nat) (f g : FileId) : bump S f g = S g + one g (some f) := by
  unfold bump one
  by_cases hg : g = f
  · subst hg
    rw [update_self, if_pos rfl]
  · rw [update_of_ne hg, if_neg (fun h => hg (Option.some.inj h).symm)]
    rfl

theorem bump_comm (S : FileId → Nat) (f g : FileId) : bump (bump S f) g = bump (bump S g) f := by
  funext x
  simp only [bump_apply]
  omega

theorem bump_injective {S S' : FileId → Nat} {f : FileId} (h : bump S f = bump S' f) : S = S' := by
  funext g
  have hg := congrFun h g
  rw [bump_apply, bump_apply] at hg
  exact Nat.add_right_cancel hg

theorem baseRefs_setFile (w : World) (f : FileId) (x : File) (ip : Id) :
    baseRefs { w with ftable := update w.ftable f x } ip +
      one ip (w.ftable f).kind.holds = baseRefs w ip + one ip x.kind.holds := by
  have hsum := Lib.sum_update (fun x : File => one ip x.kind.holds) w.ftable f x
  unfold baseRefs
  dsimp only
  omega

theorem baseRefs_setProc (w : World) (p : Pid) (x : Proc) (ip : Id) :
    baseRefs { w with proc := update w.proc p x } ip + one ip (w.proc p).cwd =
      baseRefs w ip + one ip x.cwd := by
  have hsum := Lib.sum_update (fun x : Proc => one ip x.cwd) w.proc p x
  unfold baseRefs
  dsimp only
  omega

theorem slots_setProc (w : World) (p : Pid) (x : Proc) (f : FileId) :
    slots { w with proc := update w.proc p x } f + row (w.proc p).ofile f =
      slots w f + row x.ofile f :=
  Lib.sum_update (fun x : Proc => row x.ofile f) w.proc p x

theorem row_update (ofile : Fin NOFILE → Option FileId) (fd : Fin NOFILE) (x : Option FileId)
    (f : FileId) :
    row (update ofile fd x) f + one f (ofile fd) = row ofile f + one f x :=
  Lib.sum_update (one f) ofile fd x

/-- The process with another file for a descriptor. -/
def Proc.withOfile (x : Proc) (fd : Fin NOFILE) (f : Option FileId) : Proc :=
  { x with ofile := update x.ofile fd f }

theorem slots_setOfile (w : World) (p : Pid) (fd : Fin NOFILE) (x : Option FileId) (f : FileId) :
    slots { w with proc := update w.proc p ((w.proc p).withOfile fd x) } f +
      one f ((w.proc p).ofile fd) = slots w f + one f x := by
  have hslots := slots_setProc w p ((w.proc p).withOfile fd x) f
  have hrow := row_update (w.proc p).ofile fd x f
  unfold Proc.withOfile at hslots ⊢
  dsimp only at hslots
  omega

theorem slots_ne_zero {p : Pid} {fd : Fin NOFILE} (h : (w.proc p).ofile fd = some f) :
    slots w f ≠ 0 := by
  have hrow := Lib.le_sum (one f) (w.proc p).ofile fd
  have hslots := Lib.le_sum (fun x : Proc => row x.ofile f) w.proc p
  rw [h, one_self] at hrow
  unfold slots
  unfold row at hslots ⊢
  omega

end Sums

section Pipes

variable {F : FileId → File} {pipe : Nat → Option Pipe} {npipe : Nat} {f : FileId} {x : File}

theorem Pipes.congr {F' : FileId → File} (h : Pipes F pipe npipe)
    (hkind : ∀ f, (F' f).kind = (F f).kind) : Pipes F' pipe npipe where
  fresh := h.fresh
  opened := h.opened
  ends := by
    simp only [hkind]
    exact h.ends
  uniq := by
    simp only [hkind]
    exact h.uniq

/-- A file changes that is not a pipe and does not become one. -/
theorem Pipes.set (h : Pipes F pipe npipe) (hf : ∀ pi writable, (F f).kind ≠ .pipe pi writable)
    (hx : ∀ pi writable, x.kind ≠ .pipe pi writable) :
    Pipes (update F f x) pipe npipe := by
  have hkind : ∀ g pi writable, (update F f x g).kind = .pipe pi writable ↔
      (F g).kind = .pipe pi writable := by
    intro g pi writable
    by_cases hg : g = f
    · subst hg
      rw [update_self]
      exact ⟨fun h => absurd h (hx pi writable), fun h => absurd h (hf pi writable)⟩
    · rw [update_of_ne hg]
  refine ⟨h.fresh, h.opened, ?_, ?_⟩
  · simp only [hkind]
    exact h.ends
  · simp only [hkind]
    exact h.uniq

/-- After `shut` the other end is as before. -/
theorem Pipe.shut_isOpen (x : Pipe) (writable other : Bool) :
    (∃ y, x.shut writable = some y ∧ y.isOpen other = true) ↔
      other ≠ writable ∧ x.isOpen other = true := by
  obtain ⟨r, w⟩ := x
  cases r <;> cases w <;> cases writable <;> cases other <;> simp [Pipe.shut, Pipe.isOpen]

theorem Pipe.shut_opened {x y : Pipe} {writable : Bool} (h : x.shut writable = some y) :
    y.readopen = true ∨ y.writeopen = true := by
  obtain ⟨r, w⟩ := x
  cases r <;> cases w <;> cases writable <;> simp [Pipe.shut] at h <;> simp [← h]

/-- An end is closed with its file. -/
theorem Pipes.close (h : Pipes F pipe npipe) {pi : Nat} {writable : Bool}
    (hf : (F f).kind = .pipe pi writable) (hx : x.kind = .none) :
    Pipes (update F f x)
      (update pipe pi ((pipe pi).bind fun y => y.shut writable)) npipe := by
  obtain ⟨y, hy, -⟩ := (h.ends pi writable).mp ⟨f, hf⟩
  have hkind : ∀ g pi' other, (update F f x g).kind = .pipe pi' other ↔
      (F g).kind = .pipe pi' other ∧ ¬(pi' = pi ∧ other = writable) := by
    intro g pi' other
    by_cases hg : g = f
    · subst hg
      rw [update_self, hx, hf]
      simp
      grind
    · rw [update_of_ne hg, iff_self_and]
      intro hk hsame
      rw [hsame.1, hsame.2] at hk
      exact hg (h.uniq pi writable g f hk hf)
  rw [hy, Option.bind_some]
  refine ⟨?_, ?_, ?_, ?_⟩
  · intro pi' hpi'
    have hne : pi' ≠ pi := by
      intro heq
      rw [← heq, h.fresh pi' hpi'] at hy
      cases hy
    rw [update_of_ne hne]
    exact h.fresh pi' hpi'
  · intro pi' z hz
    by_cases hp : pi' = pi
    · subst hp
      rw [update_self] at hz
      exact Pipe.shut_opened hz
    · rw [update_of_ne hp] at hz
      exact h.opened pi' z hz
  · intro pi' other
    simp only [hkind, exists_and_right, h.ends]
    by_cases hp : pi' = pi
    · subst hp
      rw [update_self, Pipe.shut_isOpen, hy]
      simp [and_comm]
    · rw [update_of_ne hp]
      simp [hp]
  · intro pi' other g g' hg hg'
    exact h.uniq pi' other g g' ((hkind g pi' other).mp hg).1 ((hkind g' pi' other).mp hg').1

/-- Two files become the ends of a new pipe. -/
theorem Pipes.make (h : Pipes F pipe npipe) {f0 f1 : FileId} {x0 x1 : File} (hne : f0 ≠ f1)
    (hf0 : (F f0).kind = .none) (hf1 : (F f1).kind = .none)
    (hx0 : x0.kind = .pipe npipe false) (hx1 : x1.kind = .pipe npipe true) :
    Pipes (update (update F f0 x0) f1 x1)
      (update pipe npipe (some ⟨true, true⟩)) (npipe + 1) := by
  have hkind : ∀ g pi other,
      (update (update F f0 x0) f1 x1 g).kind = .pipe pi other ↔
        pi = npipe ∧ g = (if other then f1 else f0) ∨ pi ≠ npipe ∧ (F g).kind = .pipe pi other := by
    intro g pi other
    have hold : (F g).kind = .pipe pi other → pi ≠ npipe := by
      intro hk heq
      obtain ⟨y, hy, -⟩ := (h.ends pi other).mp ⟨g, hk⟩
      rw [heq, h.fresh npipe (Nat.le_refl _)] at hy
      cases hy
    by_cases h1 : g = f1
    · subst h1
      rw [update_self, hx1, hf1]
      cases other <;> grind
    · rw [update_of_ne h1]
      by_cases h0 : g = f0
      · subst h0
        rw [update_self, hx0, hf0]
        cases other <;> grind
      · rw [update_of_ne h0]
        cases other <;> grind
  refine ⟨?_, ?_, ?_, ?_⟩
  · intro pi hpi
    rw [update_of_ne (by omega)]
    exact h.fresh pi (by omega)
  · intro pi y hy
    by_cases hp : pi = npipe
    · subst hp
      rw [update_self] at hy
      cases hy
      exact .inl rfl
    · rw [update_of_ne hp] at hy
      exact h.opened pi y hy
  · intro pi other
    simp only [hkind]
    by_cases hp : pi = npipe
    · subst hp
      rw [update_self]
      cases other <;> simp [Pipe.isOpen]
    · rw [update_of_ne hp, ← h.ends]
      simp [hp]
  · intro pi other g g' hg hg'
    obtain ⟨_, hg⟩ | ⟨hn, hg⟩ := (hkind g pi other).mp hg
    · obtain ⟨_, hg'⟩ | ⟨hn', _⟩ := (hkind g' pi other).mp hg'
      · rw [hg, hg']
      · contradiction
    · obtain ⟨hn', _⟩ | ⟨_, hg'⟩ := (hkind g' pi other).mp hg'
      · contradiction
      · exact h.uniq pi other g g' hg hg'

end Pipes

section Routines

variable {w : World} {held held' : Held} {S : FileId → Nat} {f : FileId} {p : Pid} {ip : Id}
  {n : Nat} {E : Panic → Prop}

/-- After routines of `fs.c`. -/
theorem Inv.next {t : World} (h : Inv held S w) (ht : At w held' t) : Inv held' S t where
  inodes := by
    refine ht.rebase rfl (fun ip => ?_) fun _ hx => .inl hx
    unfold baseRefs
    rw [ht.ftable, ht.proc]
  refs := by
    rw [ht.ftable]
    exact h.refs
  closed := by
    rw [ht.ftable]
    exact h.closed
  idle := by
    rw [ht.proc]
    exact h.idle
  pipes := by
    have hpipe : t.pipe = w.pipe := (congrArg World.pipe ht.rest :)
    have hnpipe : t.npipe = w.npipe := (congrArg World.npipe ht.rest :)
    rw [ht.ftable, hpipe, hnpipe]
    exact h.pipes

/-- A file changes; a reference to an inode may go from the call to the file or back. -/
theorem Core.setFile (h : Core held S w) (held' : Held) (x : File) (pipe : Nat → Option Pipe) (npipe : Nat)
    (hrefs : ∀ ip, one ip x.kind.holds + held'.refs ip =
      one ip (w.ftable f).kind.holds + held.refs ip)
    (hkeys : ∀ y ∈ held', y ∈ held ∨ y.2 = (w.itable y.1).inum)
    (hclosed : x.ref = 0 → x.kind = .none) :
    Core held' (update S f x.ref)
      { w with ftable := update w.ftable f x, pipe := pipe, npipe := npipe } where
  inodes := by
    refine h.inodes.rebase rfl (fun ip => ?_) hkeys
    have hbase : baseRefs { w with
        ftable := update w.ftable f x, pipe := pipe, npipe := npipe } ip +
          one ip (w.ftable f).kind.holds = baseRefs w ip + one ip x.kind.holds :=
      baseRefs_setFile w f x ip
    have := hrefs ip
    omega
  refs := by
    intro g
    dsimp only
    by_cases hg : g = f
    · subst hg
      rw [update_self, update_self]
    · rw [update_of_ne hg, update_of_ne hg]
      exact h.refs g
  closed := by
    intro g
    dsimp only
    by_cases hg : g = f
    · subst hg
      rw [update_self, update_self]
      exact hclosed
    · rw [update_of_ne hg, update_of_ne hg]
      exact h.closed g
  idle := h.idle

theorem kind_setRef (F : FileId → File) (f : FileId) (k : Nat) (g : FileId) :
    (update F f ⟨k, (F f).kind⟩ g).kind = (F g).kind := by
  by_cases hg : g = f
  · subst hg
    rw [update_self]
  · rw [update_of_ne hg]

/-- The reference count of a file changes. -/
theorem Inv.setRef (h : Inv held S w) (k : Nat) (hk : k = 0 → (w.ftable f).kind = .none) :
    Inv held (update S f k)
      { w with ftable := update w.ftable f ⟨k, (w.ftable f).kind⟩ } where
  toCore := h.toCore.setFile held ⟨k, (w.ftable f).kind⟩ w.pipe w.npipe (fun _ => rfl)
    (fun _ hx => .inl hx) hk
  pipes := h.pipes.congr (kind_setRef w.ftable f k)

theorem bump_eq (S : FileId → Nat) (f : FileId) : bump S f = update S f (S f + 1) := rfl

theorem wp_setFile {Q : PUnit → World → Prop} (f : FileId) (x : File) :
    wp (setFile f x) Q E w ↔ Q () { w with ftable := update w.ftable f x } := Iff.rfl

theorem wp_filealloc (h : Inv held S w) :
    wp filealloc (fun r t => t.proc = w.proc ∧ (r = none ∧ Inv held S t ∨
      ∃ f, r = some f ∧ S f = 0 ∧ (∀ g, (t.ftable g).kind = (w.ftable g).kind) ∧
        Inv held (bump S f) t)) E w := by
  unfold filealloc
  rw [wp_bind, wp_get]
  cases hfind : (List.finRange NFILE).find? fun f => (w.ftable f).ref = 0 with
  | none => exact ⟨rfl, .inl ⟨rfl, h⟩⟩
  | some f =>
    have hzero : (w.ftable f).ref = 0 := by simpa using List.find?_some hfind
    rw [h.refs f] at hzero
    have hnew := h.setRef (f := f) 1 (fun h => absurd h Nat.one_ne_zero)
    refine ⟨rfl, .inr ⟨f, rfl, hzero, kind_setRef w.ftable f 1, ?_⟩⟩
    rw [bump_eq, hzero]
    exact hnew

theorem wp_filedup (h : Inv held S w) (hf : S f ≠ 0) :
    wp (filedup f) (fun _ t => t.proc = w.proc ∧ Inv held (bump S f) t) E w := by
  unfold filedup
  rw [wp_bind, wp_get]
  apply wp_ite
  · intro hlt
    rw [h.refs f] at hlt
    omega
  · intro _
    have hnew := h.setRef (f := f) ((w.ftable f).ref + 1) (fun h => absurd h (Nat.succ_ne_zero _))
    rw [h.refs f, ← bump_eq] at hnew
    rw [h.refs f]
    exact ⟨rfl, hnew⟩

/-- A file that is not a pipe is closed; the call has its reference to an inode now. -/
theorem Inv.closed_inode (h : Inv held (bump S f) w) (hS : S f = 0)
    (hip : (w.ftable f).kind.holds = some ip) :
    Inv ((ip, (w.itable ip).inum) ::ₘ held) S
      { w with ftable := update w.ftable f ⟨0, .none⟩ } := by
  have hcore := h.toCore.setFile (f := f) ((ip, (w.itable ip).inum) ::ₘ held) ⟨0, .none⟩
    w.pipe w.npipe
    (fun jp => by
      rw [hip, refs_cons, Kind.holds, one_none]
      omega)
    (fun x hx => (Multiset.mem_cons.mp hx).symm.imp_right fun hx => by rw [hx])
    (fun _ => rfl)
  have hS' : update (bump S f) f 0 = S := by
    rw [bump_eq, update_idem, ← hS, update_eq_self]
  dsimp only at hcore
  rw [hS'] at hcore
  refine ⟨hcore, h.pipes.set ?_ ?_⟩
  · intro pi writable hk
    rw [hk] at hip
    cases hip
  · intro pi writable hk
    cases hk

theorem wp_fileclose (h : Inv held (bump S f) w) :
    wp (fileclose f) (fun _ t => t.proc = w.proc ∧ Inv held S t) E w := by
  have href : (w.ftable f).ref = S f + 1 := by
    rw [h.refs f, bump_eq, update_self]
  have hback : ∀ k, k = S f → update (bump S f) f k = S := by
    intro k hk
    rw [bump_eq, update_idem, hk, update_eq_self]
  unfold fileclose
  rw [wp_bind, wp_get]
  dsimp only
  rw [href]
  apply wp_ite
  · intro hlt
    omega
  · intro _
    apply wp_ite
    · intro hmore
      have hnew := h.setRef (f := f) (S f) (fun hz => by omega)
      rw [hback _ rfl] at hnew
      exact ⟨rfl, hnew⟩
    · intro hlast
      have hS : S f = 0 := by omega
      rw [wp_bind, wp_setFile]
      cases hk : (w.ftable f).kind with
      | none =>
        have hnew := h.setRef (f := f) 0 (fun _ => hk)
        rw [hback 0 hS.symm, hk] at hnew
        exact ⟨rfl, hnew⟩
      | pipe pi writable =>
        have hcore := h.toCore.setFile (f := f) held ⟨0, .none⟩
          (update w.pipe pi ((w.pipe pi).bind fun x => x.shut writable)) w.npipe
          (fun ip => by rw [hk]; rfl) (fun _ hx => .inl hx) (fun _ => rfl)
        rw [hback 0 hS.symm] at hcore
        exact ⟨rfl, hcore, h.pipes.close hk rfl⟩
      | inode ip =>
        have hip : (w.ftable f).kind.holds = some ip := by rw [hk]; rfl
        have hnew := h.closed_inode hS hip
        apply wp_mono _ (fun _ he => he) (wp_iput hnew.inodes)
        intro _ t ht
        exact ⟨ht.1.proc, hnew.next ht.1⟩
      | device ip major =>
        have hip : (w.ftable f).kind.holds = some ip := by rw [hk]; rfl
        have hnew := h.closed_inode hS hip
        apply wp_mono _ (fun _ he => he) (wp_iput hnew.inodes)
        intro _ t ht
        exact ⟨ht.1.proc, hnew.next ht.1⟩

/-- A file of the call gets its inode. -/
theorem Inv.setKind (h : Inv ((ip, n) ::ₘ held) S w) (hS : S f ≠ 0) {kind : Kind}
    (hnone : (w.ftable f).kind = .none) (hkind : kind.holds = some ip) :
    Inv held S { w with ftable := update w.ftable f ⟨(w.ftable f).ref, kind⟩ } := by
  have hcore := h.toCore.setFile (f := f) held ⟨(w.ftable f).ref, kind⟩ w.pipe w.npipe
    (fun jp => by
      rw [hnone, hkind, refs_cons, Kind.holds, one_none]
      omega)
    (fun x hx => .inl (Multiset.mem_cons_of_mem hx))
    (fun hz => absurd ((h.refs f).symm.trans hz) hS)
  rw [h.refs f, update_eq_self] at hcore
  rw [h.refs f]
  refine ⟨hcore, h.pipes.set ?_ ?_⟩
  · intro pi writable hk
    rw [hnone] at hk
    cases hk
  · intro pi writable hk
    dsimp only at hk
    rw [hk] at hkind
    cases hkind

/-- A process changes; a reference to an inode may go from the call to the process or back. -/
theorem Inv.setProc (h : Inv held S w) (held' : Held) (x : Proc)
    (hrefs : ∀ ip, one ip x.cwd + held'.refs ip = one ip (w.proc p).cwd + held.refs ip)
    (hkeys : ∀ y ∈ held', y ∈ held ∨ y.2 = (w.itable y.1).inum)
    (hidle : x.state ≠ .live → x.cwd = none ∧ x.ofile = fun _ => none) :
    Inv held' S { w with proc := update w.proc p x } where
  inodes := by
    refine h.inodes.rebase rfl (fun ip => ?_) hkeys
    have hbase := baseRefs_setProc w p x ip
    have := hrefs ip
    omega
  refs := h.refs
  closed := h.closed
  idle := by
    intro q
    dsimp only
    by_cases hq : q = p
    · subst hq
      rw [update_self]
      exact hidle
    · rw [update_of_ne hq]
      exact h.idle q
  pipes := h.pipes

theorem Inv.setOfile (h : Inv held S w) (hlive : (w.proc p).state = .live) (fd : Fin NOFILE)
    (x : Option FileId) :
    Inv held S { w with proc := update w.proc p ((w.proc p).withOfile fd x) } :=
  h.setProc held _ (fun _ => rfl) (fun _ hx => .inl hx) (fun hne => absurd hlive hne)

theorem wp_setOfile (h : Inv held S w) (hlive : (w.proc p).state = .live) (fd : Fin NOFILE)
    (x : Option FileId) :
    wp (setOfile p fd x) (fun _ t => Inv held S t ∧
      t.proc = update w.proc p ((w.proc p).withOfile fd x)) E w :=
  ⟨h.setOfile hlive fd x, rfl⟩

theorem wp_fdalloc (h : Inv held S w) (hlive : (w.proc p).state = .live) (f : FileId) :
    wp (fdalloc p f) (fun r t => Inv held S t ∧ t.ftable = w.ftable ∧ (r = none ∧ t.proc = w.proc ∨
      ∃ fd, r = some fd ∧ (w.proc p).ofile fd = none ∧
        t.proc = update w.proc p ((w.proc p).withOfile fd (some f)))) E w := by
  unfold fdalloc
  rw [wp_bind, wp_get]
  cases hfind : (List.finRange NOFILE).find? fun fd => (w.proc p).ofile fd = none with
  | none => exact ⟨h, rfl, .inl ⟨rfl, rfl⟩⟩
  | some fd =>
    have hfree : (w.proc p).ofile fd = none := by simpa using List.find?_some hfind
    exact ⟨h.setOfile hlive fd (some f), rfl, .inr ⟨fd, rfl, hfree, rfl⟩⟩

end Routines

end Xv6.Names
