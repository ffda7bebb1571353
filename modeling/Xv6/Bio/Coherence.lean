import Xv6.Bio.Discipline
import Xv6.Lib.Count

/-!
# Coherence of the buffer cache

The invariant of the cache under any interleaving. `refcnt` counts the processes
that hold, wait for or are about to drop a buffer, plus one while its block waits
in the log to be copied home; so a buffer with `refcnt` zero is nobody's. A buffer
that nobody has changed since it was last logged agrees with the disk, unless its
block waits in the log.
-/
namespace Xv6.Bio

set_option autoImplicit false

open Xv6.Lib Xv6.Lib.Prog Function
open Xv6.Fs (Op Routine Dinode Src)
open Xv6.Log (Conf)

/-- The buffer that a process between two steps of `bread` or `brelse` counts for. -/
def Ctl.uses : Ctl → Option BufId
  | .getting i _ => some i
  | .filling i _ => some i
  | .putting i _ => some i
  | _ => none

/-- The buffer that a process has locked but not yet read. -/
def Ctl.fills : Ctl → Option BufId
  | .filling i _ => some i
  | _ => none

theorem Ctl.uses_of_fills {c : Ctl} {i : BufId} (h : c.fills = some i) : c.uses = some i := by
  cases c <;> first | exact h | cases h

/-- The share of a process in the `refcnt` of a buffer. -/
def uses (c : Ctl) (h : Held) (i : BufId) : Nat :=
  (if (h i).isSome then 1 else 0) + (if c.uses = some i then 1 else 0)

variable {N : Nat}

/-- The listed blocks that are still to be copied home. -/
def Sys.waiting (s : Sys N) : List Nat := s.lh.drop s.inst

/-- The share of the log in the `refcnt` of a buffer for `block`. -/
def pin (waiting : List Nat) : Option Nat → Nat
  | some b => if b ∈ waiting then 1 else 0
  | none => 0

def Sys.pins (s : Sys N) (i : BufId) : Nat := pin s.waiting (s.bufs i).block

/-- What process `p` knows when it holds the buffers `h`. -/
def Sys.ghost (s : Sys N) (p : Fin N) (h : Held) : Ghost :=
  ⟨h, if s.role p = .commit then some (s.lh, s.inst) else none⟩

/-- All buffers are released and a commit has emptied the log. -/
def Done (_ : Unit) (g : Ghost) : Prop :=
  g.held = (fun _ => none) ∧ ∀ lh n, g.log = some (lh, n) → lh = [] ∧ n = 0

def CtlOk (s : Sys N) (p : Fin N) (h : Held) : Ctl → Prop
  | .run c => wp spec c Done (s.ghost p h)
  | .getting i k => ∃ b, (s.bufs i).block = some b ∧
      ∀ j, h j = none → wp spec (k j) Done ((s.ghost p h).set j (b, .clean))
  | .filling i k => h i = none ∧ ∃ b, (s.bufs i).block = some b ∧
      ∀ j, h j = none → wp spec (k j) Done ((s.ghost p h).set j (b, .clean))
  | .putting _ c => wp spec c Done (s.ghost p h)
  | _ => h = (fun _ => none) ∧ s.role p ≠ .commit

/-- The invariant of the cache. `R` is the agreement that is asked of a buffer and the disk: equality
for coherence, nothing where only the reference counts matter. -/
structure Inv (R : Block → Block → Prop) (s : Sys N) (H : Fin N → Held) : Prop where
  lru : ∀ i, i ∈ s.lru
  unique : ∀ i j b, (s.bufs i).block = some b → (s.bufs j).block = some b → i = j
  refs : ∀ i, (s.bufs i).refcnt = (∑ p, uses (s.ctl p) (H p) i) + s.pins i
  locks : ∀ i p, (s.bufs i).lock = some p ↔ (H p i).isSome ∨ (s.ctl p).fills = some i
  held : ∀ p i b st, H p i = some (b, st) → (s.bufs i).block = some b ∧ (s.bufs i).valid = true ∧
    (st = .synced → R (s.bufs i).data (s.disk b))
  coherent : ∀ i b, (s.bufs i).block = some b → (s.bufs i).valid = true →
    (∀ p, H p i ≠ some (b, .dirty)) → b ∉ s.waiting → R (s.bufs i).data (s.disk b)
  pinned : ∀ b ∈ s.waiting, ∃ i, (s.bufs i).block = some b ∧ (s.bufs i).valid = true
  nodup : s.lh.Nodup
  small : s.lh.length ≤ LOGSIZE
  procs : ∀ p, CtlOk s p (H p) (s.ctl p)
  flag : ∀ p, s.role p = .commit → s.committing = true
  sole : ∀ p q, s.role p = .commit → s.role q = .commit → p = q
  calm : s.committing = false → s.inst = 0
  count : ∑ p, (if s.role p = .inOp then 1 else 0) = s.outstanding
  excl : s.committing = true → s.outstanding = 0

variable {R : Block → Block → Prop}

/-! ## Reference counts -/

theorem sum_uses_update (ctl : Fin N → Ctl) (H : Fin N → Held) (p : Fin N) (c : Ctl) (h : Held)
    (i : BufId) :
    (∑ q, uses (update ctl p c q) (update H p h q) i) + uses (ctl p) (H p) i =
      (∑ q, uses (ctl q) (H q) i) + uses c h i := by
  have hsum := sum_update (fun x : Ctl × Held => uses x.1 x.2 i) (fun q => (ctl q, H q)) p (c, h)
  rw [← hsum]
  congr 1
  refine Finset.sum_congr rfl fun q _ => ?_
  by_cases hq : q = p
  · subst hq; simp
  · simp [update_of_ne hq]

theorem uses_le_sum (ctl : Fin N → Ctl) (H : Fin N → Held) (p : Fin N) (i : BufId) :
    uses (ctl p) (H p) i ≤ ∑ q, uses (ctl q) (H q) i :=
  le_sum (fun x : Ctl × Held => uses x.1 x.2 i) (fun q => (ctl q, H q)) p

/-- Nobody has anything to do with a buffer whose `refcnt` is zero. -/
theorem Inv.unused {s : Sys N} {H : Fin N → Held} (hi : Inv R s H) {i : BufId}
    (h : (s.bufs i).refcnt = 0) :
    (∀ p, H p i = none ∧ (s.ctl p).uses ≠ some i) ∧ s.pins i = 0 := by
  rw [hi.refs] at h
  refine ⟨fun p => ?_, by omega⟩
  have hp : uses (s.ctl p) (H p) i = 0 := by
    have := uses_le_sum s.ctl H p i
    omega
  unfold uses at hp
  constructor
  · cases hh : H p i with
    | none => rfl
    | some x => rw [hh] at hp; simp at hp
  · intro hu
    rw [if_pos hu] at hp
    omega

/-! ## Steps that touch one buffer -/

/-- A process that has not moved is fine if the blocks of its buffers are the same. -/
theorem CtlOk.frame {s s' : Sys N} {q : Fin N} {h : Held} {c : Ctl} (hc : CtlOk s q h c)
    (hrole : s'.role q = s.role q) (hghost : s'.ghost q h = s.ghost q h)
    (hblock : ∀ i, c.uses = some i → (s'.bufs i).block = (s.bufs i).block) : CtlOk s' q h c := by
  cases c with
  | idle => exact ⟨hc.1, by rw [hrole]; exact hc.2⟩
  | asleep => exact ⟨hc.1, by rw [hrole]; exact hc.2⟩
  | woken => exact ⟨hc.1, by rw [hrole]; exact hc.2⟩
  | run c => change wp spec c Done _; rw [hghost]; exact hc
  | getting i k =>
    obtain ⟨b, hb, hk⟩ := hc
    exact ⟨b, (hblock i rfl).trans hb, by rw [hghost]; exact hk⟩
  | filling i k =>
    obtain ⟨hn, b, hb, hk⟩ := hc
    exact ⟨hn, b, (hblock i rfl).trans hb, by rw [hghost]; exact hk⟩
  | putting i c => change wp spec c Done _; rw [hghost]; exact hc

/-- The state after process `p` has moved and changed one buffer, and perhaps the log. -/
def Sys.touch (s : Sys N) (p : Fin N) (i : BufId) (b : Buf N) (c : Ctl) (disk : Nat → Block)
    (lru : List BufId) (lh : List Nat) (inst : Nat) : Sys N :=
  { s with
    bufs := update s.bufs i b, ctl := update s.ctl p c, disk := disk, lru := lru
    lh := lh, inst := inst }

/-- The buffer `i` before and after: `p` held it as `H p i` and holds it as `x`. -/
structure TouchBuf (R : Block → Block → Prop) (s : Sys N) (H : Fin N → Held) (p : Fin N) (i : BufId)
    (b : Buf N) (c : Ctl) (x : Option (Nat × Status)) (disk : Nat → Block) (waiting : List Nat) : Prop where
  same : b.block = (s.bufs i).block
  valid : (s.bufs i).valid = true → b.valid = true
  away : ∀ j, j ≠ i → (s.ctl p).uses ≠ some j ∧ c.uses ≠ some j
  lock : ∀ q, b.lock = some q ↔
    (if q = p then x.isSome = true ∨ c.fills = some i else (s.bufs i).lock = some q)
  alone : (b.data = (s.bufs i).data ∧ disk = s.disk) ∨ (s.bufs i).lock = some p
  elsewhere : ∀ a, (s.bufs i).block ≠ some a → disk a = s.disk a
  held : ∀ a st, x = some (a, st) → b.block = some a ∧ b.valid = true ∧ (st = .synced → R b.data (disk a))
  coherent : ∀ a, b.block = some a → b.valid = true → x ≠ some (a, .dirty) →
    (∀ q, q ≠ p → H q i ≠ some (a, .dirty)) → a ∉ waiting → R b.data (disk a)

/-- The log before and after: only the block of buffer `i` joins or leaves those that
wait, and a committing process does not see its log change. -/
structure TouchLog (s : Sys N) (p : Fin N) (i : BufId) (b : Buf N) (lh : List Nat) (inst : Nat) :
    Prop where
  nodup : lh.Nodup
  small : lh.length ≤ LOGSIZE
  others : ∀ a, (s.bufs i).block ≠ some a → (a ∈ lh.drop inst ↔ a ∈ s.waiting)
  pinned : ∀ a, a ∈ lh.drop inst → (s.bufs i).block = some a → b.valid = true
  quiet : ∀ q, q ≠ p → s.role q = .commit → lh = s.lh ∧ inst = s.inst
  calm : s.committing = false → inst = 0

theorem update_ne_none {h : Held} {i j : BufId} {x : Option (Nat × Status)} (hj : j ≠ i) :
    update h i x j = h j := update_of_ne hj _ _

theorem pins_eq {s : Sys N} {i : BufId} {a : Nat} (h : (s.bufs i).block = some a) :
    s.pins i = if a ∈ s.waiting then 1 else 0 := by
  unfold Sys.pins
  rw [h]
  rfl

/-- A step of `p` that changes at most one buffer keeps the invariant. -/
theorem Inv.touch {s : Sys N} {H : Fin N → Held} (hi : Inv R s H) {p : Fin N} {i : BufId} {b : Buf N}
    {c : Ctl} {x : Option (Nat × Status)} {lru : List BufId} (disk : Nat → Block) (lh : List Nat)
    (inst : Nat) (hlru : ∀ j, j ∈ lru) (ht : TouchBuf R s H p i b c x disk (lh.drop inst))
    (hl : TouchLog s p i b lh inst)
    (hrefs : b.refcnt + uses (s.ctl p) (H p) i + s.pins i = (s.bufs i).refcnt +
      uses c (update (H p) i x) i + (s.touch p i b c disk lru lh inst).pins i)
    (hc : CtlOk (s.touch p i b c disk lru lh inst) p (update (H p) i x) c) :
    Inv R (s.touch p i b c disk lru lh inst) (update H p (update (H p) i x)) := by
  set t := s.touch p i b c disk lru lh inst with htdef
  have hself : t.bufs i = b := update_self ..
  have hother : ∀ j, j ≠ i → t.bufs j = s.bufs j := fun j hj => update_of_ne hj _ _
  have hblock : ∀ j, (t.bufs j).block = (s.bufs j).block := by
    intro j
    by_cases hj : j = i
    · subst hj; rw [hself, ht.same]
    · rw [hother j hj]
  have hvalid : ∀ j, (s.bufs j).valid = true → (t.bufs j).valid = true := by
    intro j h
    by_cases hj : j = i
    · subst hj; rw [hself]; exact ht.valid h
    · rw [hother j hj]; exact h
  have hapart : ∀ j a, j ≠ i → (s.bufs j).block = some a → (s.bufs i).block ≠ some a := by
    intro j a hj ha hb
    exact hj (hi.unique j i a ha hb)
  have hpins : ∀ j, j ≠ i → t.pins j = s.pins j := by
    intro j hj
    cases hb : (s.bufs j).block with
    | none => unfold Sys.pins; rw [hblock j, hb]; rfl
    | some a =>
      rw [pins_eq hb, pins_eq ((hblock j).trans hb)]
      exact if_congr (hl.others a (hapart j a hj hb)) rfl rfl
  have hHne : ∀ q j, j ≠ i → update H p (update (H p) i x) q j = H q j := by
    intro q j hj
    by_cases hq : q = p
    · subst hq; rw [update_self, update_ne_none hj]
    · rw [update_of_ne hq]
  refine ⟨hlru, ?_, ?_, ?_, ?_, ?_, ?_, hl.nodup, hl.small, ?_, hi.flag, hi.sole, hl.calm, hi.count,
    hi.excl⟩
  · intro j k a hj hk
    exact hi.unique j k a ((hblock j).symm.trans hj) ((hblock k).symm.trans hk)
  · intro j
    have hsum := sum_uses_update s.ctl H p c (update (H p) i x) j
    change (t.bufs j).refcnt = (∑ q, uses (update s.ctl p c q)
      (update H p (update (H p) i x) q) j) + t.pins j
    have hold := hi.refs j
    by_cases hj : j = i
    · subst hj
      rw [hself]
      omega
    · have hsame : uses c (update (H p) i x) j = uses (s.ctl p) (H p) j := by
        unfold uses
        rw [update_ne_none hj, if_neg (ht.away j hj).2, if_neg (ht.away j hj).1]
      rw [hother j hj, hpins j hj]
      omega
  · intro j q
    change _ ↔ _ ∨ (update s.ctl p c q).fills = _
    by_cases hj : j = i
    · subst hj
      rw [hself, ht.lock q]
      by_cases hq : q = p
      · subst hq; simp
      · rw [if_neg hq, update_of_ne hq, update_of_ne hq]
        exact hi.locks j q
    · rw [hother j hj, hi.locks j q, hHne q j hj]
      by_cases hq : q = p
      · subst hq
        rw [update_self]
        have h1 : (s.ctl q).fills ≠ some j := fun h => (ht.away j hj).1 (Ctl.uses_of_fills h)
        have h2 : c.fills ≠ some j := fun h => (ht.away j hj).2 (Ctl.uses_of_fills h)
        simp [h1, h2]
      · rw [update_of_ne hq]
  · intro q j a st hh
    by_cases hj : j = i
    · subst hj
      by_cases hq : q = p
      · subst hq
        rw [update_self, update_self] at hh
        rw [hself]
        exact ht.held a st hh
      · rw [update_of_ne hq] at hh
        obtain ⟨h1, h2, h3⟩ := hi.held q j a st hh
        refine ⟨(hblock j).trans h1, hvalid j h2, fun hs => ?_⟩
        rcases ht.alone with ⟨hd, hdk⟩ | hlk
        · change R (t.bufs j).data (disk a)
          rw [hself, hd, hdk]
          exact h3 hs
        · have hlq := (hi.locks j q).mpr (.inl (by rw [hh]; rfl))
          rw [hlk] at hlq
          exact absurd (Option.some.inj hlq).symm hq
    · rw [hHne q j hj] at hh
      obtain ⟨h1, h2, h3⟩ := hi.held q j a st hh
      refine ⟨(hblock j).trans h1, hvalid j h2, fun hs => ?_⟩
      change R (t.bufs j).data (disk a)
      rw [hother j hj, ht.elsewhere a (hapart j a hj h1)]
      exact h3 hs
  · intro j a hb hv hnd hw
    change R (t.bufs j).data (disk a)
    by_cases hj : j = i
    · subst hj
      rw [hself] at hb hv ⊢
      refine ht.coherent a hb hv ?_ ?_ hw
      · have := hnd p; rwa [update_self, update_self] at this
      · intro q hq; have := hnd q; rwa [update_of_ne hq] at this
    · rw [hother j hj] at hb hv ⊢
      have hne := hapart j a hj hb
      rw [ht.elsewhere a hne]
      refine hi.coherent j a hb hv (fun q => ?_) (fun h => hw ((hl.others a hne).mpr h))
      rw [← hHne q j hj]
      exact hnd q
  · intro a ha
    by_cases hia : (s.bufs i).block = some a
    · exact ⟨i, (hblock i).trans hia, by rw [hself]; exact hl.pinned a ha hia⟩
    · obtain ⟨j, h1, h2⟩ := hi.pinned a ((hl.others a hia).mp ha)
      exact ⟨j, (hblock j).trans h1, hvalid j h2⟩
  · intro q
    change CtlOk t q (update H p _ q) (update s.ctl p c q)
    by_cases hq : q = p
    · subst hq; rw [update_self, update_self]; exact hc
    · rw [update_of_ne hq, update_of_ne hq]
      refine (hi.procs q).frame rfl ?_ fun j _ => hblock j
      unfold Sys.ghost
      by_cases hr : s.role q = .commit
      · obtain ⟨h1, h2⟩ := hl.quiet q hq hr
        rw [htdef]
        unfold Sys.touch
        dsimp only
        rw [h1, h2]
      · rw [if_neg hr, if_neg (show ¬ t.role q = .commit from hr)]

/-- The log stays as it is. -/
theorem Inv.touchLog_self {s : Sys N} {H : Fin N → Held} (hi : Inv R s H) (p : Fin N) {i : BufId}
    {b : Buf N} (hv : (s.bufs i).valid = true → b.valid = true) :
    TouchLog s p i b s.lh s.inst := by
  refine ⟨hi.nodup, hi.small, fun _ _ => Iff.rfl, ?_, fun _ _ _ => ⟨rfl, rfl⟩, hi.calm⟩
  intro a ha hia
  obtain ⟨j, hj, hjv⟩ := hi.pinned a ha
  rw [hi.unique j i a hj hia] at hjv
  exact hv hjv

/-- A step of `p` that changes at most one buffer and not the log. -/
theorem Inv.touch_plain {s : Sys N} {H : Fin N → Held} (hi : Inv R s H) {p : Fin N} {i : BufId}
    {b : Buf N} {c : Ctl} {x : Option (Nat × Status)} {disk : Nat → Block} {lru : List BufId}
    (hlru : ∀ j, j ∈ lru) (ht : TouchBuf R s H p i b c x disk s.waiting)
    (hrefs : b.refcnt + uses (s.ctl p) (H p) i =
      (s.bufs i).refcnt + uses c (update (H p) i x) i)
    (hc : CtlOk (s.touch p i b c disk lru s.lh s.inst) p (update (H p) i x) c) :
    Inv R (s.touch p i b c disk lru s.lh s.inst)
      (update H p (update (H p) i x)) := by
  refine hi.touch disk s.lh s.inst hlru ht (hi.touchLog_self p ht.valid) ?_ hc
  have hpins : (s.touch p i b c disk lru s.lh s.inst).pins i = s.pins i := by
    change pin s.waiting (update s.bufs i b i).block = pin s.waiting (s.bufs i).block
    rw [update_self, ht.same]
  rw [hpins]
  omega

end Xv6.Bio
