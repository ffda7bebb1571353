import Xv6.Itable.Discipline

/-!
# The invariant of the inode table

`Inv` says that what each process relies on is so, that `ref` counts the references that
are owned, and that a valid entry agrees with the inode on disk unless a process that has
it locked has changed it. `Frame` says what the steps of other processes leave alone.
-/
namespace Xv6.Itable

set_option autoImplicit false

open Xv6.Lib Xv6.Lib.Prog Function
open Xv6.Fs (Dinode)

/-! ## Owned references -/

/-- How many references to an entry there are. -/
def count (rs : Multiset Ref) (i : Id) : Nat := rs.countP fun r => r.1 = i

/-- How many of them process `p` owns, alone or with others. -/
def owned (rs : Multiset Ref) (p : Pid) (i : Id) : Nat := rs.countP fun r => r.1 = i ∧ p ∈ r.2

section

variable {rs : Multiset Ref} {p q : Pid} {i j : Id} {r : Ref}

theorem owns_iff : Owns rs p i ↔ 0 < owned rs p i := Multiset.countP_pos.symm

theorem count_cons : count (r ::ₘ rs) i = count rs i + if r.1 = i then 1 else 0 :=
  Multiset.countP_cons ..

theorem owned_cons :
    owned (r ::ₘ rs) p i = owned rs p i + if r.1 = i ∧ p ∈ r.2 then 1 else 0 :=
  Multiset.countP_cons ..

theorem count_erase (h : r ∈ rs) : count rs i = count (rs.erase r) i + if r.1 = i then 1 else 0 := by
  rw [← count_cons, Multiset.cons_erase h]

theorem owned_erase (h : r ∈ rs) :
    owned rs p i = owned (rs.erase r) p i + if r.1 = i ∧ p ∈ r.2 then 1 else 0 := by
  rw [← owned_cons, Multiset.cons_erase h]

theorem owned_le_count (rs : Multiset Ref) : owned rs p i ≤ count rs i := by
  rw [owned, count, Multiset.countP_eq_card_filter, Multiset.countP_eq_card_filter]
  exact Multiset.card_le_card (Multiset.monotone_filter_right rs fun _ h => h.1)

/-- A reference that `p` owns alone is not one of `q`. -/
theorem owned_lt_count (h : (i, {p}) ∈ rs) (hq : q ≠ p) : owned rs q i < count rs i := by
  have ho := owned_erase (p := q) (i := i) h
  have hc := count_erase (i := i) h
  have hle := owned_le_count (rs.erase (i, {p})) (p := q) (i := i)
  simp only [Finset.mem_singleton, hq, and_false, if_false] at ho
  simp only [if_true] at hc
  omega

end

/-! ## What is known of a state -/

/-- The process is at work on entry `i`, which need not be valid. -/
def Phase.About : Phase → Id → Prop
  | .freeing j, i | .locked j, i | .invalid j, i | .read j _, i | .filled j _, i
  | .loaded j _, i => j = i
  | _, _ => False

/-- Entry `i` need not agree with the disk. -/
def Phase.Exempt : Phase → Id → Prop
  | .freeing j, i => j = i
  | .loaded j d, i => j = i ∧ d.type = 0
  | _, _ => False

def Phase.Holds (s : Sys) (p : Pid) (put : Option Id) : Phase → Prop
  | .none => True
  | .last i => s.table = some p ∧ (s.itable i).ref = 1 ∧ put = some i
  | .freeing i => s.lock i = some p ∧ put = some i
  | .locked i => s.lock i = some p ∧ s.dirty i = false
  | .invalid i => put = .none ∧ s.lock i = some p ∧ (s.itable i).valid = false
  | .read i d => put = .none ∧ s.lock i = some p ∧ (s.itable i).valid = false ∧
      (d.type ≠ 0 → s.disk (s.itable i).key = d)
  | .filled i d => put = .none ∧ s.lock i = some p ∧ (s.itable i).valid = false ∧
      (s.itable i).din = d ∧ (d.type ≠ 0 → s.disk (s.itable i).key = d)
  | .loaded i d => put = .none ∧ s.lock i = some p ∧ (s.itable i).valid = true ∧
      (s.itable i).din = d ∧ s.dirty i = false ∧ (d.type ≠ 0 → s.disk (s.itable i).key = d)
  | .ready i => s.lock i = some p ∧ (s.itable i).valid = true ∧ s.dirty i = false

structure Knows (s : Sys) (p : Pid) (g : Know) : Prop where
  table : g.table = true ↔ s.table = some p
  hold : ∀ i, i ∈ g.hold ↔ s.lock i = some p
  want : ∀ i, g.want = some i → 0 < owned s.refs p i
  put : ∀ i, g.put = some i → (i, {p}) ∈ s.refs ∧
    (s.lock i = some p → g.phase = .freeing i ∨ g.phase = .locked i ∨ 2 ≤ owned s.refs p i)
  scan : s.table = some p → ∀ k, g.scan = some k → ∀ i ∈ g.seen,
    ¬(0 < (s.itable i).ref ∧ (s.itable i).key = k)
  empty : s.table = some p → ∀ i, g.empty = some i → (s.itable i).ref = 0
  live : s.table = some p → ∀ i, g.live = some i → 0 < (s.itable i).ref
  phase : g.phase.Holds s p g.put

/-- The entry agrees with the disk; what is in memory may be newer. -/
def Synced (s : Sys) (i : Id) : Prop :=
  (s.itable i).din.type ≠ 0 ∧ (s.disk (s.itable i).key).type ≠ 0 ∧
    (s.dirty i = false → s.disk (s.itable i).key = (s.itable i).din)

/-- What is so whatever the processes are doing. -/
structure Core (s : Sys) : Prop where
  count : ∀ i, (s.itable i).ref = count s.refs i
  unique : ∀ i j, 0 < (s.itable i).ref → 0 < (s.itable j).ref →
    (s.itable i).key = (s.itable j).key → i = j
  owner : ∀ i p, s.lock i = some p → 0 < owned s.refs p i
  dirty : ∀ i, s.dirty i = true → s.lock i ≠ none

structure Inv (κ : Pid → Know) (s : Sys) : Prop extends Core s where
  valid : ∀ i p, s.lock i = some p → ¬(κ p).phase.About i → (s.itable i).valid = true
  sync : ∀ i, 0 < (s.itable i).ref → (s.itable i).valid = true →
    (∀ p, s.lock i = some p → ¬(κ p).phase.Exempt i) → Synced s i
  knows : ∀ p, Knows s p (κ p)
  prog : ∀ p, wp spec (s.prog p) (fin (s.call p)) (κ p)
  panics : ∀ m, s.panicked = some m → m = .noInodes ∨ m = .noType

/-- A step that process `q` cannot tell from no step. -/
structure Frame (s s' : Sys) (q : Pid) : Prop where
  table : s'.table = some q ↔ s.table = some q
  lock : ∀ i, s'.lock i = some q ↔ s.lock i = some q
  owned : ∀ i, owned s.refs q i ≤ owned s'.refs q i
  alone : ∀ i, (i, {q}) ∈ s.refs → (i, {q}) ∈ s'.refs
  entry : s.table = some q → ∀ i,
    (s'.itable i).ref = (s.itable i).ref ∧ (s'.itable i).key = (s.itable i).key
  inode : ∀ i, s.lock i = some q → (s'.itable i).key = (s.itable i).key ∧
    (s'.itable i).valid = (s.itable i).valid ∧ (s'.itable i).din = (s.itable i).din ∧
    s'.dirty i = s.dirty i ∧
    ((s.disk (s.itable i).key).type ≠ 0 → s'.disk (s.itable i).key = s.disk (s.itable i).key)

section

variable {κ : Pid → Know} {s s' : Sys} {p q : Pid} {g g' : Know} {i j : Id}

theorem Core.ref_pos (h : Core s) (ho : 0 < owned s.refs p i) : 0 < (s.itable i).ref := by
  rw [h.count]
  exact Nat.lt_of_lt_of_le ho (owned_le_count _)

theorem Core.locked_pos (h : Core s) (hl : s.lock i = some p) : 0 < (s.itable i).ref :=
  h.ref_pos (h.owner i p hl)

theorem Frame.disk (h : Frame s s' q) (hl : s.lock i = some q) {d : Dinode} (hd : d.type ≠ 0)
    (he : s.disk (s.itable i).key = d) : s'.disk (s'.itable i).key = d := by
  obtain ⟨hk, -, -, -, hdisk⟩ := h.inode i hl
  rw [hk, hdisk (he ▸ hd), he]

theorem Phase.Holds.frame {put : Option Id} {ph : Phase} (h : ph.Holds s q put)
    (hf : Frame s s' q) : ph.Holds s' q put := by
  cases ph with
  | none => trivial
  | last i =>
    obtain ⟨ht, hr, hp⟩ := h
    exact ⟨hf.table.mpr ht, (hf.entry ht i).1.trans hr, hp⟩
  | freeing i => exact ⟨(hf.lock i).mpr h.1, h.2⟩
  | locked i =>
    obtain ⟨hl, hd⟩ := h
    exact ⟨(hf.lock i).mpr hl, (hf.inode i hl).2.2.2.1.trans hd⟩
  | invalid i =>
    obtain ⟨hn, hl, hv⟩ := h
    exact ⟨hn, (hf.lock i).mpr hl, (hf.inode i hl).2.1.trans hv⟩
  | read i d =>
    obtain ⟨hn, hl, hv, hd⟩ := h
    exact ⟨hn, (hf.lock i).mpr hl, (hf.inode i hl).2.1.trans hv, fun ht => hf.disk hl ht (hd ht)⟩
  | filled i d =>
    obtain ⟨hn, hl, hv, he, hd⟩ := h
    obtain ⟨-, hv', he', -, -⟩ := hf.inode i hl
    exact ⟨hn, (hf.lock i).mpr hl, hv'.trans hv, he'.trans he, fun ht => hf.disk hl ht (hd ht)⟩
  | loaded i d =>
    obtain ⟨hn, hl, hv, he, hc, hd⟩ := h
    obtain ⟨-, hv', he', hc', -⟩ := hf.inode i hl
    exact ⟨hn, (hf.lock i).mpr hl, hv'.trans hv, he'.trans he, hc'.trans hc,
      fun ht => hf.disk hl ht (hd ht)⟩
  | ready i =>
    obtain ⟨hl, hv, hc⟩ := h
    obtain ⟨-, hv', -, hc', -⟩ := hf.inode i hl
    exact ⟨(hf.lock i).mpr hl, hv'.trans hv, hc'.trans hc⟩

theorem Knows.frame (h : Knows s q g) (hf : Frame s s' q) : Knows s' q g where
  table := h.table.trans hf.table.symm
  hold i := (h.hold i).trans (hf.lock i).symm
  want i hw := (h.want i hw).trans_le (hf.owned i)
  put i hp := by
    obtain ⟨hm, ho⟩ := h.put i hp
    refine ⟨hf.alone i hm, fun hl => ?_⟩
    exact (ho ((hf.lock i).mp hl)).imp_right (.imp_right fun h2 => h2.trans (hf.owned i))
  scan ht k hk i hi := by
    obtain ⟨hr, hkey⟩ := hf.entry (hf.table.mp ht) i
    rw [hr, hkey]
    exact h.scan (hf.table.mp ht) k hk i hi
  empty ht i hi := (hf.entry (hf.table.mp ht) i).1.trans (h.empty (hf.table.mp ht) i hi)
  live ht i hi := by
    rw [(hf.entry (hf.table.mp ht) i).1]
    exact h.live (hf.table.mp ht) i hi
  phase := h.phase.frame hf

/-- Steps that only move a program on. -/
theorem Frame.rfl' (s : Sys) (f : Pid → Code Unit) (c : Pid → Option Call) (m : Option Panic) (q : Pid) :
    Frame s { s with prog := f, call := c, panicked := m } q where
  table := Iff.rfl
  lock _ := Iff.rfl
  owned _ := le_rfl
  alone _ h := h
  entry _ _ := ⟨rfl, rfl⟩
  inode _ _ := ⟨rfl, rfl, rfl, rfl, fun _ => rfl⟩

theorem Synced.frame (h : Synced s i) (hf : Frame s s' q) (hl : s.lock i = some q) :
    Synced s' i := by
  obtain ⟨hd, ht, hs⟩ := h
  obtain ⟨hk, -, he, hc, hdisk⟩ := hf.inode i hl
  refine ⟨he ▸ hd, ?_, fun hclean => ?_⟩
  · rw [hk, hdisk ht]
    exact ht
  · rw [hk, hdisk ht, he]
    exact hs (hc ▸ hclean)

/-- A step of process `p`: what it has to keep on its own side. -/
theorem Inv.of_step (hi : Inv κ s) (p : Pid) (g' : Know) (hcore : Core s')
    (hframe : ∀ q ≠ p, Frame s s' q) (hp : Knows s' p g')
    (hprog : ∀ q ≠ p, s'.prog q = s.prog q ∧ s'.call q = s.call q)
    (hwp : wp spec (s'.prog p) (fin (s'.call p)) g')
    (hvalid : ∀ i, s'.lock i = some p → ¬g'.phase.About i → (s'.itable i).valid = true)
    (hsync : ∀ i, (∀ q ≠ p, s'.lock i ≠ some q) → 0 < (s'.itable i).ref →
      (s'.itable i).valid = true → (s'.lock i = some p → ¬g'.phase.Exempt i) → Synced s' i)
    (hpan : ∀ m, s'.panicked = some m → m = .noInodes ∨ m = .noType) :
    Inv (update κ p g') s' where
  toCore := hcore
  valid i q hl ha := by
    by_cases hq : q = p
    · subst hq
      rw [update_self] at ha
      exact hvalid i hl ha
    · rw [update_of_ne hq] at ha
      have hl' := ((hframe q hq).lock i).mp hl
      rw [((hframe q hq).inode i hl').2.1]
      exact hi.valid i q hl' ha
  sync i hr hv hex := by
    by_cases hother : ∃ q ≠ p, s'.lock i = some q
    · obtain ⟨q, hq, hl⟩ := hother
      have hl' := ((hframe q hq).lock i).mp hl
      refine (hi.sync i (hi.locked_pos hl') ?_ ?_).frame (hframe q hq) hl'
      · rw [← ((hframe q hq).inode i hl').2.1]
        exact hv
      · intro q' hq'
        have : q' = q := Option.some.inj (hq'.symm.trans hl')
        subst this
        simpa only [update_of_ne hq] using hex q' hl
    · refine hsync i (fun q hq hl => hother ⟨q, hq, hl⟩) hr hv fun hl => ?_
      simpa only [update_self] using hex p hl
  knows q := by
    by_cases hq : q = p
    · subst hq
      simpa only [update_self] using hp
    · rw [update_of_ne hq]
      exact (hi.knows q).frame (hframe q hq)
  prog q := by
    by_cases hq : q = p
    · subst hq
      simpa only [update_self] using hwp
    · rw [update_of_ne hq, (hprog q hq).1, (hprog q hq).2]
      exact hi.prog q
  panics := hpan

end

end Xv6.Itable
