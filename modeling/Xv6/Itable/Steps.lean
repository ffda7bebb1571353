import Xv6.Itable.Invariant

/-!
# Every operation keeps the invariant of the inode table
-/
namespace Xv6.Itable

set_option autoImplicit false

open Xv6.Lib Xv6.Lib.Prog Function
open Xv6.Fs (Dinode)

section

variable {κ : Pid → Know} {s s' : Sys} {p q : Pid} {f g g' : Know} {i j : Id} {r : Code Unit}

theorem Inv.fits (hi : Inv κ s) (p : Pid) (i : Id) : Fits (κ p) i (s.itable i) where
  want hw := hi.ref_pos ((hi.knows p).want i hw)
  hold hh := hi.locked_pos (((hi.knows p).hold i).mp hh)
  loaded d hd := by
    have h := (hi.knows p).phase
    rw [hd] at h
    exact h.2.2.2.1

/-- An entry that nobody else has locked. -/
theorem Inv.synced (hi : Inv κ s) (hother : ∀ q ≠ p, s.lock i ≠ some q)
    (hr : 0 < (s.itable i).ref) (hv : (s.itable i).valid = true)
    (hex : s.lock i = some p → ¬(κ p).phase.Exempt i) : Synced s i := by
  refine hi.sync i hr hv fun q hl => ?_
  by_cases hq : q = p
  · subst hq
    exact hex hl
  · exact absurd hl (hother q hq)

theorem not_exempt_of_none (h : g.phase = .none) : ¬g.phase.Exempt i := by
  rw [h]
  exact id

theorem not_about_of_none (h : g.phase = .none) : ¬g.phase.About i := by
  rw [h]
  exact id

/-! ## Operations that only read, and `itable.lock` -/

theorem Phase.Holds.setTable {ph : Phase} {put : Option Id} {t : Option Pid}
    (h : ph.Holds s p put) (hl : ∀ i, ph ≠ .last i) : ph.Holds { s with table := t } p put := by
  cases ph with
  | last i => exact absurd rfl (hl i)
  | _ => exact h

/-- Process `p` learns something, or takes or gives up `itable.lock`. -/
theorem Inv.quiet (hi : Inv κ s) {t : Option Pid} {c : Option Call}
    (ht : ∀ q ≠ p, t = some q ↔ s.table = some q)
    (hk : Knows { s with table := t } p f)
    (habout : ∀ i, s.lock i = some p → (κ p).phase.About i →
      f.phase.About i ∨ (s.itable i).valid = true)
    (hex : ∀ i, (κ p).phase.Exempt i → f.phase.Exempt i)
    (hw : wp spec r (fin c) f) :
    Inv (update κ p f)
      { s.goto p r with table := t, call := update s.call p c } := by
  have hframe : ∀ q, (t = some q ↔ s.table = some q) →
      Frame s { s.goto p r with table := t, call := update s.call p c } q := fun q hq =>
    ⟨hq, fun _ => Iff.rfl, fun _ => le_rfl, fun _ h => h, fun _ _ => ⟨rfl, rfl⟩,
      fun _ _ => ⟨rfl, rfl, rfl, rfl, fun _ => rfl⟩⟩
  refine hi.of_step p f ⟨hi.count, hi.unique, hi.owner, hi.dirty⟩ (fun q hq => hframe q (ht q hq))
    (hk.frame (.rfl' _ _ _ _ _)) (fun q hq => ?_) ?_ ?_ ?_ hi.panics
  · exact ⟨update_of_ne hq .., update_of_ne hq ..⟩
  · simpa only [Sys.goto, update_self] using hw
  · intro i hl ha
    by_cases hab : (κ p).phase.About i
    · exact (habout i hl hab).resolve_left ha
    · exact hi.valid i p hl hab
  · intro i hother hr hv hexi
    exact hi.synced hother hr hv fun hl he => hexi hl (hex i he)

theorem Inv.learn (hi : Inv κ s) (hk : Knows s p g')
    (habout : ∀ i, s.lock i = some p → (κ p).phase.About i →
      g'.phase.About i ∨ (s.itable i).valid = true)
    (hex : ∀ i, (κ p).phase.Exempt i → g'.phase.Exempt i)
    (hw : wp spec r (fin (s.call p)) g') : Inv (update κ p g') (s.goto p r) := by
  have h := hi.quiet (t := s.table) (fun _ _ => Iff.rfl) hk habout hex hw
  rwa [update_eq_self] at h

theorem Inv.acquire (hi : Inv κ s) (hfree : s.table = none) (k : Option Key)
    (hw : wp spec r (fin (s.call p)) ((κ p).acquire k)) :
    Inv (update κ p ((κ p).acquire k)) { s.goto p r with table := some p } := by
  have hk := hi.knows p
  have h := hi.quiet (f := (κ p).acquire k) (t := some p) (c := s.call p) (r := r) ?_ ?_
    (fun _ _ ha => .inl ha) (fun _ he => he) hw
  · rwa [update_eq_self] at h
  · intro q hq
    simp [hfree, Ne.symm hq]
  · refine ⟨by simp [Know.acquire], hk.hold, hk.want, hk.put, ?_, ?_, ?_, ?_⟩
    · intro _ k _ i hi
      exact absurd hi (Finset.notMem_empty i)
    · exact fun _ _ h => nomatch h
    · exact fun _ _ h => nomatch h
    · -- without the lock the process was not in the phase that needs it
      refine hk.phase.setTable fun i hl => ?_
      have hph := hk.phase
      rw [hl] at hph
      exact absurd (hfree.symm.trans hph.1) nofun

theorem Inv.release (hi : Inv κ s) (hheld : s.table = some p) (hlast : ∀ i, (κ p).phase ≠ .last i)
    (hw : wp spec r (fin (s.call p)) (κ p).release) :
    Inv (update κ p (κ p).release) { s.goto p r with table := none } := by
  have hk := hi.knows p
  have h := hi.quiet (f := (κ p).release) (t := none) (c := s.call p) (r := r) ?_ ?_
    (fun _ _ ha => .inl ha) (fun _ he => he) hw
  · rwa [update_eq_self] at h
  · intro q hq
    simp [hheld, Ne.symm hq]
  · exact ⟨by simp [Know.release], hk.hold, (fun _ h => nomatch h), hk.put, (nomatch ·),
      (nomatch ·), (nomatch ·), hk.phase.setTable hlast⟩

/-- Outside `iput` the phase stands for itself. -/
theorem Knows.setPhase (ph : Phase) (hk : Knows s p g) (hn : g.put = none)
    (h : ph.Holds s p none) : Knows s p { g with phase := ph } where
  table := hk.table
  hold := hk.hold
  want := hk.want
  put i hp := nomatch hn.symm.trans hp
  scan := hk.scan
  empty := hk.empty
  live := hk.live
  phase := by
    change ph.Holds s p g.put
    rwa [hn]

theorem Knows.learn (hk : Knows s p g) (hl : Learn g i (s.itable i) g') : Knows s p g' := by
  have hph := hk.phase
  cases hl with
  | none => exact hk
  | absent k ht hs he =>
    refine ⟨hk.table, hk.hold, hk.want, hk.put, ?_, ?_, hk.live, hk.phase⟩
    · intro htab k' hk' j hj
      obtain rfl : k = k' := Option.some.inj (hs.symm.trans hk')
      rcases Finset.mem_insert.mp hj with rfl | hj
      · exact he
      · exact hk.scan htab k hs j hj
    · intro htab j hj
      by_cases hnew : g.empty = none ∧ (s.itable i).ref = 0
      · rw [if_pos hnew] at hj
        obtain rfl := Option.some.inj hj
        exact hnew.2
      · rw [if_neg hnew] at hj
        exact hk.empty htab j hj
  | live ht he =>
    refine ⟨hk.table, hk.hold, hk.want, hk.put, hk.scan, hk.empty, ?_, hk.phase⟩
    intro _ j hj
    obtain rfl := Option.some.inj hj
    exact he
  | ready hn hp hv =>
    rw [hp] at hph
    exact hk.setPhase _ hn ⟨hph.1, hv, hph.2⟩
  | invalid hn hp hv =>
    rw [hp] at hph
    exact hk.setPhase _ hn ⟨rfl, hph.1, hv⟩
  | loaded d hp hd =>
    rw [hp] at hph
    obtain ⟨hn, hlock, hv, -, hc, -⟩ := hph
    exact hk.setPhase _ hn ⟨hlock, hv, hc⟩

theorem Learn.about (hl : Learn g i (s.itable i) g') (hk : Knows s p g)
    (hab : g.phase.About j) : g'.phase.About j ∨ (s.itable j).valid = true := by
  have hph := hk.phase
  cases hl with
  | none | absent | live => exact .inl hab
  | ready hn hp hv =>
    rw [hp] at hab
    obtain rfl : i = j := hab
    exact .inr hv
  | invalid hn hp hv =>
    rw [hp] at hab
    exact .inl hab
  | loaded d hp hd =>
    rw [hp] at hab hph
    obtain rfl : i = j := hab
    exact .inr hph.2.2.1

theorem Learn.exempt {e : Inode} (hl : Learn g i e g') (hex : g.phase.Exempt j) :
    g'.phase.Exempt j := by
  cases hl with
  | none | absent | live => exact hex
  | ready hn hp hv | invalid hn hp hv =>
    rw [hp] at hex
    exact hex.elim
  | loaded d hp hd =>
    rw [hp] at hex
    exact absurd hex.2 hd

/-! ## References -/

/-- A step of the holder of `itable.lock` on one entry, as others see it. -/
theorem frame_setRefs {e : Inode} {rs : Multiset Ref} (ht : s.table = some p) (hq : q ≠ p)
    (ho : ∀ j, owned s.refs q j ≤ owned rs q j) (ha : ∀ j, (j, {q}) ∈ s.refs → (j, {q}) ∈ rs)
    (he : s.lock i = some q → e.key = (s.itable i).key ∧ e.valid = (s.itable i).valid ∧
      e.din = (s.itable i).din) :
    Frame s { (s.setInode i e).goto p r with refs := rs } q where
  table := Iff.rfl
  lock _ := Iff.rfl
  owned := ho
  alone := ha
  entry hq' := absurd (Option.some.inj (hq'.symm.trans ht)) hq
  inode j hl := by
    by_cases hj : j = i
    · subst hj
      obtain ⟨hk, hv, hd⟩ := he hl
      simp [Sys.goto, Sys.setInode, hk, hv, hd]
    · simp [Sys.goto, Sys.setInode, hj]

/-- Such a step by process `p`, which has nothing else in hand. -/
theorem Inv.setRefs (hi : Inv κ s) {e : Inode} {rs : Multiset Ref} (ht : s.table = some p)
    (hph : (κ p).phase = .none)
    (ho : ∀ q ≠ p, ∀ j, owned s.refs q j ≤ owned rs q j)
    (ha : ∀ q ≠ p, ∀ j, (j, {q}) ∈ s.refs → (j, {q}) ∈ rs)
    (hown : ∀ j, s.lock j = some p → 0 < owned rs p j)
    (hkeep : 0 < (s.itable i).ref → e.key = (s.itable i).key ∧ e.valid = (s.itable i).valid ∧
      e.din = (s.itable i).din)
    (hfresh : 0 < e.ref → e.valid = true → 0 < (s.itable i).ref)
    (hcount : ∀ j, ((update s.itable i e) j).ref = count rs j)
    (huniq : ∀ j ≠ i, 0 < e.ref → 0 < (s.itable j).ref → (s.itable j).key ≠ e.key)
    (hw : wp spec r (fin (s.call p)) (.tabled (κ p).hold)) :
    Inv (update κ p (.tabled (κ p).hold))
      { (s.setInode i e).goto p r with refs := rs } := by
  have hk := hi.knows p
  have hlock : ∀ q, s.lock i = some q → 0 < (s.itable i).ref := fun q => hi.locked_pos
  refine hi.of_step p _ ⟨hcount, ?_, ?_, hi.dirty⟩
    (fun q hq => frame_setRefs ht hq (ho q hq) (ha q hq) fun hl => hkeep (hlock q hl)) ?_
    (fun q hq => ⟨update_of_ne hq .., rfl⟩) ?_ ?_ ?_ hi.panics
  · intro j j' hj hj' hkey
    change 0 < ((update s.itable i e) j).ref at hj
    change 0 < ((update s.itable i e) j').ref at hj'
    change ((update s.itable i e) j).key = ((update s.itable i e) j').key at hkey
    by_cases hji : j = i <;> by_cases hji' : j' = i
    · rw [hji, hji']
    · subst hji
      rw [update_self] at hj hkey
      rw [update_of_ne hji'] at hj' hkey
      exact absurd hkey.symm (huniq j' hji' hj hj')
    · subst hji'
      rw [update_self] at hj' hkey
      rw [update_of_ne hji] at hj hkey
      exact absurd hkey (huniq j hji hj' hj)
    · rw [update_of_ne hji] at hj hkey
      rw [update_of_ne hji'] at hj' hkey
      exact hi.unique j j' hj hj' hkey
  · intro j q hl
    by_cases hq : q = p
    · subst hq
      exact hown j hl
    · exact (hi.owner j q hl).trans_le (ho q hq j)
  · exact ⟨by simp [Know.tabled, Sys.goto, Sys.setInode, ht], hk.hold, (fun _ h => nomatch h),
      (fun _ h => nomatch h), (fun _ _ h => nomatch h), (fun _ _ h => nomatch h),
      (fun _ _ h => nomatch h), trivial⟩
  · simpa [Sys.goto, Sys.setInode] using hw
  · intro j hl _
    change ((update s.itable i e) j).valid = true
    have hv := hi.valid j p hl (not_about_of_none hph)
    by_cases hji : j = i
    · subst hji
      rw [update_self, (hkeep (hlock p hl)).2.1]
      exact hv
    · rwa [update_of_ne hji]
  · intro j hother hr hv _
    change 0 < ((update s.itable i e) j).ref at hr
    change ((update s.itable i e) j).valid = true at hv
    change _ ∧ _ ∧ _
    simp only [Sys.goto, Sys.setInode]
    by_cases hji : j = i
    · subst hji
      rw [update_self] at hr hv ⊢
      obtain ⟨hkey, hval, hdin⟩ := hkeep (hfresh hr hv)
      rw [hkey, hdin]
      exact hi.synced hother (hfresh hr hv) (hval ▸ hv) fun _ => not_exempt_of_none hph
    · rw [update_of_ne hji] at hr hv ⊢
      exact hi.synced hother hr hv fun _ => not_exempt_of_none hph

theorem Inv.addRef (hi : Inv κ s) (ht : s.table = some p) (hph : (κ p).phase = .none)
    (hpos : 0 < (s.itable i).ref) (hw : wp spec r (fin (s.call p)) (.tabled (κ p).hold)) :
    Inv (update κ p (.tabled (κ p).hold))
      { (s.setInode i { s.itable i with ref := (s.itable i).ref + 1 }).goto p r with
        refs := (i, {p}) ::ₘ s.refs } := by
  have hmono : ∀ q j, owned s.refs q j ≤ owned ((i, {p}) ::ₘ s.refs) q j := fun q j => by
    rw [owned_cons]
    exact Nat.le_add_right ..
  refine hi.setRefs ht hph (fun q _ => hmono q) (fun _ _ _ => Multiset.mem_cons_of_mem)
    (fun j hl => (hi.owner j p hl).trans_le (hmono p j)) (fun _ => ⟨rfl, rfl, rfl⟩)
    (fun _ _ => hpos) ?_ ?_ hw
  · intro j
    rw [count_cons, ← hi.count j]
    by_cases hj : j = i
    · subst hj
      simp
    · simp [hj, Ne.symm hj]
  · intro j hj _ hr hkey
    exact hj (hi.unique j i hr hpos hkey)

theorem Inv.subRef (hi : Inv κ s) (ht : s.table = some p) (hph : (κ p).phase = .none)
    (hput : (κ p).put = some i) (hw : wp spec r (fin (s.call p)) (.tabled (κ p).hold)) :
    Inv (update κ p (.tabled (κ p).hold))
      { (s.setInode i { s.itable i with ref := (s.itable i).ref - 1 }).goto p r with
        refs := s.refs.erase (i, {p}) } := by
  obtain ⟨hmem, htwo⟩ := (hi.knows p).put i hput
  have hpos : 0 < (s.itable i).ref := by
    have := count_erase (i := i) hmem
    rw [if_pos rfl] at this
    rw [hi.count]
    omega
  refine hi.setRefs ht hph ?_ ?_ ?_ (fun _ => ⟨rfl, rfl, rfl⟩) (fun _ _ => hpos) ?_ ?_ hw
  · intro q hq j
    rw [owned_erase (p := q) (i := j) hmem]
    simp [hq]
  · intro q hq j hj
    refine (Multiset.mem_erase_of_ne ?_).mpr hj
    intro heq
    exact hq (Finset.singleton_injective (Prod.mk.inj heq).2)
  · intro j hl
    have herase := owned_erase (p := p) (i := j) hmem
    by_cases hj : i = j
    · subst hj
      have h2 := htwo hl
      rw [hph] at h2
      simp only [reduceCtorEq, false_or] at h2
      simp only [Finset.mem_singleton, and_self, if_true] at herase
      omega
    · have hown := hi.owner j p hl
      simp only [hj, false_and, if_false] at herase
      omega
  · intro j
    have herase := count_erase (i := j) hmem
    have hc := hi.count j
    by_cases hj : j = i
    · subst hj
      simp only [if_true] at herase
      simp only [update_self]
      omega
    · simp only [Ne.symm hj, if_false] at herase
      rw [update_of_ne hj]
      omega
  · intro j hj _ hr hkey
    exact hj (hi.unique j i hr hpos hkey)

theorem Inv.recycle (hi : Inv κ s) {k : Key} (ht : s.table = some p) (hph : (κ p).phase = .none)
    (hscan : (κ p).scan = some k) (hseen : (κ p).seen = Finset.univ)
    (hempty : (κ p).empty = some i) (hw : wp spec r (fin (s.call p)) (.tabled (κ p).hold)) :
    Inv (update κ p (.tabled (κ p).hold))
      { (s.setInode i { s.itable i with key := k, ref := 1, valid := false }).goto p r with
        refs := (i, {p}) ::ₘ s.refs } := by
  have hzero := (hi.knows p).empty ht i hempty
  have hmono : ∀ q j, owned s.refs q j ≤ owned ((i, {p}) ::ₘ s.refs) q j := fun q j => by
    rw [owned_cons]
    exact Nat.le_add_right ..
  refine hi.setRefs ht hph (fun q _ => hmono q) (fun _ _ _ => Multiset.mem_cons_of_mem)
    (fun j hl => (hi.owner j p hl).trans_le (hmono p j)) (fun h => absurd hzero h.ne')
    (fun _ h => nomatch h) ?_ ?_ hw
  · intro j
    rw [count_cons, ← hi.count j]
    by_cases hj : j = i
    · subst hj
      simp [hzero]
    · simp [hj, Ne.symm hj]
  · intro j _ _ hr hkey
    exact (hi.knows p).scan ht k hscan j (hseen ▸ Finset.mem_univ j) ⟨hr, hkey⟩

/-! ## Sleep-locks -/

theorem frame_setLock {o : Option Pid} (hq : q ≠ p) (hold : s.lock i = none ∨ s.lock i = some p)
    (hnew : o = none ∨ o = some p) :
    Frame s { s.goto p r with lock := update s.lock i o } q where
  table := Iff.rfl
  lock j := by
    by_cases hj : j = i
    · subst hj
      rcases hold with hold | hold <;> rcases hnew with rfl | rfl <;> simp [hold, Ne.symm hq]
    · simp [hj]
  owned _ := le_rfl
  alone _ h := h
  entry _ _ := ⟨rfl, rfl⟩
  inode _ _ := ⟨rfl, rfl, rfl, rfl, fun _ => rfl⟩

theorem Knows.hold_insert (hk : Knows s p g) (j : Id) :
    j ∈ insert i g.hold ↔ update s.lock i (some p) j = some p := by
  by_cases hj : j = i
  · simp [hj]
  · simp [hj, hk.hold]

theorem Knows.hold_erase (hk : Knows s p g) (j : Id) :
    j ∈ g.hold.erase i ↔ update s.lock i none j = some p := by
  by_cases hj : j = i
  · simp [hj]
  · simp [hj, hk.hold]

theorem Knows.takes (hk : Knows s p g) (ht : Takes g i g') (hclean : s.dirty i = false) :
    Knows { s.goto p r with lock := update s.lock i (some p) } p g' := by
  cases ht with
  | ilock htab hwant hput hnone =>
    refine ⟨?_, hk.hold_insert, (fun _ h => nomatch h), (fun _ h => nomatch h),
      (fun _ _ h => nomatch h), (fun _ _ h => nomatch h), (fun _ _ h => nomatch h),
      update_self .., hclean⟩
    change false = true ↔ s.table = some p
    rw [← hk.table, htab]
  | iput hlast =>
    have hph := hk.phase
    rw [hlast] at hph
    refine ⟨hk.table, hk.hold_insert, hk.want, ?_, hk.scan, hk.empty, hk.live,
      update_self .., hph.2.2⟩
    intro j hj
    obtain rfl : i = j := Option.some.inj (hph.2.2.symm.trans hj)
    exact ⟨(hk.put i hj).1, fun _ => .inl rfl⟩

theorem Takes.owned (ht : Takes g i g') (hk : Knows s p g) : 0 < owned s.refs p i := by
  cases ht with
  | ilock _ hwant _ _ => exact hk.want i hwant
  | iput hlast =>
    have hph := hk.phase
    rw [hlast] at hph
    exact owns_iff.mp ⟨_, (hk.put i hph.2.2).1, rfl, Finset.mem_singleton_self p⟩

/-- Before it takes a sleep-lock the process has no inode at work. -/
theorem Takes.phase (ht : Takes g i g') (j : Id) :
    ¬g.phase.About j ∧ ¬g.phase.Exempt j ∧ g'.phase.About i := by
  cases ht with
  | ilock _ _ _ hnone => exact ⟨not_about_of_none hnone, not_exempt_of_none hnone, rfl⟩
  | iput hlast =>
    rw [hlast]
    exact ⟨id, id, rfl⟩

theorem Inv.acquiresleep (hi : Inv κ s) (hfree : s.lock i = none) (ht : Takes (κ p) i g')
    (hw : wp spec r (fin (s.call p)) g') :
    Inv (update κ p g')
      { s.goto p r with lock := update s.lock i (some p) } := by
  have hk := hi.knows p
  have hclean : s.dirty i = false := by
    rw [← Bool.not_eq_true]
    exact fun h => hi.dirty i h hfree
  refine hi.of_step p _ ⟨hi.count, hi.unique, ?_, ?_⟩
    (fun q hq => frame_setLock hq (.inl hfree) (.inr rfl)) (hk.takes ht hclean)
    (fun q hq => ⟨update_of_ne hq .., rfl⟩) (by simpa [Sys.goto] using hw) ?_ ?_ hi.panics
  · intro j q hl
    change update s.lock i (some p) j = some q at hl
    by_cases hj : j = i
    · subst hj
      rw [update_self] at hl
      obtain rfl := Option.some.inj hl
      have hown := ht.owned hk
      exact hown
    · rw [update_of_ne hj] at hl
      exact hi.owner j q hl
  · intro j hd
    change update s.lock i (some p) j ≠ none
    by_cases hj : j = i
    · rw [hj, update_self]
      exact nofun
    · rw [update_of_ne hj]
      exact hi.dirty j hd
  · intro j hl hab
    change update s.lock i (some p) j = some p at hl
    by_cases hj : j = i
    · subst hj
      exact absurd (ht.phase j).2.2 hab
    · rw [update_of_ne hj] at hl
      exact hi.valid j p hl (ht.phase j).1
  · intro j hother hr hv hex
    refine hi.synced (i := j) (p := p) ?_ hr hv fun _ => (ht.phase j).2.1
    intro q hq hl
    refine hother q hq ?_
    by_cases hj : j = i
    · subst hj
      exact absurd (hfree.symm.trans hl) nofun
    · exact (update_of_ne hj ..).trans hl

theorem Inv.releasesleep (hi : Inv κ s) (hph : (κ p).phase = .locked i)
    (hw : wp spec r (fin (s.call p)) { κ p with hold := (κ p).hold.erase i, phase := .none }) :
    Inv (update κ p { κ p with hold := (κ p).hold.erase i, phase := .none })
      { s.goto p r with lock := update s.lock i none } := by
  have hk := hi.knows p
  obtain ⟨hlock, hclean⟩ : s.lock i = some p ∧ s.dirty i = false := by
    have h := hk.phase
    rwa [hph] at h
  have hother : ∀ {j q}, update s.lock i none j = some q → j ≠ i ∧ s.lock j = some q := by
    intro j q hl
    by_cases hj : j = i
    · simp [hj] at hl
    · exact ⟨hj, by rwa [update_of_ne hj] at hl⟩
  refine hi.of_step p _ ⟨hi.count, hi.unique, fun j q hl => hi.owner j q (hother hl).2, ?_⟩
    (fun q hq => frame_setLock hq (.inr hlock) (.inl rfl)) ?_
    (fun q hq => ⟨update_of_ne hq .., rfl⟩) (by simpa [Sys.goto] using hw) ?_ ?_ hi.panics
  · intro j hd
    change update s.lock i none j ≠ none
    have hj : j ≠ i := by
      rintro rfl
      exact absurd (hd.symm.trans hclean) nofun
    rw [update_of_ne hj]
    exact hi.dirty j hd
  · refine ⟨hk.table, hk.hold_erase, hk.want, ?_, hk.scan, hk.empty, hk.live, trivial⟩
    intro j hj
    obtain ⟨hmem, htwo⟩ := hk.put j hj
    refine ⟨hmem, fun hl => ?_⟩
    obtain ⟨hji, hl⟩ := hother hl
    rcases htwo hl with h | h | h
    · exact absurd (hph.symm.trans h) nofun
    · exact absurd (Phase.locked.inj (hph.symm.trans h)).symm hji
    · exact .inr (.inr h)
  · intro j hl _
    obtain ⟨hji, hl⟩ := hother hl
    refine hi.valid j p hl ?_
    rw [hph]
    exact Ne.symm hji
  · intro j hfree hr hv _
    refine hi.synced (i := j) (p := p) ?_ hr hv fun _ => ?_
    · intro q hq hl
      refine hfree q hq ((update_of_ne ?_ ..).trans hl)
      rintro rfl
      exact hq (Option.some.inj (hl.symm.trans hlock))
    · rw [hph]
      exact id

/-! ## Locked inodes and the disk -/

/-- The state in which process `p` has changed an inode, and has gone on. -/
def Sys.change (s : Sys) (p : Pid) (i : Id) (v : Bool) (d : Dinode) (b : Bool) (r : Code Unit)
    (c : Option Call) : Sys :=
  { ((s.setInode i { s.itable i with valid := v, din := d }).setDirty i b).goto p r with
    call := update s.call p c }

variable {v b : Bool} {d : Dinode} {c : Option Call}

theorem change_self : (s.change p i v d b r c).itable i = { s.itable i with valid := v, din := d } :=
  update_self ..

theorem change_of_ne (h : j ≠ i) : (s.change p i v d b r c).itable j = s.itable j :=
  update_of_ne h ..

theorem change_dirty : (s.change p i v d b r c).dirty i = b := update_self ..

theorem change_dirty_of_ne (h : j ≠ i) : (s.change p i v d b r c).dirty j = s.dirty j :=
  update_of_ne h ..

theorem change_ref (j : Id) : ((s.change p i v d b r c).itable j).ref = (s.itable j).ref := by
  by_cases hj : j = i
  · rw [hj, change_self]
  · rw [change_of_ne hj]

theorem change_key (j : Id) : ((s.change p i v d b r c).itable j).key = (s.itable j).key := by
  by_cases hj : j = i
  · rw [hj, change_self]
  · rw [change_of_ne hj]

/-- A change of an inode that `p` has locked, as others see it. -/
theorem frame_change (hq : q ≠ p) (hl : s.lock i = some p) :
    Frame s (s.change p i v d b r c) q where
  table := Iff.rfl
  lock _ := Iff.rfl
  owned _ := le_rfl
  alone _ h := h
  entry _ j := ⟨change_ref j, change_key j⟩
  inode j hj := by
    have hji : j ≠ i := by
      rintro rfl
      exact hq (Option.some.inj (hj.symm.trans hl))
    rw [change_of_ne hji, change_dirty_of_ne hji]
    exact ⟨rfl, rfl, rfl, rfl, fun _ => rfl⟩

theorem Knows.change (hk : Knows s p g) (ph : Phase)
    (hput : ∀ j, g.put = some j → ph = .freeing j ∨ ph = .locked j)
    (hph : ph.Holds (s.change p i v d b r c) p g.put) :
    Knows (s.change p i v d b r c) p { g with phase := ph } where
  table := hk.table
  hold := hk.hold
  want := hk.want
  put j hj := ⟨(hk.put j hj).1, fun _ => (hput j hj).imp_right .inl⟩
  scan ht k hs j hj := by
    rw [change_ref, change_key]
    exact hk.scan ht k hs j hj
  empty ht j hj := (change_ref j).trans (hk.empty ht j hj)
  live ht j hj := (change_ref j).symm ▸ hk.live ht j hj
  phase := hph

theorem Inv.change (hi : Inv κ s) (hl : s.lock i = some p)
    (habout : ∀ j ≠ i, ¬(κ p).phase.About j) (hexempt : ∀ j ≠ i, ¬(κ p).phase.Exempt j)
    (hk : Knows (s.change p i v d b r c) p f) (hvalid : ¬f.phase.About i → v = true)
    (hsync : v = true → ¬f.phase.Exempt i → d.type ≠ 0 ∧ (s.disk (s.itable i).key).type ≠ 0 ∧
      (b = false → s.disk (s.itable i).key = d))
    (hw : wp spec r (fin c) f) : Inv (update κ p f) (s.change p i v d b r c) := by
  refine hi.of_step p f ⟨?_, ?_, hi.owner, ?_⟩ (fun q hq => frame_change hq hl) hk
    (fun q hq => ⟨update_of_ne hq .., update_of_ne hq ..⟩)
    (by simpa [Sys.change, Sys.goto] using hw) ?_ ?_ hi.panics
  · exact fun j => (change_ref j).trans (hi.count j)
  · intro j j'
    rw [change_ref, change_ref, change_key, change_key]
    exact hi.unique j j'
  · intro j hd
    by_cases hj : j = i
    · rw [hj]
      exact fun h => nomatch hl.symm.trans h
    · rw [change_dirty_of_ne hj] at hd
      exact hi.dirty j hd
  · intro j hlj hab
    by_cases hj : j = i
    · subst hj
      rw [change_self]
      exact hvalid hab
    · rw [change_of_ne hj]
      exact hi.valid j p hlj (habout j hj)
  · intro j hother hr hv hex
    rw [change_ref] at hr
    by_cases hj : j = i
    · subst hj
      rw [change_self] at hv
      rw [Synced, change_self, change_dirty]
      exact hsync hv (hex hl)
    · rw [change_of_ne hj] at hv
      rw [Synced, change_of_ne hj, change_dirty_of_ne hj]
      exact hi.synced hother hr hv fun _ => hexempt j hj

/-- `ilock` stores what it has read. -/
theorem Inv.fill (hi : Inv κ s) (hph : (κ p).phase = .read i d)
    (hw : wp spec r (fin (s.call p)) { κ p with phase := .filled i d }) :
    Inv (update κ p { κ p with phase := .filled i d })
      (((s.setInode i { s.itable i with din := d }).setDirty i true).goto p r) := by
  have hk := hi.knows p
  have h := hk.phase
  rw [hph] at h
  obtain ⟨hn, hl, hv, hd⟩ := h
  have hstep := hi.change (v := (s.itable i).valid) (d := d) (b := true) (c := s.call p) hl ?_ ?_
    (hk.change (.filled i d) ?_ ?_) (fun h => absurd rfl h) ?_ hw
  · rwa [Sys.change, update_eq_self] at hstep
  · rw [hph]
    exact fun j hj => Ne.symm hj
  · rw [hph]
    exact fun _ _ => id
  · exact fun j hj => nomatch hn.symm.trans hj
  · refine ⟨hn, hl, ?_, ?_, ?_⟩
    · rw [change_self]
      exact hv
    · rw [change_self]
    · rw [change_self]
      exact hd
  · exact fun ht => nomatch hv.symm.trans ht

/-- `ilock` declares it valid. -/
theorem Inv.load (hi : Inv κ s) (hph : (κ p).phase = .filled i d)
    (hw : wp spec r (fin (s.call p)) { κ p with phase := .loaded i d }) :
    Inv (update κ p { κ p with phase := .loaded i d })
      (((s.setInode i { s.itable i with valid := true }).setDirty i false).goto p r) := by
  have hk := hi.knows p
  have h := hk.phase
  rw [hph] at h
  obtain ⟨hn, hl, -, he, hd⟩ := h
  have hstep := hi.change (v := true) (d := (s.itable i).din) (b := false) (c := s.call p) hl ?_ ?_
    (hk.change (.loaded i d) ?_ ?_) (fun h => absurd rfl h) ?_ hw
  · rwa [Sys.change, update_eq_self] at hstep
  · rw [hph]
    exact fun j hj => Ne.symm hj
  · rw [hph]
    exact fun _ _ => id
  · exact fun j hj => nomatch hn.symm.trans hj
  · refine ⟨hn, hl, ?_, ?_, change_dirty, ?_⟩
    · rw [change_self]
    · rw [change_self]
      exact he
    · rw [change_self]
      exact hd
  · intro _ hex
    have ht : d.type ≠ 0 := fun h => hex ⟨rfl, h⟩
    rw [he]
    exact ⟨ht, (hd ht).symm ▸ ht, fun _ => hd ht⟩

/-- `iput` changes the inode that it frees. -/
theorem Inv.editFreeing (hi : Inv κ s) (hph : (κ p).phase = .freeing i)
    (hw : wp spec r (fin (s.call p)) (κ p)) :
    Inv κ (((s.setInode i { s.itable i with din := d }).setDirty i true).goto p r) := by
  have hk := hi.knows p
  have h := hk.phase
  rw [hph] at h
  obtain ⟨hl, hput⟩ := h
  have hself : { κ p with phase := .freeing i } = κ p := by rw [← hph]
  have hstep := hi.change (v := (s.itable i).valid) (d := d) (b := true) (c := s.call p)
    (f := κ p) hl ?_ ?_ ?_ ?_ ?_ hw
  · rwa [Sys.change, update_eq_self, update_eq_self] at hstep
  · rw [hph]
    exact fun j hj => Ne.symm hj
  · rw [hph]
    exact fun j hj => Ne.symm hj
  · rw [← hself]
    refine hk.change _ ?_ ⟨hl, hput⟩
    intro j hj
    obtain rfl : i = j := Option.some.inj (hput.symm.trans hj)
    exact .inl rfl
  · rw [hph]
    exact fun h => absurd rfl h
  · rw [hph]
    exact fun _ h => absurd rfl h

/-- `iput` is done with the inode. -/
theorem Inv.unload (hi : Inv κ s) (hph : (κ p).phase = .freeing i)
    (hw : wp spec r (fin (s.call p)) { κ p with phase := .locked i }) :
    Inv (update κ p { κ p with phase := .locked i })
      (((s.setInode i { s.itable i with valid := false }).setDirty i false).goto p r) := by
  have hk := hi.knows p
  have h := hk.phase
  rw [hph] at h
  obtain ⟨hl, hput⟩ := h
  have hstep := hi.change (v := false) (d := (s.itable i).din) (b := false) (c := s.call p) hl ?_ ?_
    (hk.change (.locked i) ?_ ⟨hl, change_dirty⟩) (fun h => absurd rfl h) nofun hw
  · rwa [Sys.change, update_eq_self] at hstep
  · rw [hph]
    exact fun j hj => Ne.symm hj
  · rw [hph]
    exact fun j hj => Ne.symm hj
  · intro j hj
    obtain rfl : i = j := Option.some.inj (hput.symm.trans hj)
    exact .inr rfl

/-- A write of the disk that does not touch the inodes that others have locked. -/
theorem frame_setDisk {f : Id → Bool} {k : Key}
    (hd : ∀ j, s.lock j = some q → f j = s.dirty j ∧
      ((s.disk (s.itable j).key).type ≠ 0 → (s.itable j).key ≠ k)) :
    Frame s { s.goto p r with dirty := f, disk := update s.disk k d } q where
  table := Iff.rfl
  lock _ := Iff.rfl
  owned _ := le_rfl
  alone _ h := h
  entry _ _ := ⟨rfl, rfl⟩
  inode j hj :=
    ⟨rfl, rfl, rfl, (hd j hj).1, fun ht => update_of_ne ((hd j hj).2 ht) ..⟩

theorem Inv.iupdate (hi : Inv κ s) (hl : s.lock i = some p)
    (hph : (κ p).phase = .none ∨ (κ p).phase = .freeing i)
    (hw : wp spec r (fin (s.call p)) (κ p)) :
    Inv κ { (s.setDirty i false).goto p r with
        disk := update s.disk (s.itable i).key (s.itable i).din } := by
  have hk := hi.knows p
  have hpos := hi.locked_pos hl
  have hne : ∀ j ≠ i, 0 < (s.itable j).ref → (s.itable j).key ≠ (s.itable i).key :=
    fun j hj hr hkey => hj (hi.unique j i hr hpos hkey)
  rw [← update_eq_self p κ]
  refine hi.of_step p _ ⟨hi.count, hi.unique, hi.owner, ?_⟩
    (fun q hq => frame_setDisk fun j hj => ?_) ?_
    (fun q hq => ⟨update_of_ne hq .., rfl⟩)
    (by simpa [Sys.goto, Sys.setDirty] using hw) (fun j => hi.valid j p) ?_ hi.panics
  · intro j hd
    change update s.dirty i false j = true at hd
    by_cases hj : j = i
    · simp [hj] at hd
    · rw [update_of_ne hj] at hd
      exact hi.dirty j hd
  · have hji : j ≠ i := by
      rintro rfl
      exact hq (Option.some.inj (hj.symm.trans hl))
    exact ⟨update_of_ne hji .., fun _ => hne j hji (hi.locked_pos hj)⟩
  · refine ⟨hk.table, hk.hold, hk.want, hk.put, hk.scan, hk.empty, hk.live, ?_⟩
    have h := hk.phase
    rcases hph with hph | hph
    · rw [hph]
      trivial
    · rw [hph] at h ⊢
      exact h
  · intro j hother hr hv hex
    have hsynced := hi.synced hother hr hv hex
    by_cases hj : j = i
    · subst hj
      have ht := hsynced.1
      simp only [Synced, Sys.goto, Sys.setDirty, update_self]
      exact ⟨ht, ht, fun _ => trivial⟩
    · simp only [Synced, Sys.goto, Sys.setDirty, update_of_ne hj,
        update_of_ne (hne j hj hr)]
      exact hsynced

theorem Inv.claim (hi : Inv κ s) {k : Key} {type : Nat}
    (hfree : (s.disk k).type = 0) (hw : wp spec r (fin (s.call p)) (κ p)) :
    Inv κ { s.goto p r with disk := update s.disk k (.fresh type) } := by
  have hne : ∀ j, (s.disk (s.itable j).key).type ≠ 0 → (s.itable j).key ≠ k := by
    rintro j hj rfl
    exact hj hfree
  rw [← update_eq_self p κ]
  refine hi.of_step p _ ⟨hi.count, hi.unique, hi.owner, hi.dirty⟩
    (fun q _ => frame_setDisk fun j _ => ⟨rfl, hne j⟩)
    ((hi.knows p).frame (frame_setDisk fun j _ => ⟨rfl, hne j⟩))
    (fun q hq => ⟨update_of_ne hq .., rfl⟩) (by simpa [Sys.goto] using hw)
    (fun j hl hab => hi.valid j p hl hab) ?_ hi.panics
  intro j hother hr hv hex
  obtain ⟨hd, hdt, hs⟩ := hi.synced hother hr hv hex
  rw [Synced]
  simp only [Sys.goto, update_of_ne (hne j hdt)]
  exact ⟨hd, hdt, hs⟩

end

end Xv6.Itable
