import Xv6.Itable.Steps

/-!
# The protocol of in-memory inodes

In every run of the inode table there is one entry for each inode in use, an `iput` that
finds its reference to be the only one does not wait for the sleep-lock, and what `ilock`
returns agrees with the disk.
-/
namespace Xv6.Itable

set_option autoImplicit false

open Xv6.Lib Xv6.Lib.Prog
open Xv6.Fs (Dinode)

section

variable {κ : Pid → Know} {s s' : Sys} {p : Pid} {i : Id}

/-! ## One step -/

theorem Inv.panic (hi : Inv κ s) {m : Panic} (hm : m = .noInodes ∨ m = .noType) :
    Inv κ (s.panic m) where
  count := hi.count
  unique := hi.unique
  owner := hi.owner
  dirty := hi.dirty
  valid := hi.valid
  sync := hi.sync
  knows q := (hi.knows q).frame (.rfl' ..)
  prog := hi.prog
  panics _ hm' := Option.some.inj hm' ▸ hm

theorem Inv.perform (hi : Inv κ s) {e : Op} {k : e.Ans → Code Unit}
    (hw : wp spec (.op e k) (fin (s.call p)) (κ p)) (h : perform s p e k = some s') :
    ∃ κ', Inv κ' s' := by
  have hk := hi.knows p
  cases e with
  | acquire =>
    obtain ⟨hf, key, hw⟩ := hw
    have hnot : s.table ≠ some p := fun ht => nomatch hf.symm.trans (hk.table.mpr ht)
    simp only [Itable.perform] at h
    split at h
    case h_1 hfree =>
      cases h
      exact ⟨_, hi.acquire hfree key hw⟩
    case h_2 q hq =>
      split at h
      case isTrue heq => exact absurd (heq ▸ hq) hnot
      case isFalse => cases h
  | release =>
    obtain ⟨ht, hlast, hw⟩ := hw
    have hheld := hk.table.mp ht
    simp only [Itable.perform, if_pos hheld] at h
    cases h
    exact ⟨_, hi.release hheld hlast hw⟩
  | inode i =>
    cases h
    obtain ⟨g', hl, hw⟩ := hw (s.itable i) (hi.fits p i)
    exact ⟨_, hi.learn (hk.learn hl) (fun j _ => hl.about hk) (fun j => hl.exempt) hw⟩
  | check i =>
    cases h
    obtain ⟨ht, hput, hph, hw⟩ := hw
    rcases hw (s.itable i) with hw | ⟨hone, hw⟩
    · exact ⟨_, hi.learn hk (fun _ _ => .inl) (fun _ => id) hw⟩
    · refine ⟨_, hi.learn ?_ (fun j _ h => absurd h (not_about_of_none hph))
        (fun j h => absurd h (not_exempt_of_none hph)) hw⟩
      refine ⟨hk.table, hk.hold, hk.want, ?_, hk.scan, hk.empty, hk.live, hk.table.mp ht, hone, hput⟩
      intro j hj
      obtain ⟨hmem, htwo⟩ := hk.put j hj
      rw [hph] at htwo
      exact ⟨hmem, fun hl => .inr (.inr (by simpa using htwo hl))⟩
  | addRef i =>
    cases h
    obtain ⟨ht, hlive, hph, hw⟩ := hw
    have htab := hk.table.mp ht
    have hpos : 0 < (s.itable i).ref := by
      rcases hlive with hwant | hlive
      · exact hi.ref_pos (hk.want i hwant)
      · exact hk.live htab i hlive
    exact ⟨_, hi.addRef htab hph hpos hw⟩
  | subRef i =>
    cases h
    obtain ⟨ht, hput, hph, hw⟩ := hw
    exact ⟨_, hi.subRef (hk.table.mp ht) hph hput hw⟩
  | recycle i key =>
    cases h
    obtain ⟨ht, hscan, hseen, hempty, hph, hw⟩ := hw
    exact ⟨_, hi.recycle (hk.table.mp ht) hph hscan hseen hempty hw⟩
  | acquiresleep i =>
    obtain ⟨g', ht, hw⟩ := hw
    simp only [Itable.perform] at h
    split at h
    case h_1 hfree =>
      cases h
      exact ⟨_, hi.acquiresleep hfree ht hw⟩
    case h_2 => cases h
  | releasesleep i =>
    cases h
    exact ⟨_, hi.releasesleep hw.1 hw.2⟩
  | holdingsleep i =>
    cases h
    have hdec : decide (i ∈ (κ p).hold) = decide (s.lock i = some p) :=
      decide_eq_decide.mpr (hk.hold i)
    have hw : wp spec (k (decide (i ∈ (κ p).hold))) (fin (s.call p)) (κ p) := hw
    rw [hdec] at hw
    exact ⟨_, hi.learn hk (fun _ _ => .inl) (fun _ => id) hw⟩
  | dinode i =>
    cases h
    obtain ⟨hph, hw⟩ := hw
    have hinv := hk.phase
    rw [hph] at hinv
    refine ⟨_, hi.learn (hk.setPhase (.read i _) hinv.1 ⟨rfl, hinv.2.1, hinv.2.2, fun _ => rfl⟩) ?_ ?_ (hw _)⟩
    · rw [hph]
      exact fun _ _ => .inl
    · rw [hph]
      exact fun _ => False.elim
  | setDin i d =>
    cases h
    rcases hw with ⟨hph, hw⟩ | ⟨hph, hw⟩
    · exact ⟨_, hi.fill hph hw⟩
    · exact ⟨_, hi.editFreeing hph hw⟩
  | setValid i v =>
    cases h
    rcases hw with ⟨rfl, d, hph, hw⟩ | ⟨rfl, hph, hw⟩
    · exact ⟨_, hi.load hph hw⟩
    · exact ⟨_, hi.unload hph hw⟩
  | iupdate i =>
    cases h
    obtain ⟨hh, hph, hw⟩ := hw
    exact ⟨_, hi.iupdate ((hk.hold i).mp hh) hph hw⟩
  | claim key type =>
    have hw : ∀ b, wp spec (k b) (fin (s.call p)) (κ p) := hw
    simp only [Itable.perform] at h
    split at h
    case isTrue hfree =>
      cases h
      exact ⟨_, hi.claim hfree (hw true)⟩
    case isFalse =>
      cases h
      exact ⟨_, hi.learn hk (fun _ _ => .inl) (fun _ => id) (hw false)⟩
  | panic m =>
    cases h
    exact ⟨_, hi.panic hw⟩

/-! ## Between two calls -/

/-- What a process at rest knows. -/
structure Rest (g : Know) (H : Finset Id) (ph : Phase) : Prop where
  eq : g = .idle H ph
  about : ∀ j, ¬ph.About j
  exempt : ∀ j, ¬ph.Exempt j

theorem Inv.rest (hi : Inv κ s) {u : Unit} (h : s.prog p = .ret u) : ∃ H ph, Rest (κ p) H ph := by
  have hfin : fin (s.call p) u (κ p) := by
    have hw := hi.prog p
    rwa [h] at hw
  have hidle : Idle u (κ p) → ∃ H ph, Rest (κ p) H ph := by
    rintro ⟨H, hH⟩
    exact ⟨H, .none, hH, fun _ => id, fun _ => id⟩
  cases hc : s.call p with
  | none =>
    rw [hc] at hfin
    exact hidle hfin
  | some f =>
    rw [hc] at hfin
    cases f with
    | ilock i =>
      obtain ⟨H, hH⟩ := hfin
      exact ⟨H, .ready i, hH, fun _ => id, fun _ => id⟩
    | _ => exact hidle hfin

theorem Knows.start {H : Finset Id} {ph : Phase} {f : Call} (hk : Knows s p (.idle H ph))
    (ha : f.allowed s p) : Knows s p (f.start H) := by
  have hnone : Knows s p (.idle H .none) := hk.setPhase .none rfl trivial
  cases f with
  | iget | iupdate | ialloc => exact hnone
  | idup ip =>
    refine { hnone with want := ?_ }
    intro j hj
    obtain rfl := Option.some.inj hj
    exact owns_iff.mp ha
  | ilock ip =>
    refine { hnone with want := ?_ }
    intro j hj
    obtain rfl := Option.some.inj hj
    exact owns_iff.mp ha.1
  | iunlock ip => exact hk.setPhase (.locked ip) rfl ha
  | iput ip =>
    refine { hnone with put := ?_, phase := trivial }
    intro j hj
    obtain rfl := Option.some.inj hj
    obtain ⟨hmem, hother⟩ := ha
    refine ⟨hmem, fun hl => .inr (.inr ?_)⟩
    have hown := owns_iff.mp (hother hl)
    have herase := owned_erase (p := p) (i := ip) hmem
    simp only [Finset.mem_singleton, and_self, if_true] at herase
    omega

theorem Inv.call (hi : Inv κ s) {u : Unit} {f : Call} (h : s.prog p = .ret u)
    (ha : f.allowed s p) :
    ∃ κ', Inv κ' { s.goto p f.body with call := Function.update s.call p (some f) } := by
  obtain ⟨H, ph, heq, habout, hexempt⟩ := hi.rest h
  have hk := hi.knows p
  rw [heq] at hk
  refine ⟨_, hi.quiet (t := s.table) (fun _ _ => Iff.rfl) (hk.start ha) ?_ ?_ (wp_body f ?_)⟩
  · rw [heq]
    exact fun j _ hj => absurd hj (habout j)
  · rw [heq]
    exact fun j hj => absurd hj (hexempt j)
  · rintro ip (rfl | rfl)
    · exact (hk.hold ip).mpr ha.1
    · exact (hk.hold ip).mpr ha

theorem goto_self (s : Sys) (p : Pid) : s.goto p (s.prog p) = s := by
  rw [Sys.goto, Function.update_eq_self]

theorem Inv.edit (hi : Inv κ s) {u : Unit} {d : Dinode} (h : s.prog p = .ret u)
    (hl : s.lock i = some p) (hd : d.type = (s.itable i).din.type) :
    ∃ κ', Inv κ' { (s.setInode i { s.itable i with din := d }).setDirty i true with
      call := Function.update s.call p none } := by
  obtain ⟨H, ph, heq, habout, hexempt⟩ := hi.rest h
  have hk := hi.knows p
  rw [heq] at hk
  have hab : ∀ j, ¬(κ p).phase.About j := by rwa [heq]
  have hex : ∀ j, ¬(κ p).phase.Exempt j := by rwa [heq]
  have hstep := hi.change (v := (s.itable i).valid) (d := d) (b := true) (c := none)
    (r := s.prog p) (f := .idle H .none) hl (fun j _ => hab j) (fun j _ => hex j)
    (hk.change .none (fun _ h => absurd h.symm (Option.some_ne_none _)) trivial) (fun _ => hi.valid i p hl (hab i)) ?_ ?_
  · have hgoto : ((s.setInode i { s.itable i with din := d }).setDirty i true).goto p (s.prog p) =
        (s.setInode i { s.itable i with din := d }).setDirty i true := goto_self ..
    rw [Sys.change, hgoto] at hstep
    exact ⟨_, hstep⟩
  · intro hv _
    obtain ⟨ht, hdisk, -⟩ := hi.sync i (hi.locked_pos hl) hv fun q hq => by
      obtain rfl := Option.some.inj (hl.symm.trans hq)
      exact hex i
    exact ⟨hd ▸ ht, hdisk, fun hb => absurd hb (by decide)⟩
  · rw [h]
    exact ⟨H, rfl⟩

theorem Phase.Holds.setRefs {ph : Phase} {put : Option Id} {rs : Multiset Ref}
    (h : ph.Holds s p put) : ph.Holds { s with refs := rs } p put := by
  cases ph <;> exact h

/-- Process `p` changes who owns one of its references. -/
theorem Inv.setOwners (hi : Inv κ s) {u : Unit} {r : Ref} {o : Finset Pid} (h : s.prog p = .ret u)
    (hr : r ∈ s.refs) (hp : p ∈ r.2) (ho : ∀ q ≠ p, q ∈ r.2 → q ∈ o)
    (hown : ∀ j, s.lock j = some p → 0 < owned ((r.1, o) ::ₘ s.refs.erase r) p j) :
    ∃ κ', Inv κ' { s with refs := (r.1, o) ::ₘ s.refs.erase r } := by
  obtain ⟨H, ph, heq, habout, hexempt⟩ := hi.rest h
  have hk := hi.knows p
  have hmono : ∀ q ≠ p, ∀ j, owned s.refs q j ≤ owned ((r.1, o) ::ₘ s.refs.erase r) q j := by
    intro q hq j
    rw [owned_erase (p := q) (i := j) hr, owned_cons]
    by_cases hc : r.1 = j ∧ q ∈ r.2
    · rw [if_pos hc, if_pos ⟨hc.1, ho q hq hc.2⟩]
    · rw [if_neg hc]
      exact Nat.le_add_right ..
  refine ⟨_, hi.of_step p (κ p) ⟨?_, hi.unique, ?_, hi.dirty⟩ (fun q hq => ?_) ?_
    (fun _ _ => ⟨rfl, rfl⟩) (hi.prog p) (fun j => hi.valid j p) (fun j hother hr hv hex => ?_)
    hi.panics⟩
  · intro j
    rw [count_cons, ← count_erase hr]
    exact hi.count j
  · intro j q hl
    by_cases hq : q = p
    · subst hq
      exact hown j hl
    · exact (hi.owner j q hl).trans_le (hmono q hq j)
  · refine ⟨Iff.rfl, fun _ => Iff.rfl, hmono q hq, fun j hj => ?_, fun _ _ => ⟨rfl, rfl⟩,
      fun _ _ => ⟨rfl, rfl, rfl, rfl, fun _ => rfl⟩⟩
    refine Multiset.mem_cons_of_mem ((Multiset.mem_erase_of_ne ?_).mpr hj)
    rintro rfl
    exact hq (Finset.mem_singleton.mp hp).symm
  · rw [heq] at hk ⊢
    exact ⟨hk.table, hk.hold, (fun _ h => nomatch h), (fun _ h => nomatch h),
      (fun _ _ h => nomatch h), (fun _ _ h => nomatch h), (fun _ _ h => nomatch h),
      hk.phase.setRefs⟩
  · exact hi.synced hother hr hv hex

theorem Inv.share (hi : Inv κ s) {u : Unit} {r : Ref} {q : Pid} (h : s.prog p = .ret u)
    (hr : r ∈ s.refs) (hp : p ∈ r.2) :
    ∃ κ', Inv κ' { s with refs := (r.1, insert q r.2) ::ₘ s.refs.erase r } := by
  refine hi.setOwners h hr hp (fun _ _ => Finset.mem_insert_of_mem) fun j hl => ?_
  have hown := hi.owner j p hl
  rw [owned_erase (p := p) (i := j) hr] at hown
  simp only [hp, and_true] at hown
  simpa only [owned_cons, Finset.mem_insert_of_mem hp, and_true] using hown

theorem Inv.drop (hi : Inv κ s) {u : Unit} {r : Ref} (h : s.prog p = .ret u) (hr : r ∈ s.refs)
    (hp : p ∈ r.2) (hother : s.lock r.1 = some p → Owns (s.refs.erase r) p r.1) :
    ∃ κ', Inv κ' { s with refs := (r.1, r.2.erase p) ::ₘ s.refs.erase r } := by
  refine hi.setOwners h hr hp (fun q hq => Finset.mem_erase_of_ne_of_mem hq) fun j hl => ?_
  have hown := hi.owner j p hl
  rw [owned_cons]
  by_cases hj : r.1 = j
  · subst hj
    have := owns_iff.mp (hother hl)
    omega
  · rw [owned_erase (p := p) (i := j) hr] at hown
    simp only [hj, false_and, if_false] at hown
    omega

theorem step_inv (s : Sys) (a : Act) (s' : Sys) (hi : ∃ κ, Inv κ s) (h : step s a = some s') :
    ∃ κ', Inv κ' s' := by
  obtain ⟨κ, hi⟩ := hi
  unfold step at h
  split at h
  · cases h
  cases a with
  | go p =>
    simp only at h
    split at h
    case h_1 e k hprog => exact hi.perform (hprog ▸ hi.prog p) h
    case h_2 => cases h
  | call p f =>
    simp only at h
    split at h
    case h_2 => cases h
    case h_1 u hprog =>
      split at h
      case isFalse => cases h
      case isTrue ha =>
        cases h
        exact hi.call hprog ha
  | edit p ip d =>
    simp only at h
    split at h
    case h_2 => cases h
    case h_1 u hprog =>
      split at h
      case isFalse => cases h
      case isTrue ha =>
        cases h
        exact hi.edit hprog ha.1 ha.2
  | share p q r =>
    simp only at h
    split at h
    case h_2 => cases h
    case h_1 u hprog =>
      split at h
      case isFalse => cases h
      case isTrue ha =>
        cases h
        exact hi.share hprog ha.1 ha.2
  | drop p r =>
    simp only at h
    split at h
    case h_2 => cases h
    case h_1 u hprog =>
      split at h
      case isFalse => cases h
      case isTrue ha =>
        cases h
        exact hi.drop hprog ha.1 ha.2.1 ha.2.2.2

/-! ## Runs -/

theorem inv_init (disk : Key → Dinode) : Inv (fun _ => .idle ∅ .none) (init disk) where
  count _ := rfl
  unique _ _ h := absurd h (lt_irrefl 0)
  owner _ _ h := nomatch h
  dirty _ h := nomatch h
  valid _ _ h := nomatch h
  sync _ h := absurd h (lt_irrefl 0)
  knows p := ⟨by simp [Know.idle, init], by simp [Know.idle, init], (fun _ h => nomatch h),
    (fun _ h => nomatch h), (fun h => nomatch h), (fun h => nomatch h), (fun h => nomatch h), trivial⟩
  prog p := ⟨∅, rfl⟩
  panics _ h := nomatch h

theorem inv_run {disk : Key → Dinode} {as : List Act} (h : Lib.run step (init disk) as = some s) :
    ∃ κ, Inv κ s :=
  run_invariant step_inv ⟨_, inv_init disk⟩ h

/-- Process `q` waits for the sleep-lock of entry `i`, or is about to take it. -/
def Acquiring (s : Sys) (q : Pid) (i : Id) : Prop := ∃ k, s.prog q = .op (.acquiresleep i) k

theorem Inv.acquiring (hi : Inv κ s) {q : Pid} (h : Acquiring s q i) : 0 < owned s.refs q i := by
  obtain ⟨k, hk⟩ := h
  have hw := hi.prog q
  rw [hk] at hw
  obtain ⟨g', ht, -⟩ := hw
  exact ht.owned (hi.knows q)

/-- The only reference to an entry keeps everybody else from its lock. -/
theorem Inv.alone (hi : Inv κ s) (hmem : (i, {p}) ∈ s.refs) (hone : (s.itable i).ref = 1)
    (hself : s.lock i = some p → 2 ≤ owned s.refs p i) :
    s.lock i = none ∧ ∀ q ≠ p, ¬Acquiring s q i := by
  have hcount : count s.refs i = 1 := (hi.count i).symm.trans hone
  have hnot : ∀ q ≠ p, ¬0 < owned s.refs q i := by
    intro q hq hown
    have := owned_lt_count hmem hq
    omega
  refine ⟨?_, fun q hq h => hnot q hq (hi.acquiring h)⟩
  cases hl : s.lock i with
  | none => rfl
  | some q =>
    by_cases hq : q = p
    · subst hq
      have h2 := hself hl
      have hle := owned_le_count s.refs (p := q) (i := i)
      omega
    · exact absurd (hi.owner i q hl) (hnot q hq)

/-- In every run of the inode table: there is one entry for each inode in use; when `iput`
looks at an entry it holds `itable.lock`, and if it finds one reference then nobody holds or
acquires the sleep-lock, nor does anybody when it takes that lock itself; and where an
`ilock` has returned, its inode is locked and agrees with the inode on disk. -/
theorem inode_protocol {disk : Key → Dinode} {as : List Act}
    (h : Lib.run step (init disk) as = some s) :
    (∀ i j, 0 < (s.itable i).ref → 0 < (s.itable j).ref →
      (s.itable i).key = (s.itable j).key → i = j) ∧
    (∀ p i k, s.prog p = .op (.check i) k → s.table = some p ∧
      ((s.itable i).ref = 1 → s.lock i = none ∧ ∀ q ≠ p, ¬Acquiring s q i)) ∧
    (∀ p i, Acquiring s p i → s.table = some p → s.lock i = none ∧ ∀ q ≠ p, ¬Acquiring s q i) ∧
    (∀ p i u, s.call p = some (.ilock i) → s.prog p = .ret u →
      s.lock i = some p ∧ (s.itable i).din = s.disk (s.itable i).key) := by
  obtain ⟨κ, hi⟩ := inv_run h
  refine ⟨hi.unique, ?_, ?_, ?_⟩
  · intro p i k hk
    have hw := hi.prog p
    rw [hk] at hw
    obtain ⟨ht, hput, hph, -⟩ := hw
    refine ⟨(hi.knows p).table.mp ht, fun hone => ?_⟩
    obtain ⟨hmem, htwo⟩ := (hi.knows p).put i hput
    rw [hph] at htwo
    exact hi.alone hmem hone (by simpa using htwo)
  · intro p i ⟨k, hk⟩ htab
    have hw := hi.prog p
    rw [hk] at hw
    obtain ⟨g', ht, -⟩ := hw
    have hph := (hi.knows p).phase
    cases ht with
    | ilock hf =>
      rw [← (hi.knows p).table, hf] at htab
      cases htab
    | iput hlast =>
      rw [hlast] at hph
      obtain ⟨hmem, htwo⟩ := (hi.knows p).put i hph.2.2
      rw [hlast] at htwo
      exact hi.alone hmem hph.2.1 (by simpa using htwo)
  · intro p i u hcall hret
    have hw := hi.prog p
    rw [hret, hcall] at hw
    obtain ⟨H, hH⟩ := hw
    have hph := (hi.knows p).phase
    rw [hH] at hph
    obtain ⟨hl, hv, hclean⟩ := hph
    obtain ⟨-, -, hsync⟩ := hi.sync i (hi.locked_pos hl) hv fun q hq => by
      obtain rfl := Option.some.inj (hl.symm.trans hq)
      rw [hH]
      exact id
    exact ⟨hl, (hsync hclean).symm⟩

/-- Processes 0 and 1 lock one inode each. Process 0 unlocks its inode, which has no name,
and puts it; it is about to take the sleep-lock to free it. -/
def iputRun : List Act :=
  [.call 0 (.iget ⟨1, 2⟩)] ++ List.replicate 53 (.go 0) ++
  [.call 0 (.ilock 0)] ++ List.replicate 7 (.go 0) ++
  [.call 1 (.iget ⟨1, 3⟩)] ++ List.replicate 53 (.go 1) ++
  [.call 1 (.ilock 1)] ++ List.replicate 7 (.go 1) ++
  [.call 0 (.iunlock 0)] ++ List.replicate 3 (.go 0) ++
  [.call 0 (.iput 0), .go 0, .go 0]

/-- The inode whose sleep-lock the code takes next. -/
def acquires : Code Unit → Option Id
  | .op (.acquiresleep i) _ => some i
  | _ => none

def returns : Code Unit → Bool
  | .ret _ => true
  | _ => false

theorem acquires_eq_some {c : Code Unit} {i : Id} (h : acquires c = some i) :
    ∃ k, c = .op (.acquiresleep i) k := by
  unfold acquires at h
  split at h
  · obtain rfl := Option.some.inj h
    exact ⟨_, rfl⟩
  · cases h

theorem returns_eq_true {c : Code Unit} (h : returns c = true) : ∃ u, c = .ret u := by
  unfold returns at h
  split at h
  · exact ⟨_, rfl⟩
  · cases h

theorem inode_protocol_iput : ∃ s, Lib.run step (init fun _ => .fresh 2) iputRun = some s ∧
    Acquiring s 0 0 ∧ s.table = some 0 ∧ s.lock 0 = none ∧
    s.call 1 = some (.ilock 1) ∧ s.lock 1 = some 1 ∧
    (s.itable 1).din = s.disk (s.itable 1).key := by
  have hend : (Lib.run step (init fun _ => .fresh 2) iputRun).map (fun s =>
      (acquires (s.prog 0), returns (s.prog 1), s.table, s.call 1)) =
      some (some 0, true, some 0, some (.ilock 1)) := by
    decide +kernel
  obtain ⟨s, hs, he⟩ := Option.map_eq_some_iff.mp hend
  simp only [Prod.mk.injEq] at he
  obtain ⟨h0, h1, ht, hc⟩ := he
  obtain ⟨-, -, hput, hlock⟩ := inode_protocol hs
  have hacq : Acquiring s 0 0 := acquires_eq_some h0
  obtain ⟨u, hret⟩ := returns_eq_true h1
  obtain ⟨hl, hdin⟩ := hlock 1 1 u hc hret
  exact ⟨s, hs, hacq, ht, (hput 0 0 hacq ht).1, hc, hl, hdin⟩

end

end Xv6.Itable
