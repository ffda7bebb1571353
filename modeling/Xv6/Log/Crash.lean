import Xv6.Log.Header
import Mathlib.Data.Finset.Card

/-!
# Crash atomicity of the log

The home blocks after recovery are the initial ones with the committed groups of
`log_write`s applied in order, wherever the crashes fall. The invariant has three
parts: the disk is always `Consistent` with the committed groups; an unpinned
buffer agrees with the disk; and, depending on how far a commit or a recovery has
come, the log blocks, the header and the home blocks hold what they should.
-/
namespace Xv6.Log

open Function

set_option autoImplicit false

/-- Perform logged writes in order on a disk image. -/
def applyWrites (ws : List Write) (d : Nat → Block) : Nat → Block :=
  ws.foldl (fun d w => update d w.block w.data) d

/-- The committed state: all groups whose header reached the disk, in order. -/
def committed (d0 : Nat → Block) (s : Sys) : Nat → Block := applyWrites s.groups.flatten d0

theorem applyWrites_append (ws vs : List Write) (d : Nat → Block) :
    applyWrites (ws ++ vs) d = applyWrites vs (applyWrites ws d) := List.foldl_append ..

theorem applyWrites_snoc (ws : List Write) (w : Write) (d : Nat → Block) :
    applyWrites (ws ++ [w]) d = update (applyWrites ws d) w.block w.data :=
  applyWrites_append ws [w] d

theorem applyWrites_other {ws : List Write} {d : Nat → Block} {b : Nat}
    (h : ∀ w ∈ ws, w.block ≠ b) : applyWrites ws d b = d b := by
  induction ws generalizing d with
  | nil => rfl
  | cons w ws ih =>
    refine (ih fun v hv => h v (List.mem_cons_of_mem _ hv)).trans ?_
    exact update_of_ne (Ne.symm (h w List.mem_cons_self)) _ _

def Ctl.isOp : Ctl → Bool
  | .inOp _ _ => true
  | _ => false

variable (c : Conf) (d0 : Nat → Block)

/-- No header on disk: the buffers of the logged blocks hold the current group. -/
structure Open (s : Sys) : Prop where
  header : getHeader (s.disk c.start) = []
  pins : ∀ b, s.pin b = if b ∈ s.lh then 1 else 0
  blocks : ∀ w ∈ s.current, w.block ∈ s.lh
  view : ∀ b, ¬ c.inLog b → s.view b = applyWrites s.current (committed d0 s) b

/-- The header is on disk and the first `t` blocks have been copied home. -/
structure Installing (t : Nat) (s : Sys) : Prop where
  header : getHeader (s.disk c.start) = s.lh
  pins : ∀ b, s.pin b = if b ∈ s.lh.drop t then 1 else 0
  current : s.current = []
  home : ∀ b, ¬ c.inLog b → b ∉ s.lh.drop t → s.disk b = committed d0 s b

/-- What a committing process has achieved so far. -/
def Progress (s : Sys) : Phase → Prop
  | .writeLog t => Open c d0 s ∧ t ≤ s.lh.length ∧
      ∀ i, i < t → s.disk (c.start + i + 1) = s.view (s.lh.getD i 0)
  | .install t => Installing c d0 t s ∧ t ≤ s.lh.length
  | .finish => Open c d0 s ∧ s.lh = []

structure Running (s : Sys) : Prop where
  nodup : s.lh.Nodup
  home : ∀ b ∈ s.lh, ¬ c.inLog b ∧ b < 2 ^ 32
  small : s.lh.length ≤ LOGSIZE
  fits : s.lh.length < c.size
  flag : ∀ p ph, s.ctl p = .commit ph → s.committing = true
  sole : ∀ p q ph ph', s.ctl p = .commit ph → s.ctl q = .commit ph' → p = q
  progress : ∀ p ph, s.ctl p = .commit ph → Progress c d0 s ph
  calm : (∀ p ph, s.ctl p ≠ .commit ph) → Open c d0 s
  count : ∃ S : Finset Pid, (∀ p, p ∈ S ↔ (s.ctl p).isOp = true) ∧ S.card = s.outstanding
  excl : s.committing = true → s.outstanding = 0

/-- The state of `recover_from_log`; nobody else is running. -/
structure Rebooting (tail : Option Nat) (s : Sys) : Prop where
  pins : ∀ b, s.pin b = 0
  idle : ∀ p, s.ctl p = .idle
  quiet : s.committing = false ∧ s.outstanding = 0 ∧ s.current = []
  header : ∀ t, tail = some t → s.lh = getHeader (s.disk c.start)
  copied : ∀ t, tail = some t → ∀ i, i < t → i < s.lh.length →
    s.disk (s.lh.getD i 0) = committed d0 s (s.lh.getD i 0)

structure Inv (s : Sys) : Prop where
  consistent : Consistent c (committed d0 s) s.disk
  coherent : ∀ b, s.pin b = 0 → s.view b = s.disk b
  running : s.mode = .running → Running c d0 s
  rebooting : ∀ tail, s.mode = .recovering tail → Rebooting c d0 tail s

variable {c d0}

/-! ## Views of the cache -/

@[simp] theorem view_bread (s : Sys) (b : Nat) : (s.bread b).view = s.view := by
  funext x
  by_cases h : x = b
  · subst h; simp [Sys.view, Sys.bread]
  · simp [Sys.view, Sys.bread, update_of_ne h]

@[simp] theorem view_bwrite_self (s : Sys) (b : Nat) (x : Block) : (s.bwrite b x).view b = x := by
  simp [Sys.view, Sys.bwrite]

theorem view_bwrite_ne (s : Sys) {a b : Nat} (x : Block) (h : a ≠ b) :
    (s.bwrite b x).view a = s.view a := by
  simp [Sys.view, Sys.bwrite, update_of_ne h]

/-- A write-through keeps unpinned buffers in agreement with the disk. -/
theorem coherent_bwrite {s : Sys} (h : ∀ b, s.pin b = 0 → s.view b = s.disk b) (a : Nat) (x : Block)
    (b : Nat) (hb : b = a ∨ s.pin b = 0) : (s.bwrite a x).view b = (s.bwrite a x).disk b := by
  by_cases hba : b = a
  · subst hba; rw [view_bwrite_self]; simp [Sys.bwrite]
  · rw [view_bwrite_ne s x hba, h b (hb.resolve_left hba)]
    simp [Sys.bwrite, update_of_ne hba]

/-- The parts of the state that the stages of a commit speak about. -/
structure SameData (s s' : Sys) : Prop where
  disk : s'.disk = s.disk
  view : s'.view = s.view
  pin : s'.pin = s.pin
  lh : s'.lh = s.lh
  current : s'.current = s.current
  groups : s'.groups = s.groups

theorem SameData.committed {s s' : Sys} (h : SameData s s') : committed d0 s' = committed d0 s := by
  unfold Log.committed
  rw [h.groups]

theorem SameData.open {s s' : Sys} (h : SameData s s') (ho : Open c d0 s) : Open c d0 s' where
  header := by rw [h.disk]; exact ho.header
  pins := by rw [h.pin, h.lh]; exact ho.pins
  blocks := by rw [h.current, h.lh]; exact ho.blocks
  view := by rw [h.view, h.current, h.committed]; exact ho.view

theorem SameData.progress {s s' : Sys} (h : SameData s s') {ph : Phase}
    (hp : Progress c d0 s ph) : Progress c d0 s' ph := by
  cases ph with
  | writeLog t =>
    refine ⟨h.open hp.1, ?_⟩
    rw [h.lh, h.disk, h.view]
    exact hp.2
  | install t =>
    obtain ⟨hi, ht⟩ := hp
    refine ⟨⟨?_, ?_, ?_, ?_⟩, ?_⟩
    · rw [h.disk, h.lh]; exact hi.header
    · rw [h.pin, h.lh]; exact hi.pins
    · rw [h.current]; exact hi.current
    · rw [h.lh, h.disk, h.committed]; exact hi.home
    · rw [h.lh]; exact ht
  | finish =>
    refine ⟨h.open hp.1, ?_⟩
    rw [h.lh]
    exact hp.2

/-- `bread` and the eviction of an unpinned buffer change no view. -/
theorem inv_cache {s s' : Sys} (hi : Inv c d0 s) (h : SameData s s') (hctl : s'.ctl = s.ctl)
    (hmode : s'.mode = s.mode) (hout : s'.outstanding = s.outstanding)
    (hcom : s'.committing = s.committing) : Inv c d0 s' where
  consistent := by rw [h.committed, h.disk]; exact hi.consistent
  coherent := by rw [h.pin, h.view, h.disk]; exact hi.coherent
  running := by
    intro hm
    have hr := hi.running (hmode.symm.trans hm)
    refine ⟨?_, ?_, ?_, ?_, ?_, ?_, ?_, ?_, ?_, ?_⟩
    · rw [h.lh]; exact hr.nodup
    · rw [h.lh]; exact hr.home
    · rw [h.lh]; exact hr.small
    · rw [h.lh]; exact hr.fits
    · rw [hctl, hcom]; exact hr.flag
    · rw [hctl]; exact hr.sole
    · rw [hctl]; intro p ph hp; exact h.progress (hr.progress p ph hp)
    · rw [hctl]; intro hno; exact h.open (hr.calm hno)
    · rw [hctl, hout]; exact hr.count
    · rw [hcom, hout]; exact hr.excl
  rebooting := by
    intro tail hm
    have hr := hi.rebooting tail (hmode.symm.trans hm)
    refine ⟨?_, ?_, ?_, ?_, ?_⟩
    · rw [h.pin]; exact hr.pins
    · rw [hctl]; exact hr.idle
    · rw [hcom, hout, h.current]; exact hr.quiet
    · rw [h.lh, h.disk]; exact hr.header
    · rw [h.lh, h.disk, h.committed]; exact hr.copied

theorem inv_load {s : Sys} (hi : Inv c d0 s) (b : Nat) : Inv c d0 (s.bread b) :=
  inv_cache hi ⟨rfl, view_bread s b, rfl, rfl, rfl, rfl⟩ rfl rfl rfl rfl

theorem inv_evict {s : Sys} (hi : Inv c d0 s) {b : Nat} (hb : s.pin b = 0) :
    Inv c d0 { s with cache := update s.cache b none } := by
  refine inv_cache hi ⟨rfl, ?_, rfl, rfl, rfl, rfl⟩ rfl rfl rfl rfl
  funext x
  by_cases h : x = b
  · subst h
    rw [hi.coherent x hb]
    simp [Sys.view]
  · simp [Sys.view, update_of_ne h]

/-! ## Operations -/

/-- A process inside an operation excludes a commit. -/
theorem Running.not_committing {s : Sys} (hr : Running c d0 s) {p : Pid} {i : Nat} {bl : List Nat}
    (hp : s.ctl p = .inOp i bl) : s.committing = false ∧ 0 < s.outstanding := by
  obtain ⟨S, hS, hcard⟩ := hr.count
  have hmem : p ∈ S := (hS p).mpr (by rw [hp]; rfl)
  have hpos : 0 < s.outstanding := by rw [← hcard]; exact Finset.card_pos.mpr ⟨p, hmem⟩
  refine ⟨?_, hpos⟩
  cases hc : s.committing with
  | false => rfl
  | true => rw [hr.excl hc] at hpos; exact absurd hpos (Nat.lt_irrefl 0)

theorem Running.no_commit {s : Sys} (hr : Running c d0 s) (h : s.committing = false) (p : Pid)
    (ph : Phase) : s.ctl p ≠ .commit ph := by
  intro hp
  rw [hr.flag p ph hp] at h
  cases h

theorem Running.no_op {s : Sys} (hr : Running c d0 s) (h : s.outstanding = 0) (p : Pid) (i : Nat)
    (bl : List Nat) : s.ctl p ≠ .inOp i bl := by
  intro hp
  have := (hr.not_committing hp).2
  omega

/-- The operations in progress after one process has moved. -/
theorem count_update {ctl : Pid → Ctl} {n : Nat}
    (h : ∃ S : Finset Pid, (∀ p, p ∈ S ↔ (ctl p).isOp = true) ∧ S.card = n) (p : Pid) (k : Ctl) :
    ∃ S : Finset Pid, (∀ q, q ∈ S ↔ (update ctl p k q).isOp = true) ∧
      S.card + (if (ctl p).isOp then 1 else 0) = n + (if k.isOp then 1 else 0) := by
  obtain ⟨S, hS, hcard⟩ := h
  have hmem : ∀ q, q ∈ (if k.isOp then insert p (S.erase p) else S.erase p) ↔
      (update ctl p k q).isOp = true := by
    intro q
    by_cases hq : q = p
    · subst hq
      rw [update_self]
      cases k.isOp <;> simp
    · rw [update_of_ne hq, ← hS q]
      cases k.isOp <;> simp [hq]
  refine ⟨_, hmem, ?_⟩
  have herase : (S.erase p).card + (if (ctl p).isOp then 1 else 0) = n := by
    by_cases hp : (ctl p).isOp = true
    · have hpS := (hS p).mpr hp
      rw [if_pos hp, Finset.card_erase_add_one hpS, hcard]
    · rw [if_neg hp, Finset.erase_eq_of_notMem (fun hm => hp ((hS p).mp hm)), hcard, Nat.add_zero]
  by_cases hk : k.isOp = true
  · rw [if_pos hk, if_pos hk, Finset.card_insert_of_notMem (Finset.notMem_erase p S)]
    omega
  · rw [if_neg hk, if_neg hk]
    omega

/-- Moves that only change who is where, outside of any commit. -/
theorem inv_quiet {s s' : Sys} (hi : Inv c d0 s) (hm : s.mode = .running) (h : SameData s s')
    (hmode : s'.mode = .running) (hcom : s.committing = false) (hcom' : s'.committing = false)
    (hctl : ∀ p ph, s'.ctl p ≠ .commit ph)
    (hcount : ∃ S : Finset Pid, (∀ p, p ∈ S ↔ (s'.ctl p).isOp = true) ∧ S.card = s'.outstanding) :
    Inv c d0 s' where
  consistent := by rw [h.committed, h.disk]; exact hi.consistent
  coherent := by rw [h.pin, h.view, h.disk]; exact hi.coherent
  running := by
    intro _
    have hr := hi.running hm
    refine ⟨?_, ?_, ?_, ?_, ?_, ?_, ?_, ?_, hcount, ?_⟩
    · rw [h.lh]; exact hr.nodup
    · rw [h.lh]; exact hr.home
    · rw [h.lh]; exact hr.small
    · rw [h.lh]; exact hr.fits
    · intro p ph hp; exact absurd hp (hctl p ph)
    · intro p q ph ph' hp; exact absurd hp (hctl p ph)
    · intro p ph hp; exact absurd hp (hctl p ph)
    · intro _; exact h.open (hr.calm (hr.no_commit hcom))
    · intro hc; rw [hcom'] at hc; cases hc
  rebooting := by intro tail ht; rw [hmode] at ht; cases ht

theorem commit_update {ctl : Pid → Ctl} {p : Pid} {k : Ctl} (hno : ∀ q ph, ctl q ≠ .commit ph)
    (hk : ∀ ph, k ≠ .commit ph) (q : Pid) (ph : Phase) : update ctl p k q ≠ .commit ph := by
  by_cases hq : q = p
  · subst hq; rw [update_self]; exact hk ph
  · rw [update_of_ne hq]; exact hno q ph

theorem isOp_wakeup (s : Sys) (p : Pid) : (s.wakeup.ctl p).isOp = (s.ctl p).isOp := by
  unfold Sys.wakeup
  dsimp only
  split
  · rename_i h; rw [h]; rfl
  · rfl

theorem commit_wakeup {s : Sys} {p : Pid} {ph : Phase} (h : s.wakeup.ctl p = .commit ph) :
    s.ctl p = .commit ph := by
  unfold Sys.wakeup at h
  dsimp only at h
  split at h
  · cases h
  · exact h

/-- Outside of a commit a process that sleeps is put to sleep by `begin_op` only. -/
theorem inv_beginOp {s : Sys} (hi : Inv c d0 s) (hm : s.mode = .running) {p : Pid}
    (hp : s.ctl p = .idle ∨ s.ctl p = .woken) : Inv c d0 (beginOp s p) := by
  have hr := hi.running hm
  have hop : (s.ctl p).isOp = false := by rcases hp with h | h <;> rw [h] <;> rfl
  unfold beginOp
  split
  · rename_i ha
    refine inv_quiet hi hm ⟨rfl, rfl, rfl, rfl, rfl, rfl⟩ hm ha.1 ha.1
      (commit_update (hr.no_commit ha.1) (by rintro ph ⟨⟩)) ?_
    obtain ⟨S, hS, hcard⟩ := count_update hr.count p (.inOp s.inst [])
    refine ⟨S, hS, ?_⟩
    rw [hop] at hcard
    exact hcard
  · -- a sleeper changes nothing, whether or not a commit is running
    obtain ⟨S, hS, hcard⟩ := count_update hr.count p .asleep
    rw [hop] at hcard
    have hne : ∀ q ph, update s.ctl p .asleep q = .commit ph → s.ctl q = .commit ph := by
      intro q ph hq
      by_cases hqp : q = p
      · subst hqp; rw [update_self] at hq; cases hq
      · rwa [update_of_ne hqp] at hq
    have hsame : SameData s (s.goto p .asleep) := ⟨rfl, rfl, rfl, rfl, rfl, rfl⟩
    refine ⟨hi.consistent, hi.coherent, fun _ => ?_, ?_⟩
    · refine ⟨hr.nodup, hr.home, hr.small, hr.fits, ?_, ?_, ?_, ?_, ⟨S, hS, hcard⟩, hr.excl⟩
      · intro q ph hq; exact hr.flag q ph (hne q ph hq)
      · intro q r ph ph' hq hr'; exact hr.sole q r ph ph' (hne q ph hq) (hne r ph' hr')
      · intro q ph hq; exact hsame.progress (hr.progress q ph (hne q ph hq))
      · intro hno
        refine hsame.open (hr.calm fun q ph hq => hno q ph ?_)
        have hqp : q ≠ p := by rintro rfl; rcases hp with h | h <;> rw [h] at hq <;> cases hq
        exact (update_of_ne hqp _ _).trans hq
    · intro tail ht
      have : s.mode = .recovering tail := ht
      rw [hm] at this
      cases this

/-- A `log_write` by a process inside an operation extends the current group. -/
theorem open_logWrite {s t : Sys} (ho : Open c d0 s) {p : Pid} {w : Write} (h : Logged s p w t) :
    Open c d0 t := by
  have hcommitted : committed d0 t = committed d0 s := by unfold committed; rw [h.groups]
  have hsub : ∀ a, a ∈ s.lh → a ∈ t.lh := by
    intro a ha
    rw [h.lh]
    split
    · exact ha
    · exact List.mem_append_left _ ha
  have hb : w.block ∈ t.lh := by
    rw [h.lh]
    split
    · assumption
    · simp
  refine ⟨?_, ?_, ?_, ?_⟩
  · rw [h.disk]; exact ho.header
  · intro a
    rw [h.pin, h.lh]
    by_cases hm : w.block ∈ s.lh
    · simp only [if_pos hm]; exact ho.pins a
    · simp only [if_neg hm]
      by_cases hab : a = w.block
      · subst hab; simp [ho.pins, hm]
      · simp [ho.pins, hab]
  · rw [h.current]
    intro v hv
    rcases List.mem_append.mp hv with hold | hnew
    · exact hsub _ (ho.blocks v hold)
    · rw [List.mem_singleton.mp hnew]; exact hb
  · intro a ha
    rw [h.current, applyWrites_snoc, hcommitted]
    by_cases hab : a = w.block
    · subst hab; simp [Sys.view, h.cache]
    · have hv : t.view a = s.view a := by
        simp [Sys.view, h.cache, h.disk, update_of_ne hab]
      rw [hv, update_of_ne hab]
      exact ho.view a ha

theorem inv_panic {s : Sys} (hi : Inv c d0 s) (m : Panic) : Inv c d0 (s.panic m) :=
  inv_cache hi ⟨rfl, rfl, rfl, rfl, rfl, rfl⟩ rfl rfl rfl rfl

theorem inv_logWrite {s : Sys} (hi : Inv c d0 s) (hm : s.mode = .running) {p : Pid} {i : Nat}
    {bl : List Nat} (hp : s.ctl p = .inOp i bl) {b : Nat} (hb : b < 2 ^ 32) (hlog : ¬ c.inLog b)
    (x : Block) : Inv c d0 (logWrite c s p i bl b x) := by
  have hr := hi.running hm
  obtain ⟨hcom, hpos⟩ := hr.not_committing hp
  have ho := hr.calm (hr.no_commit hcom)
  obtain ⟨-, he⟩ | ⟨hroom, ⟨-, he⟩ | h⟩ := logWrite_cases c s p i bl b x
  · rw [he]; exact inv_panic hi _
  · rw [he]; exact inv_panic hi _
  generalize logWrite c s p i bl b x = t at h
  have ho' : Open c d0 t := open_logWrite ho h
  obtain ⟨bl', hctl⟩ := h.ctl
  have hno := commit_update (p := p) (hr.no_commit hcom) (k := .inOp i bl') (by rintro ph ⟨⟩)
  have hcommitted : committed d0 t = committed d0 s := by unfold committed; rw [h.groups]
  have hlh := h.lh
  dsimp only at hlh
  refine ⟨?_, ?_, fun _ => ?_, ?_⟩
  · rw [hcommitted, h.disk]; exact hi.consistent
  · intro a ha
    have hab : a ≠ b := by
      rintro rfl
      rw [ho'.pins] at ha
      have hmem : a ∈ t.lh := by rw [hlh]; split <;> simp_all
      rw [if_pos hmem] at ha
      cases ha
    have hpa : s.pin a = 0 := by
      rw [h.pin] at ha
      split at ha
      · exact ha
      · rwa [update_of_ne hab] at ha
    have hv : t.view a = s.view a := by
      simp [Sys.view, h.cache, h.disk, update_of_ne hab]
    rw [hv, h.disk]
    exact hi.coherent a hpa
  · refine ⟨?_, ?_, ?_, ?_, ?_, ?_, ?_, fun _ => ho', ?_, ?_⟩
    · rw [hlh]
      split
      · exact hr.nodup
      · rename_i hn
        exact List.nodup_append.mpr ⟨hr.nodup, List.nodup_singleton b, by
          intro a ha y hy; rw [List.mem_singleton.mp hy]; rintro rfl; exact hn ha⟩
    · rw [hlh]
      intro a ha
      split at ha
      · exact hr.home a ha
      · rcases List.mem_append.mp ha with hold | hnew
        · exact hr.home a hold
        · rw [List.mem_singleton.mp hnew]; exact ⟨hlog, hb⟩
    · rw [hlh]
      split
      · exact hr.small
      · rw [List.length_append]; exact hroom.1
    · rw [hlh]
      split
      · exact hr.fits
      · rw [List.length_append, List.length_singleton]; omega
    · rw [hctl]; intro q ph hq; exact absurd hq (hno q ph)
    · rw [hctl]; intro q r ph ph' hq; exact absurd hq (hno q ph)
    · rw [hctl]; intro q ph hq; exact absurd hq (hno q ph)
    · rw [hctl, h.outstanding]
      obtain ⟨S, hS, hcard⟩ := count_update hr.count p (.inOp i bl')
      refine ⟨S, hS, ?_⟩
      rw [hp] at hcard
      exact Nat.add_right_cancel hcard
    · rw [h.committing, hcom]; rintro ⟨⟩
  · intro tail ht
    rw [h.mode, hm] at ht
    cases ht

theorem inv_endOp {s : Sys} (hi : Inv c d0 s) (hm : s.mode = .running) {p : Pid} {i : Nat}
    {bl : List Nat} (hp : s.ctl p = .inOp i bl) : Inv c d0 (endOp s p) := by
  have hr := hi.running hm
  obtain ⟨hcom, hpos⟩ := hr.not_committing hp
  have ho := hr.calm (hr.no_commit hcom)
  have hsame : ∀ t : Sys, t.disk = s.disk → t.cache = s.cache → t.pin = s.pin → t.lh = s.lh →
      t.current = s.current → t.groups = s.groups → SameData s t := by
    intro t h1 h2 h3 h4 h5 h6
    refine ⟨h1, ?_, h3, h4, h5, h6⟩
    funext b
    simp [Sys.view, h1, h2]
  unfold endOp
  dsimp only
  rw [if_neg (by simp [hcom])]
  split
  · rename_i hzero
    generalize hph : (if s.lh = [] then Phase.finish else Phase.writeLog 0) = ph
    set t : Sys := { ({ s with outstanding := s.outstanding - 1 }).goto p (.commit ph) with
      committing := true } with ht
    have hd : SameData s t := hsame t rfl rfl rfl rfl rfl rfl
    have hctl : t.ctl = update s.ctl p (.commit ph) := rfl
    have hself : ∀ q ph', t.ctl q = .commit ph' → q = p ∧ ph' = ph := by
      intro q ph' hq
      by_cases hqp : q = p
      · subst hqp; rw [hctl, update_self] at hq; cases hq; exact ⟨rfl, rfl⟩
      · rw [hctl, update_of_ne hqp] at hq; exact absurd hq (hr.no_commit hcom q ph')
    have hprog : Progress c d0 t ph := by
      by_cases hn : s.lh = []
      · rw [← hph, if_pos hn]; exact ⟨hd.open ho, hn⟩
      · rw [← hph, if_neg hn]
        exact ⟨hd.open ho, Nat.zero_le _, fun i hi => absurd hi (Nat.not_lt_zero i)⟩
    refine ⟨hi.consistent, hi.coherent, fun _ => ?_, ?_⟩
    · refine ⟨hr.nodup, hr.home, hr.small, hr.fits, fun _ _ _ => rfl, ?_, ?_, ?_, ?_, fun _ => hzero⟩
      · intro q r ph1 ph2 h1 h2; exact (hself q ph1 h1).1.trans (hself r ph2 h2).1.symm
      · intro q ph' hq; rw [(hself q ph' hq).2]; exact hprog
      · intro hno; exact absurd (update_self ..) (hno p ph)
      · obtain ⟨S, hS, hcard⟩ := count_update hr.count p (.commit ph)
        refine ⟨S, hS, ?_⟩
        rw [hp] at hcard
        exact Nat.eq_sub_of_add_eq hcard
    · intro tail h
      have : s.mode = .recovering tail := h
      rw [hm] at this
      cases this
  · refine inv_quiet hi hm (hsame _ rfl rfl rfl rfl rfl rfl) hm hcom hcom ?_ ?_
    · intro q ph hq
      exact commit_update (hr.no_commit hcom) (by rintro _ ⟨⟩) q ph (commit_wakeup hq)
    · obtain ⟨S, hS, hcard⟩ := count_update hr.count p .idle
      refine ⟨S, fun q => (hS q).trans (by rw [isOp_wakeup]; rfl), ?_⟩
      rw [hp] at hcard
      exact Nat.eq_sub_of_add_eq hcard

/-! ## Commit -/

/-- The committing process moves to its next phase; everybody else stays. -/
theorem Running.commit_next {s t : Sys} (hr : Running c d0 s) {p : Pid} {ph ph' : Phase}
    (hp : s.ctl p = .commit ph) (hctl : t.ctl = update s.ctl p (.commit ph'))
    (hcom : t.committing = s.committing) (hout : t.outstanding = s.outstanding)
    (hlh : t.lh = s.lh ∨ t.lh = []) (hprog : Progress c d0 t ph') : Running c d0 t := by
  have hself : ∀ q k, t.ctl q = .commit k → q = p ∧ k = ph' := by
    intro q k hq
    by_cases hqp : q = p
    · subst hqp; rw [hctl, update_self] at hq; cases hq; exact ⟨rfl, rfl⟩
    · rw [hctl, update_of_ne hqp] at hq
      exact absurd (hr.sole q p k ph hq hp) hqp
  refine ⟨?_, ?_, ?_, ?_, ?_, ?_, ?_, ?_, ?_, ?_⟩
  · rcases hlh with h | h <;> rw [h]
    · exact hr.nodup
    · exact List.nodup_nil
  · rcases hlh with h | h <;> rw [h]
    · exact hr.home
    · intro b hb; exact absurd hb List.not_mem_nil
  · rcases hlh with h | h <;> rw [h]
    · exact hr.small
    · exact Nat.zero_le _
  · rcases hlh with h | h <;> rw [h]
    · exact hr.fits
    · exact c.pos
  · intro q k _; rw [hcom]; exact hr.flag p ph hp
  · intro q r k k' hq hr'; exact (hself q k hq).1.trans (hself r k' hr').1.symm
  · intro q k hq; rw [(hself q k hq).2]; exact hprog
  · intro hno; exact absurd (by rw [hctl, update_self]) (hno p ph')
  · rw [hctl, hout]
    obtain ⟨S, hS, hcard⟩ := count_update hr.count p (.commit ph')
    refine ⟨S, hS, ?_⟩
    rw [hp] at hcard
    exact hcard
  · rw [hcom, hout]; exact hr.excl

theorem inv_writeLogBlock {s : Sys} (hi : Inv c d0 s) (hm : s.mode = .running) {p : Pid} {t : Nat}
    (hp : s.ctl p = .commit (.writeLog t)) (ht : t < s.lh.length) :
    Inv c d0 ((writeLogBlock c s t).goto p (.commit (.writeLog (t + 1)))) := by
  have hr := hi.running hm
  obtain ⟨ho, hle, hdone⟩ := hr.progress p _ hp
  have hslot : t + 1 < c.size := lt_of_le_of_lt ht hr.fits
  set src := s.lh.getD t 0 with hsrc
  have hsrcHome := (hr.home src (mem_getD ht)).1
  set u := (writeLogBlock c s t).goto p (.commit (.writeLog (t + 1))) with hu
  have hview : ∀ b, b ≠ c.start + t + 1 → u.view b = s.view b := by
    intro b hb
    have h := view_bwrite_ne (s.bread src) (s.view src) hb
    rw [view_bread] at h
    exact h
  have hdisk : u.disk = update s.disk (c.start + t + 1) (s.view src) := rfl
  refine ⟨?_, ?_, fun _ => ?_, ?_⟩
  · exact hi.consistent.writeSlot ho.header hslot _
  · intro b hb
    exact coherent_bwrite (s := s.bread src) (by rw [view_bread]; exact hi.coherent) _ _ b (.inr hb)
  · refine hr.commit_next hp rfl rfl rfl (.inl rfl) ⟨⟨?_, ho.pins, ho.blocks, ?_⟩, ht, ?_⟩
    · rw [hdisk, update_of_ne (by omega)]; exact ho.header
    · intro b hb
      rw [hview b (ne_slot hb hslot)]
      exact ho.view b hb
    · intro j hj
      have hjl : j < s.lh.length := by omega
      have hhome := (hr.home _ (mem_getD hjl)).1
      change u.disk (c.start + j + 1) = u.view (s.lh.getD j 0)
      rw [hview _ (ne_slot hhome hslot), hdisk]
      by_cases hjt : j = t
      · subst hjt; rw [update_self]
      · rw [update_of_ne (by omega)]
        exact hdone j (by omega)
  · intro tail h
    have : s.mode = .recovering tail := h
    rw [hm] at this
    cases this

/-- The commit point: the group becomes part of the committed state. -/
theorem inv_commitPoint {s : Sys} (hi : Inv c d0 s) (hm : s.mode = .running) {p : Pid} {t : Nat}
    (hp : s.ctl p = .commit (.writeLog t)) (ht : ¬ t < s.lh.length) :
    Inv c d0 { (writeHead c s).goto p (.commit (.install 0)) with
      groups := s.groups ++ [s.current], current := [] } := by
  have hr := hi.running hm
  obtain ⟨ho, hle, hdone⟩ := hr.progress p _ hp
  have hheader := getHeader_putHeader (s.view c.start) hr.small fun b hb => (hr.home b hb).2
  set u : Sys := { (writeHead c s).goto p (.commit (.install 0)) with
    groups := s.groups ++ [s.current], current := [] } with hu
  have hbase : committed d0 u = applyWrites s.current (committed d0 s) := by
    change applyWrites (s.groups ++ [s.current]).flatten d0 = _
    rw [List.flatten_append, List.flatten_singleton, applyWrites_append]
    rfl
  have hrest : ∀ b, b ∉ s.lh → committed d0 u b = committed d0 s b := by
    intro b hb
    rw [hbase]
    exact applyWrites_other fun w hw he => hb (he ▸ ho.blocks w hw)
  have hdisk : u.disk = update s.disk c.start (putHeader (s.view c.start) s.lh) := rfl
  refine ⟨?_, ?_, fun _ => ?_, ?_⟩
  · refine hi.consistent.writeHeader ho.header hheader hr.fits (fun b hb => (hr.home b hb).1) ?_ ?_
    · intro i hi'
      rw [hdone i (by omega), hbase]
      exact ho.view _ (hr.home _ (mem_getD hi')).1
    · intro b _ hb
      exact hrest b hb
  · intro b hb
    exact coherent_bwrite hi.coherent _ _ b (.inr hb)
  · refine hr.commit_next hp rfl rfl rfl (.inl rfl) ⟨⟨?_, ho.pins, rfl, ?_⟩, Nat.zero_le _⟩
    · rw [hdisk, update_self]; exact hheader
    · intro b hb hn
      rw [hdisk, update_of_ne (ne_start hb), hrest b hn]
      exact hi.consistent.rest b hb (by rw [ho.header]; exact List.not_mem_nil)
  · intro tail h
    have : s.mode = .recovering tail := h
    rw [hm] at this
    cases this

theorem drop_getD {xs : List Nat} {t : Nat} (ht : t < xs.length) :
    xs.drop t = xs.getD t 0 :: xs.drop (t + 1) := by
  rw [List.drop_eq_getElem_cons ht, List.getD_eq_getElem _ _ ht]

theorem inv_installBlock {s : Sys} (hi : Inv c d0 s) (hm : s.mode = .running) {p : Pid} {t : Nat}
    (hp : s.ctl p = .commit (.install t)) (ht : t < s.lh.length) :
    Inv c d0 ((installBlock c s false t).goto p (.commit (.install (t + 1)))) := by
  have hr := hi.running hm
  obtain ⟨hin, hle⟩ := hr.progress p _ hp
  have hfits := hr.fits
  set dst := s.lh.getD t 0 with hdst
  have hdrop : s.lh.drop t = dst :: s.lh.drop (t + 1) := drop_getD ht
  have hfresh : dst ∉ s.lh.drop (t + 1) := by
    have h := hr.nodup.sublist (List.drop_sublist t s.lh)
    rw [hdrop] at h
    exact (List.nodup_cons.mp h).1
  -- the log block is not pinned, so its buffer agrees with the disk
  have hslot : s.view (c.start + t + 1) = s.disk (c.start + t + 1) := by
    refine hi.coherent _ ?_
    rw [hin.pins, if_neg]
    intro hmem
    exact (hr.home _ (List.mem_of_mem_drop hmem)).1 (slot_inLog (by omega))
  set u := (installBlock c s false t).goto p (.commit (.install (t + 1))) with hu
  have hdisk : u.disk = update s.disk dst (s.disk (c.start + t + 1)) := by
    rw [← hslot]; rfl
  have hpin : u.pin = update s.pin dst (s.pin dst - 1) := rfl
  have hlogged : s.disk (c.start + t + 1) = committed d0 s dst := by
    have h := hi.consistent.logged t (by rw [hin.header]; exact ht)
    rw [hin.header] at h
    exact h
  have hdstStart : c.start ≠ dst := Ne.symm (ne_start (hr.home dst (mem_getD ht)).1)
  refine ⟨?_, ?_, fun _ => ?_, ?_⟩
  · have h := hi.consistent.install (i := t) (by rw [hin.header]; exact ht)
    rw [hin.header] at h
    rw [hdisk]
    exact h
  · intro b hb
    refine coherent_bwrite (s := s.bread (c.start + t + 1)) (by rw [view_bread]; exact hi.coherent)
      dst (s.view (c.start + t + 1)) b ?_
    by_cases hbd : b = dst
    · exact .inl hbd
    · right
      rw [hpin, update_of_ne hbd] at hb
      exact hb
  · refine hr.commit_next hp rfl rfl rfl (.inl rfl) ⟨⟨?_, ?_, hin.current, ?_⟩, ht⟩
    · rw [hdisk, update_of_ne hdstStart]; exact hin.header
    · intro b
      change u.pin b = if b ∈ s.lh.drop (t + 1) then 1 else 0
      rw [hpin]
      by_cases hbd : b = dst
      · subst hbd; rw [update_self, hin.pins, hdrop, if_neg hfresh]; simp
      · rw [update_of_ne hbd, hin.pins, hdrop]; simp [hbd]
    · intro b hb hn
      change u.disk b = committed d0 s b
      rw [hdisk]
      by_cases hbd : b = dst
      · subst hbd; rw [update_self, hlogged]
      · rw [update_of_ne hbd]
        refine hin.home b hb ?_
        rw [hdrop, List.mem_cons, not_or]
        exact ⟨hbd, hn⟩
  · intro tail h
    have : s.mode = .recovering tail := h
    rw [hm] at this
    cases this

theorem getHeader_erase (b : Block) : getHeader (putHeader b []) = [] :=
  getHeader_putHeader b (Nat.zero_le _) fun _ hx => absurd hx List.not_mem_nil

theorem inv_eraseHead {s : Sys} (hi : Inv c d0 s) (hm : s.mode = .running) {p : Pid} {t : Nat}
    (hp : s.ctl p = .commit (.install t)) (ht : ¬ t < s.lh.length) :
    Inv c d0 ((eraseHead c s).goto p (.commit .finish)) := by
  have hr := hi.running hm
  obtain ⟨hin, hle⟩ := hr.progress p _ hp
  have hnil : s.lh.drop t = [] := List.drop_eq_nil_of_le (Nat.not_lt.mp ht)
  have hpins : ∀ b, s.pin b = 0 := by intro b; rw [hin.pins, hnil]; rfl
  have hplace : ∀ b, ¬ c.inLog b → s.disk b = committed d0 s b := by
    intro b hb
    exact hin.home b hb (by rw [hnil]; exact List.not_mem_nil)
  set u := (eraseHead c s).goto p (.commit .finish) with hu
  have hdisk : u.disk = update s.disk c.start (putHeader (s.view c.start) []) := rfl
  have hcoh : ∀ b, u.view b = u.disk b := by
    intro b
    exact coherent_bwrite (s := { s with lh := [] }) hi.coherent _ _ b (.inr (hpins b))
  refine ⟨?_, fun b _ => hcoh b, fun _ => ?_, ?_⟩
  · exact hi.consistent.erase (getHeader_erase _) fun b hb => hplace b (hi.consistent.home b hb)
  · refine hr.commit_next hp rfl rfl rfl (.inr rfl) ⟨⟨?_, ?_, ?_, ?_⟩, rfl⟩
    · rw [hdisk, update_self]; exact getHeader_erase _
    · intro b; exact hpins b
    · change ∀ w ∈ s.current, _
      rw [hin.current]
      intro w hw
      exact absurd hw List.not_mem_nil
    · intro b hb
      rw [hcoh, hdisk, update_of_ne (ne_start hb), hplace b hb]
      change _ = applyWrites s.current _ b
      rw [hin.current]
      rfl
  · intro tail h
    have : s.mode = .recovering tail := h
    rw [hm] at this
    cases this

theorem inv_finish {s : Sys} (hi : Inv c d0 s) (hm : s.mode = .running) {p : Pid}
    (hp : s.ctl p = .commit .finish) :
    Inv c d0 { (s.goto p .idle).wakeup with committing := false } := by
  have hr := hi.running hm
  obtain ⟨ho, hnil⟩ := hr.progress p _ hp
  set u : Sys := { (s.goto p .idle).wakeup with committing := false } with hu
  have hd : SameData s u := ⟨rfl, rfl, rfl, rfl, rfl, rfl⟩
  have hno : ∀ q ph, u.ctl q ≠ .commit ph := by
    intro q ph hq
    have h : update s.ctl p .idle q = .commit ph := commit_wakeup hq
    by_cases hqp : q = p
    · subst hqp; rw [update_self] at h; cases h
    · rw [update_of_ne hqp] at h
      exact hqp (hr.sole q p ph _ h hp)
  refine ⟨hi.consistent, hi.coherent, fun _ => ?_, ?_⟩
  · refine ⟨hr.nodup, hr.home, hr.small, hr.fits, ?_, ?_, ?_, fun _ => hd.open ho, ?_, ?_⟩
    · intro q ph hq; exact absurd hq (hno q ph)
    · intro q r ph ph' hq; exact absurd hq (hno q ph)
    · intro q ph hq; exact absurd hq (hno q ph)
    · obtain ⟨S, hS, hcard⟩ := count_update hr.count p .idle
      refine ⟨S, fun q => (hS q).trans ?_, ?_⟩
      · change _ ↔ ((s.goto p .idle).wakeup.ctl q).isOp = true
        rw [isOp_wakeup]
        rfl
      rw [hp] at hcard
      exact hcard
    · intro h; cases h
  · intro tail h
    have : s.mode = .recovering tail := h
    rw [hm] at this
    cases this

theorem inv_commitStep {s : Sys} (hi : Inv c d0 s) (hm : s.mode = .running) {p : Pid} {ph : Phase}
    (hp : s.ctl p = .commit ph) : Inv c d0 (commitStep c s p ph) := by
  cases ph with
  | writeLog t =>
    rw [commitStep]
    split
    · exact inv_writeLogBlock hi hm hp ‹_›
    · exact inv_commitPoint hi hm hp ‹_›
  | install t =>
    rw [commitStep]
    split
    · exact inv_installBlock hi hm hp ‹_›
    · exact inv_eraseHead hi hm hp ‹_›
  | finish => exact inv_finish hi hm hp

/-! ## Crash and recovery -/

theorem inv_crash {s : Sys} (hi : Inv c d0 s) : Inv c d0 (crash s) where
  consistent := hi.consistent
  coherent := fun _ _ => rfl
  running := by rintro ⟨⟩
  rebooting := by
    rintro tail ⟨⟩
    exact ⟨fun _ => rfl, fun _ => rfl, ⟨rfl, rfl, rfl⟩, by rintro t ⟨⟩, by rintro t ⟨⟩⟩

theorem inv_readHead {s : Sys} (hi : Inv c d0 s) (hm : s.mode = .recovering none) :
    Inv c d0 { readHead c s with mode := .recovering (some 0) } := by
  have hr := hi.rebooting _ hm
  refine ⟨hi.consistent, ?_, ?_, ?_⟩
  · intro b hb
    change (s.bread c.start).view b = s.disk b
    rw [view_bread]
    exact hi.coherent b hb
  · rintro ⟨⟩
  · rintro tail ⟨⟩
    refine ⟨hr.pins, hr.idle, hr.quiet, ?_, ?_⟩
    · rintro t ⟨⟩
      change getHeader (s.view c.start) = getHeader (s.disk c.start)
      rw [hi.coherent _ (hr.pins _)]
    · rintro t ⟨⟩ i hi'
      exact absurd hi' (Nat.not_lt_zero i)

theorem inv_recoverBlock {s : Sys} (hi : Inv c d0 s) {t : Nat} (hm : s.mode = .recovering (some t))
    (ht : t < s.lh.length) :
    Inv c d0 { installBlock c s true t with mode := .recovering (some (t + 1)) } := by
  have hr := hi.rebooting _ hm
  have hh : s.lh = getHeader (s.disk c.start) := hr.header t rfl
  have hlt : t < (getHeader (s.disk c.start)).length := by rw [← hh]; exact ht
  set u : Sys := { installBlock c s true t with mode := .recovering (some (t + 1)) } with hu
  set dst := s.lh.getD t 0 with hdst
  have hdisk : u.disk = update s.disk dst (s.disk (c.start + t + 1)) := by
    rw [← hi.coherent _ (hr.pins (c.start + t + 1))]; rfl
  have hlogged : s.disk (c.start + t + 1) = committed d0 s dst := by
    rw [hi.consistent.logged t hlt, ← hh]
  have hstart : c.start ≠ dst := by
    rw [hdst, hh]
    exact Ne.symm (ne_start (hi.consistent.home _ (mem_getD hlt)))
  refine ⟨?_, ?_, ?_, ?_⟩
  · have h := hi.consistent.install hlt
    rw [← hh] at h
    rw [hdisk]
    exact h
  · intro b hb
    exact coherent_bwrite (s := s.bread (c.start + t + 1)) (by rw [view_bread]; exact hi.coherent)
      dst (s.view (c.start + t + 1)) b (.inr hb)
  · rintro ⟨⟩
  · rintro tail ⟨⟩
    refine ⟨hr.pins, hr.idle, hr.quiet, ?_, ?_⟩
    · rintro _ -
      rw [hdisk, update_of_ne hstart]
      exact hh
    · rintro _ ⟨⟩ i hi' hil
      change u.disk (s.lh.getD i 0) = committed d0 s (s.lh.getD i 0)
      rw [hdisk]
      by_cases hid : s.lh.getD i 0 = dst
      · rw [hid, update_self, hlogged]
      · rw [update_of_ne hid]
        refine hr.copied t rfl i ?_ hil
        have : i ≠ t := by rintro rfl; exact hid rfl
        omega

/-- The last write of a recovery; from here on the system runs again. -/
theorem inv_recovered {s : Sys} (hi : Inv c d0 s) {t : Nat} (hm : s.mode = .recovering (some t))
    (ht : ¬ t < s.lh.length) : Inv c d0 { eraseHead c s with mode := .running } := by
  have hr := hi.rebooting _ hm
  have hh : s.lh = getHeader (s.disk c.start) := hr.header t rfl
  have hplace : ∀ b ∈ getHeader (s.disk c.start), s.disk b = committed d0 s b := by
    intro b hb
    rw [← hh] at hb
    obtain ⟨i, hi', rfl⟩ := exists_getD hb
    exact hr.copied t rfl i (by omega) hi'
  set u : Sys := { eraseHead c s with mode := .running } with hu
  have hdisk : u.disk = update s.disk c.start (putHeader (s.view c.start) []) := rfl
  have hcons : Consistent c (committed d0 u) u.disk :=
    hi.consistent.erase (getHeader_erase _) hplace
  have hheader : getHeader (u.disk c.start) = [] := by
    rw [hdisk, update_self]; exact getHeader_erase _
  have hcoh : ∀ b, u.view b = u.disk b := fun b =>
    coherent_bwrite (s := { s with lh := [] }) hi.coherent _ _ b (.inr (hr.pins b))
  have hcurrent : u.current = [] := hr.quiet.2.2
  have hopen : Open c d0 u := by
    refine ⟨hheader, hr.pins, ?_, ?_⟩
    · rw [hcurrent]; intro w hw; exact absurd hw List.not_mem_nil
    · intro b hb
      rw [hcoh, hcurrent]
      exact hcons.rest b hb (by rw [hheader]; exact List.not_mem_nil)
  have hidle : ∀ p, u.ctl p = .idle := hr.idle
  refine ⟨hcons, fun b _ => hcoh b, fun _ => ?_, ?_⟩
  · refine ⟨List.nodup_nil, ?_, Nat.zero_le _, c.pos, ?_, ?_, ?_, fun _ => hopen, ?_, ?_⟩
    · intro b hb; exact absurd hb List.not_mem_nil
    · intro p ph hp; rw [hidle] at hp; cases hp
    · intro p q ph ph' hp; rw [hidle] at hp; cases hp
    · intro p ph hp; rw [hidle] at hp; cases hp
    · refine ⟨∅, fun p => ?_, hr.quiet.2.1.symm⟩
      rw [hidle]
      simp [Ctl.isOp]
    · intro _; exact hr.quiet.2.1
  · rintro tail ⟨⟩

theorem inv_recoverStep {s : Sys} (hi : Inv c d0 s) {tail : Option Nat}
    (hm : s.mode = .recovering tail) : Inv c d0 (recoverStep c s tail) := by
  cases tail with
  | none => exact inv_readHead hi hm
  | some t =>
    rw [recoverStep]
    split
    · exact inv_recoverBlock hi hm ‹_›
    · exact inv_recovered hi hm ‹_›

end Xv6.Log
