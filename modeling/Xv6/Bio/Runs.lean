import Xv6.Bio.Steps

/-!
# The buffer cache in every run

The steps put together: as long as no `copyin` of `writei` fails in the middle of a
block, a buffer that nobody has locked agrees with the disk or is pinned, and
recycling a buffer changes nothing that a later `bread` could see.
-/
namespace Xv6.Bio

set_option autoImplicit false

open Xv6.Lib Xv6.Lib.Prog Function
open Xv6.Fs (Op Routine Dinode Src)
open Xv6.Log (Conf mkfsConf)

variable {R : Block → Block → Prop} {N : Nat} {s : Sys N} {H : Fin N → Held} {p : Fin N}

theorem inv_panic (hi : Inv R s H) (m : Panic) : Inv R (s.panic m) H :=
  ⟨hi.lru, hi.unique, hi.refs, hi.locks, hi.held, hi.coherent, hi.pinned, hi.nodup, hi.small,
    fun q => (hi.procs q).frame rfl rfl fun _ _ => rfl, hi.flag, hi.sole, hi.calm, hi.count, hi.excl⟩

/-- A `copyin` that fails has not copied anything. -/
def Whole (s : Sys N) : Act N → Prop
  | .go p bytes _ =>
    match s.ctl p with
    | .run (.op (.copyin _ _ n) _) => n ≤ bytes.length ∨ bytes = []
    | _ => True
  | _ => True

instance (s : Sys N) (a : Act N) : Decidable (Whole s a) := by
  unfold Whole
  split
  · split <;> infer_instance
  · infer_instance

theorem putBytes_nil (x : Block) (off : Nat) : Fs.putBytes x off [] = x := by
  funext i
  unfold Fs.putBytes
  rw [if_neg]
  simp only [List.length_nil]
  omega

theorem touch_self {i : BufId} {c : Ctl} (disk : Nat → Block) :
    s.touch p i { s.bufs i with data := (s.bufs i).data } c disk s.lru s.lh s.inst =
      { s.goto p c with disk := disk } := by
  unfold Sys.touch Sys.goto
  rw [update_eq_self]

variable (c : Conf)

theorem inv_logWrite (hi : Inv R s H) {i : BufId} {k : Unit → Routine BufId Unit}
    (hctl : s.ctl p = .run (.op (.logWrite i) k)) : ∃ H', Inv R (logWrite c s p i (k ())) H' := by
  have hwp := hi.procs p
  rw [hctl] at hwp
  obtain ⟨-, b, st, hh, hk⟩ := hwp
  have hblock := (hi.held p i b st hh).1
  unfold logWrite
  rw [hblock]
  dsimp only [Option.getD_some]
  split
  · exact ⟨H, inv_panic hi _⟩
  rename_i hroom
  rw [not_or, Nat.not_le, Nat.not_le] at hroom
  split
  · exact ⟨H, inv_panic hi _⟩
  rename_i hout
  split
  · rename_i hb
    have hw : b ∈ s.waiting := by
      unfold Sys.waiting
      rw [(hi.no_commit (Nat.not_lt.mp hout)).1]
      exact hb
    have h := hi.rewrite hctl hh (s.bufs i).data s.disk (fun _ _ => rfl)
      (.inr (.inr ⟨rfl, hw⟩)) hk
    rw [touch_self] at h
    exact ⟨_, h⟩
  · exact ⟨_, inv_logWrite_new hi hctl hh ‹_› hroom.1 (Nat.not_lt.mp hout) hk⟩

theorem inv_copyin (hi : Inv R s H) {i : BufId} {off n : Nat} {k : Bool → Routine BufId Unit}
    (hctl : s.ctl p = .run (.op (.copyin i off n) k)) {bytes : List UInt8} (ok : Bool)
    (hw : (n ≤ bytes.length ∨ bytes = []) ∨ ∀ x y, R x y) :
    ∃ H', Inv R (perform c s p bytes ok (.copyin i off n) k) H' := by
  have hwp := hi.procs p
  rw [hctl] at hwp
  obtain ⟨b, st, hh, htrue, hfalse⟩ := hwp
  unfold perform
  dsimp only
  by_cases hn : n ≤ bytes.length
  · rw [decide_eq_true hn]
    exact ⟨_, hi.rewrite hctl hh _ s.disk (fun _ _ => rfl) (.inl rfl) htrue⟩
  rw [decide_eq_false hn]
  obtain hwhole | hany := hw
  · rw [hwhole.resolve_left hn, List.take_nil, putBytes_nil]
    refine ⟨H, ?_⟩
    have h := hi.stay (p := p) (c := .run (k false)) (by rw [hctl]; rfl) rfl hfalse
    rw [show s.goto p (.run (k false)) = { s.goto p (.run (k false)) with disk := s.disk } from rfl,
      ← touch_self (i := i)] at h
    exact h
  · have hk : wp spec (k false) Done ((s.ghost p (H p)).set i (b, st)) := by
      rw [Ghost.set, ← hh, update_eq_self]
      exact hfalse
    exact ⟨_, hi.rewrite hctl hh _ s.disk (fun _ _ => rfl) (.inr (.inl (hany _ _))) hk⟩

theorem inv_perform (hR : ∀ x, R x x) (hi : Inv R s H) {e : Op BufId} {k : e.Ans → Routine BufId Unit}
    (hctl : s.ctl p = .run (.op e k)) {bytes : List UInt8} (ok : Bool)
    (hw : ∀ i off n, e = .copyin i off n → (n ≤ bytes.length ∨ bytes = []) ∨ ∀ x y, R x y) :
    ∃ H', Inv R (perform c s p bytes ok e k) H' := by
  have hwp := hi.procs p
  rw [hctl] at hwp
  have huses : (s.ctl p).uses = none := by rw [hctl]; rfl
  cases e with
  | bread b =>
    rcases inv_bget hi hctl with h | h
    · exact ⟨H, h⟩
    · exact ⟨H, by change Inv R (bget s p b k) H; rw [h]; exact inv_panic hi _⟩
  | load i => exact ⟨H, hi.stay huses rfl (hwp _)⟩
  | store i x =>
    obtain ⟨b, st, hh, hk⟩ := hwp
    exact ⟨_, hi.rewrite hctl hh x s.disk (fun _ _ => rfl) (.inl rfl) hk⟩
  | copyin i off n => exact inv_copyin c hi hctl ok (hw i off n rfl)
  | copyout n => exact ⟨H, hi.stay huses rfl (hwp _)⟩
  | logWrite i => exact inv_logWrite c hi hctl
  | bwrite i =>
    obtain ⟨-, b, st, hh, hk⟩ := hwp
    have hblock := (hi.held p i b st hh).1
    unfold perform
    dsimp only
    rw [if_pos (hi.lock_of_held hh), hblock]
    have h := hi.rewrite hctl hh (s.bufs i).data
      (update s.disk b (s.bufs i).data) (fun a ha => update_of_ne ha _ _)
      (.inr (.inl (by rw [update_self]; exact hR _))) hk
    rw [touch_self] at h
    exact ⟨_, h⟩
  | bunpin i =>
    obtain ⟨lh, n, hg, hn, hh, hk⟩ := hwp
    obtain ⟨hrole, he⟩ := role_of_log hg
    cases he
    exact ⟨H, inv_bunpin hi hctl hrole hn hh hk⟩
  | brelse i =>
    obtain ⟨b, st, hh, hst, hk⟩ := hwp
    unfold perform
    dsimp only
    rw [if_pos (hi.lock_of_held hh)]
    exact ⟨_, inv_brelse hi hctl hh hst hk⟩
  | header =>
    obtain ⟨lh, n, hg, hk⟩ := hwp
    obtain ⟨-, he⟩ := role_of_log hg
    cases he
    exact ⟨H, hi.stay huses rfl hk⟩
  | clear =>
    obtain ⟨lh, hg, hk⟩ := hwp
    obtain ⟨hrole, he⟩ := role_of_log hg
    have h1 : lh = s.lh := congrArg Prod.fst he
    have h2 : lh.length = s.inst := congrArg Prod.snd he
    exact ⟨H, inv_clear hi hctl hrole (by rw [← h2, h1]) hk⟩
  | panic m => exact ⟨H, inv_panic hi _⟩

/-! ## Operations and calls -/

/-- Steps that only change what the processes are doing. -/
theorem Inv.move {s' : Sys N} (hi : Inv R s H) (hbufs : s'.bufs = s.bufs) (hdisk : s'.disk = s.disk)
    (hlru : s'.lru = s.lru) (hlh : s'.lh = s.lh) (hinst : s'.inst = s.inst)
    (huses : ∀ q, (s'.ctl q).uses = (s.ctl q).uses ∧ (s'.ctl q).fills = (s.ctl q).fills)
    (hprocs : ∀ q, CtlOk s' q (H q) (s'.ctl q))
    (hflag : ∀ q, s'.role q = .commit → s'.committing = true)
    (hsole : ∀ q r, s'.role q = .commit → s'.role r = .commit → q = r)
    (hcalm : s'.committing = false → s'.inst = 0)
    (hcount : ∑ q, (if s'.role q = .inOp then 1 else 0) = s'.outstanding)
    (hexcl : s'.committing = true → s'.outstanding = 0) : Inv R s' H := by
  have hw : s'.waiting = s.waiting := by unfold Sys.waiting; rw [hlh, hinst]
  refine ⟨?_, ?_, ?_, ?_, ?_, ?_, ?_, ?_, ?_, hprocs, hflag, hsole, hcalm, hcount, hexcl⟩
  · rw [hlru]; exact hi.lru
  · rw [hbufs]; exact hi.unique
  · intro i
    have hpins : s'.pins i = s.pins i := by unfold Sys.pins; rw [hw, hbufs]
    rw [hbufs, hpins, hi.refs i]
    congr 1
    refine Finset.sum_congr rfl fun q _ => ?_
    unfold uses
    rw [(huses q).1]
  · intro i q
    rw [hbufs, (huses q).2]
    exact hi.locks i q
  · rw [hbufs, hdisk]; exact hi.held
  · rw [hbufs, hdisk, hw]; exact hi.coherent
  · rw [hbufs, hw]; exact hi.pinned
  · rw [hlh]; exact hi.nodup
  · rw [hlh]; exact hi.small

theorem ctl_wakeup (q : Fin N) : (s.wakeup.ctl q).uses = (s.ctl q).uses ∧
    (s.wakeup.ctl q).fills = (s.ctl q).fills := by
  unfold Sys.wakeup
  dsimp only
  split
  · rename_i h; rw [h]; exact ⟨rfl, rfl⟩
  · exact ⟨rfl, rfl⟩

theorem ctlOk_wakeup {t : Sys N} {q : Fin N} {h : Held} (hc : CtlOk t q h (s.ctl q)) :
    CtlOk t q h (s.wakeup.ctl q) := by
  unfold Sys.wakeup
  dsimp only
  split
  · rename_i he; rw [he] at hc; exact hc
  · exact hc

/-- The number of processes between `begin_op` and `end_op`. -/
theorem count_enter (role : Fin N → Role) (p : Fin N) (r : Role) :
    (∑ q, if update role p r q = .inOp then 1 else 0) + (if role p = .inOp then 1 else 0) =
      (∑ q, if role q = .inOp then 1 else 0) + (if r = .inOp then 1 else 0) :=
  sum_update (fun r => if r = .inOp then 1 else 0) role p r

theorem inv_finish (hi : Inv R s H) {a : Unit} (hctl : s.ctl p = .run (.ret a)) :
    Inv R (finish s p) H := by
  have hwp := hi.procs p
  rw [hctl] at hwp
  obtain ⟨hnone, hlog⟩ := hwp
  change H p = _ at hnone
  unfold finish
  split
  · rename_i hrole
    have hinst : s.inst = 0 := (hlog s.lh s.inst (by unfold Sys.ghost; rw [if_pos hrole])).2
    have hother : ∀ q, q ≠ p → s.role q ≠ .commit := fun q hq hr => hq (hi.sole q p hr hrole)
    have hno : ∀ q, update s.role p .outside q ≠ .commit := by
      intro q
      by_cases hq : q = p
      · subst hq; rw [update_self]; rintro ⟨⟩
      · rw [update_of_ne hq]; exact hother q hq
    refine hi.move rfl rfl rfl rfl rfl ?_ ?_ ?_ ?_ (fun _ => hinst) ?_ (by rintro ⟨⟩)
    · intro q
      have h := ctl_wakeup (s := (s.goto p .idle).enter p .outside) q
      by_cases hq : q = p
      · subst hq
        rw [hctl]
        refine ⟨h.1.trans ?_, h.2.trans ?_⟩ <;>
          simp [Sys.goto, Sys.enter, Ctl.uses, Ctl.fills]
      · have hc : ((s.goto p .idle).enter p .outside).ctl q = s.ctl q := update_of_ne hq _ _
        rw [hc] at h
        exact h
    · intro q
      refine ctlOk_wakeup (s := (s.goto p .idle).enter p .outside) ?_
      change CtlOk _ q (H q) (update s.ctl p .idle q)
      by_cases hq : q = p
      · subst hq
        rw [update_self]
        exact ⟨hnone, hno q⟩
      · rw [update_of_ne hq]
        have hrq : update s.role p .outside q = s.role q := update_of_ne hq _ _
        exact (hi.procs q).frame hrq (ghost_of_role _ hrq (hother q hq)) fun _ _ => rfl
    · intro q hq; exact absurd hq (hno q)
    · intro q r hq; exact absurd hq (hno q)
    · have h := count_enter s.role p .outside
      rw [hrole] at h
      have hc := hi.count
      simp only [reduceCtorEq, if_false, Nat.add_zero] at h
      exact h.trans hc
  · rename_i hrole
    exact hi.stay (by rw [hctl]; rfl) rfl ⟨hnone, hrole⟩

theorem inv_beginOp (hi : Inv R s H) (hrole : s.role p = .outside) (hctl : s.ctl p = .idle ∨ s.ctl p = .woken) :
    Inv R (beginOp s p) H := by
  have huses : (s.ctl p).uses = none ∧ (s.ctl p).fills = none := by
    rcases hctl with h | h <;> rw [h] <;> exact ⟨rfl, rfl⟩
  have hnone : H p = fun _ => none := by
    have h := hi.procs p
    rcases hctl with hc | hc <;> rw [hc] at h <;> exact h.1
  have hnc : s.role p ≠ .commit := by rw [hrole]; rintro ⟨⟩
  unfold beginOp
  split
  · rename_i hadm
    have hno : ∀ q, s.role q ≠ .commit := by
      intro q hq
      have h := hi.flag q hq
      rw [hadm.1] at h
      cases h
    have hno' : ∀ q, update s.role p .inOp q ≠ .commit := by
      intro q
      by_cases hq : q = p
      · subst hq; rw [update_self]; rintro ⟨⟩
      · rw [update_of_ne hq]; exact hno q
    refine hi.move rfl rfl rfl rfl rfl ?_ ?_ ?_ ?_ hi.calm ?_ ?_
    · intro q
      change (update s.ctl p .idle q).uses = _ ∧ (update s.ctl p .idle q).fills = _
      by_cases hq : q = p
      · subst hq; rw [update_self, huses.1, huses.2]; exact ⟨rfl, rfl⟩
      · rw [update_of_ne hq]; exact ⟨rfl, rfl⟩
    · intro q
      change CtlOk _ q (H q) (update s.ctl p .idle q)
      by_cases hq : q = p
      · subst hq
        rw [update_self]
        exact ⟨hnone, hno' q⟩
      · rw [update_of_ne hq]
        have hrq : update s.role p .inOp q = s.role q := update_of_ne hq _ _
        exact (hi.procs q).frame hrq (ghost_of_role _ hrq (hno q)) fun _ _ => rfl
    · intro q hq; exact absurd hq (hno' q)
    · intro q r hq; exact absurd hq (hno' q)
    · have h := count_enter s.role p .inOp
      rw [hrole, hi.count] at h
      simp only [reduceCtorEq, if_false, if_true, Nat.add_zero] at h
      exact h
    · intro h
      have : s.committing = true := h
      rw [hadm.1] at this
      cases this
  · exact hi.stay huses.1 rfl ⟨hnone, hnc⟩

theorem inv_endOp (hi : Inv R s H) (hrole : s.role p = .inOp) (hctl : s.ctl p = .idle) :
    Inv R (endOp c s p) H := by
  have hnone : H p = fun _ => none := by
    have h := hi.procs p
    rw [hctl] at h
    exact h.1
  have hout : 1 ≤ s.outstanding := by
    rw [← hi.count]
    have h := le_sum (fun r => if r = Role.inOp then 1 else 0) s.role p
    simpa [hrole] using h
  obtain ⟨hinst, hno⟩ := hi.no_commit hout
  have hcom : s.committing = false := by
    cases h : s.committing with
    | false => rfl
    | true => rw [hi.excl h] at hout; cases hout
  have hcount : ∀ r : Role, r ≠ .inOp →
      (∑ q, if update s.role p r q = .inOp then 1 else 0) = s.outstanding - 1 := by
    intro r hr
    have h := count_enter s.role p r
    rw [hi.count, hrole, if_pos rfl, if_neg hr] at h
    omega
  unfold endOp
  dsimp only
  rw [if_neg (by rw [hcom]; exact Bool.false_ne_true)]
  split
  · rename_i hzero
    have hself : ∀ q, update s.role p .commit q = .commit → q = p := by
      intro q hq
      by_contra hne
      rw [update_of_ne hne] at hq
      exact hno q hq
    refine hi.move rfl rfl rfl rfl rfl ?_ ?_ (fun _ _ => rfl) ?_ (by rintro ⟨⟩)
      (hcount .commit (by rintro ⟨⟩)) (fun _ => hzero)
    · intro q
      change (update s.ctl p _ q).uses = _ ∧ (update s.ctl p _ q).fills = _
      by_cases hq : q = p
      · subst hq; rw [update_self, hctl]; exact ⟨rfl, rfl⟩
      · rw [update_of_ne hq]; exact ⟨rfl, rfl⟩
    · intro q
      change CtlOk _ q (H q) (update s.ctl p _ q)
      by_cases hq : q = p
      · subst hq
        rw [update_self]
        refine ctlOk_run_commit (update_self ..) ?_
        have h := wp_commit c (g := ⟨H q, some (s.lh, s.inst)⟩) (by rw [hinst]) hi.small
        refine wp_mono spec_mono ?_ h
        rintro _ _ rfl
        refine ⟨hnone, ?_⟩
        rintro lh n ⟨⟩
        exact ⟨rfl, rfl⟩
      · rw [update_of_ne hq]
        have hrq : update s.role p .commit q = s.role q := update_of_ne hq _ _
        exact (hi.procs q).frame hrq (ghost_of_role _ hrq (hno q)) fun _ _ => rfl
    · intro q r hq hr
      rw [hself q hq, hself r hr]
  · have hno' : ∀ q, update s.role p .outside q ≠ .commit := by
      intro q
      by_cases hq : q = p
      · subst hq; rw [update_self]; rintro ⟨⟩
      · rw [update_of_ne hq]; exact hno q
    refine hi.move rfl rfl rfl rfl rfl (fun q => ctl_wakeup q) ?_ ?_ ?_ hi.calm
      (hcount .outside (by rintro ⟨⟩)) ?_
    · intro q
      refine ctlOk_wakeup (s := s) ?_
      by_cases hq : q = p
      · subst hq
        rw [hctl]
        exact ⟨hnone, hno' q⟩
      · have hrq : update s.role p .outside q = s.role q := update_of_ne hq _ _
        exact (hi.procs q).frame hrq (ghost_of_role _ hrq (hno q)) fun _ _ => rfl
    · intro q hq; exact absurd hq (hno' q)
    · intro q r hq; exact absurd hq (hno' q)
    · intro h
      have : s.committing = true := h
      rw [hcom] at this
      cases this

/-! ## Runs -/

variable (sb : Superblock)

theorem inv_advance (hR : ∀ x, R x x) (hi : Inv R s H) {bytes : List UInt8} {ok : Bool} {s' : Sys N}
    (hw : Whole s (.go p bytes ok) ∨ ∀ x y, R x y) (h : advance c s p bytes ok = some s') :
    ∃ H', Inv R s' H' := by
  unfold advance at h
  cases hctl : s.ctl p with
  | idle => rw [hctl] at h; cases h
  | asleep => rw [hctl] at h; cases h
  | woken => rw [hctl] at h; cases h
  | run r =>
    cases r with
    | ret a => rw [hctl] at h; cases h; exact ⟨H, inv_finish hi hctl⟩
    | op e k =>
      rw [hctl] at h
      cases h
      refine inv_perform c hR hi hctl ok ?_
      rintro i off n rfl
      exact hw.imp_left fun hw => by simpa [Whole, hctl] using hw
  | getting i k =>
    rw [hctl] at h
    obtain ⟨hfree, he⟩ := Option.ite_none_right_eq_some.mp h
    cases he
    exact ⟨H, inv_acquire hi hctl hfree⟩
  | filling i k => rw [hctl] at h; cases h; exact inv_fill hR hi hctl
  | putting i k => rw [hctl] at h; cases h; exact ⟨H, inv_put hi hctl⟩

theorem inv_step (hR : ∀ x, R x x) (hi : Inv R s H) {a : Act N} {s' : Sys N}
    (hw : Whole s a ∨ ∀ x y, R x y) (h : step c sb s a = some s') : ∃ H', Inv R s' H' := by
  cases a with
  | beginOp p =>
    simp only [step] at h
    split at h
    · cases h; exact ⟨H, inv_beginOp hi ‹_› (.inl ‹_›)⟩
    · cases h; exact ⟨H, inv_beginOp hi ‹_› (.inr ‹_›)⟩
    · cases h
  | endOp p =>
    simp only [step] at h
    split at h
    · cases h; exact ⟨H, inv_endOp c hi ‹_› ‹_›⟩
    · cases h
  | call p f =>
    simp only [step] at h
    split at h
    · rename_i hctl
      cases h
      have hp := hi.procs p
      rw [hctl] at hp
      refine ⟨H, hi.stay (by rw [hctl]; rfl) rfl (ctlOk_run (s := s) rfl hp.2 ?_)⟩
      have hg : (s.ghost p (H p)).log = none := by unfold Sys.ghost; rw [if_neg hp.2]
      refine wp_mono spec_mono ?_ (tidy_call sb f _ hg)
      rintro _ _ rfl
      refine ⟨hp.1, ?_⟩
      intro lh n hl
      rw [hg] at hl
      cases hl
    · cases h
  | go p bytes ok =>
    obtain ⟨-, he⟩ := Option.ite_none_right_eq_some.mp h
    exact inv_advance c hR hi hw he

theorem inv_init (disk : Nat → Block) : Inv R (init N disk) fun _ _ => none := by
  refine ⟨?_, ?_, ?_, ?_, ?_, ?_, ?_, List.nodup_nil, Nat.zero_le _, ?_, ?_, ?_, fun _ => rfl, ?_, ?_⟩
  · intro i
    exact List.mem_reverse.mpr (List.mem_finRange i)
  · rintro i j b ⟨⟩
  · intro i
    simp [init, uses, Ctl.uses, Sys.pins, pin]
  · intro i p
    simp [init, Ctl.fills]
  · rintro p i b st ⟨⟩
  · rintro i b ⟨⟩
  · rintro b hb
    exact absurd hb List.not_mem_nil
  · intro p
    exact ⟨rfl, by rintro ⟨⟩⟩
  · rintro p ⟨⟩
  · rintro p q ⟨⟩
  · simp [init]
  · rintro ⟨⟩

theorem inv_run {disk : Nat → Block} {as : List (Act N)} {s : Sys N}
    (hrun : run (step c sb) (init N disk) as = some s)
    (hw : Always (step c sb) Whole (init N disk) as) : ∃ H, Inv Eq s H := by
  refine run_invariant_under (I := fun s => ∃ H, Inv Eq s H) ?_ ⟨_, inv_init disk⟩ hw hrun
  intro t a t' ht hC hs
  obtain ⟨H, hi⟩ := ht
  exact inv_step c sb (fun _ => rfl) hi (.inl hC) hs

/-- What the next `bread` of a block returns if nobody writes the block before. -/
def Sys.contents (s : Sys N) (b : Nat) : Block :=
  match s.lru.find? fun i => (s.bufs i).block = some b ∧ (s.bufs i).valid = true with
  | some i => (s.bufs i).data
  | none => s.disk b

variable {c sb}

theorem contents_cached {i : BufId} {b : Nat} (hl : i ∈ s.lru) (hb : (s.bufs i).block = some b)
    (hv : (s.bufs i).valid = true) (hu : ∀ j, (s.bufs j).block = some b → j = i) :
    s.contents b = (s.bufs i).data := by
  unfold Sys.contents
  split
  · rename_i j hf
    have hj := List.find?_some hf
    simp only [decide_eq_true_eq] at hj
    rw [hu j hj.1]
  · rename_i hf
    have h := List.find?_eq_none.mp hf i hl
    simp only [hb, hv, and_self, decide_true, not_true_eq_false] at h

theorem contents_uncached {b : Nat} (h : ∀ i, (s.bufs i).block = some b → (s.bufs i).valid = false) :
    s.contents b = s.disk b := by
  unfold Sys.contents
  split
  · rename_i j hf
    have hj := List.find?_some hf
    simp only [decide_eq_true_eq] at hj
    rw [h j hj.1] at hj
    exact absurd hj.2 Bool.false_ne_true
  · rfl

/-- Recycling an unused buffer loses nothing. -/
theorem contents_recycle (hi : Inv Eq s H) {i : BufId} {b : Nat} (hb : ∀ j, (s.bufs j).block ≠ some b)
    (hzero : (s.bufs i).refcnt = 0) (ctl : Ctl) (a : Nat) :
    ((s.setBuf i { s.bufs i with block := some b, valid := false, refcnt := 1 }).goto p ctl).contents a
      = s.contents a := by
  obtain ⟨hnone, hpin⟩ := hi.unused hzero
  set t : Sys N := (s.setBuf i _).goto p ctl with ht
  have hself : (t.bufs i).block = some b ∧ (t.bufs i).valid = false := by simp [ht, Sys.setBuf, Sys.goto]
  have hother : ∀ j, j ≠ i → t.bufs j = s.bufs j := fun j hj => update_of_ne hj _ _
  by_cases hc : ∃ j, j ≠ i ∧ (s.bufs j).block = some a ∧ (s.bufs j).valid = true
  · obtain ⟨j, hj, hja, hjv⟩ := hc
    have hab : a ≠ b := by rintro rfl; exact hb j hja
    have hu : ∀ l, (t.bufs l).block = some a → l = j := by
      intro l hl
      have hli : l ≠ i := by rintro rfl; rw [hself.1] at hl; exact hab (Option.some.inj hl).symm
      rw [hother l hli] at hl
      exact hi.unique l j a hl hja
    have htj := hother j hj
    rw [contents_cached (hi.lru j) hja hjv fun l hl => hi.unique l j a hl hja, ← htj]
    exact contents_cached (hi.lru j) (by rw [htj]; exact hja) (by rw [htj]; exact hjv) hu
  · -- no other buffer has the block, so after the step it is on disk only
    have hout : ∀ j, j ≠ i → (s.bufs j).block = some a → (s.bufs j).valid = false := by
      intro j hj hja
      cases hv : (s.bufs j).valid with
      | false => rfl
      | true => exact absurd ⟨j, hj, hja, hv⟩ hc
    have hnew : t.contents a = s.disk a := by
      refine contents_uncached fun j hja => ?_
      by_cases hj : j = i
      · subst hj; exact hself.2
      · rw [hother j hj] at hja ⊢; exact hout j hj hja
    rw [hnew]
    by_cases hia : (s.bufs i).block = some a ∧ (s.bufs i).valid = true
    · rw [contents_cached (hi.lru i) hia.1 hia.2 fun l hl => hi.unique l i a hl hia.1]
      refine (hi.coherent i a hia.1 hia.2 (fun q => ?_) fun hw => ?_).symm
      · rw [(hnone q).1]; rintro ⟨⟩
      · rw [pins_eq hia.1, if_pos hw] at hpin; cases hpin
    · refine (contents_uncached fun j hja => ?_).symm
      by_cases hj : j = i
      · subst hj
        cases hv : (s.bufs j).valid with
        | false => rfl
        | true => exact absurd ⟨hja, hv⟩ hia
      · exact hout j hj hja

theorem contents_bget (hi : Inv Eq s H) (b : Nat) (k : BufId → Routine BufId Unit) (a : Nat) :
    (bget s p b k).contents a = s.contents a := by
  unfold bget
  split
  · rename_i i hf
    have hsame : ∀ j, ((s.setBuf i { s.bufs i with refcnt := (s.bufs i).refcnt + 1 }).bufs j).block =
        (s.bufs j).block ∧
        ((s.setBuf i { s.bufs i with refcnt := (s.bufs i).refcnt + 1 }).bufs j).valid = (s.bufs j).valid ∧
        ((s.setBuf i { s.bufs i with refcnt := (s.bufs i).refcnt + 1 }).bufs j).data = (s.bufs j).data := by
      intro j
      unfold Sys.setBuf
      dsimp only
      by_cases hj : j = i
      · subst hj; rw [update_self]; exact ⟨rfl, rfl, rfl⟩
      · rw [update_of_ne hj]; exact ⟨rfl, rfl, rfl⟩
    unfold Sys.contents Sys.goto
    simp only [fun j => (hsame j).1, fun j => (hsame j).2.1, fun j => (hsame j).2.2]
    rfl
  · rename_i hf
    split
    · rename_i i hz
      have hzero := List.find?_some hz
      simp only [decide_eq_true_eq] at hzero
      refine contents_recycle hi (fun j hj => ?_) hzero _ a
      have h := List.find?_eq_none.mp hf j (hi.lru j)
      simp only [hj, decide_true, not_true_eq_false] at h
    · rfl

/-- In every state of a run in which no `copyin` fails half-way: a buffer whose lock is
free agrees with the disk, unless its block is listed and still to be copied home,
and then it is pinned; and `bget` never changes what a block appears to hold. -/
theorem cache_coherent (c : Conf) (sb : Superblock) (disk : Nat → Block) {as : List (Act N)}
    {s : Sys N} (hrun : run (step c sb) (init N disk) as = some s)
    (hwhole : Always (step c sb) Whole (init N disk) as) :
    (∀ i b, (s.bufs i).lock = none → (s.bufs i).block = some b → (s.bufs i).valid = true →
      b ∉ s.waiting → (s.bufs i).data = s.disk b) ∧
    (∀ i b, (s.bufs i).block = some b → b ∈ s.waiting → 1 ≤ (s.bufs i).refcnt) ∧
    ∀ p b k, s.ctl p = .run (.op (.bread b) k) → ∀ bytes ok s',
      step c sb s (.go p bytes ok) = some s' → s'.contents = s.contents := by
  obtain ⟨H, hi⟩ := inv_run c sb hrun hwhole
  refine ⟨?_, ?_, ?_⟩
  · intro i b hlock hb hv hw
    refine hi.coherent i b hb hv (fun q hq => ?_) hw
    rw [hi.lock_of_held hq] at hlock
    cases hlock
  · intro i b hb hw
    have h := hi.refs i
    rw [pins_eq hb, if_pos hw] at h
    omega
  · intro p b k hctl bytes ok s' hstep
    obtain ⟨-, he⟩ := Option.ite_none_right_eq_some.mp hstep
    unfold advance at he
    rw [hctl] at he
    cases he
    exact funext fun a => contents_bget hi b k a

/-- One process updates an inode, ends its operation and commits, up to the point
where `install_trans` has released the block that it has copied home. -/
def installed : List (Act 1) :=
  [.beginOp 0, .call 0 (.iupdate 1 (.fresh 2))] ++ List.replicate 9 (.go 0 [] true) ++
    [.endOp 0] ++ List.replicate 41 (.go 0 [] true)

theorem listed_block_unpinned : ∃ s i b,
    run (step mkfsConf mkfsSb) (init 1 fun _ _ => 0) installed = some s ∧
      (s.bufs i).lock = none ∧ (s.bufs i).valid = true ∧ (s.bufs i).block = some b ∧ b ∈ s.lh ∧
      (s.bufs i).refcnt = 0 := by
  exact ⟨_, ⟨0, by decide⟩, 32, rfl, rfl, rfl, rfl, by decide, rfl⟩

/-- At that point the block is the same in the cache and on disk. -/
theorem cache_coherent_installed : ∃ s i,
    run (step mkfsConf mkfsSb) (init 1 fun _ _ => 0) installed = some s ∧
      (s.bufs i).block = some 32 ∧ (s.bufs i).data = s.disk 32 := by
  obtain ⟨s, i, hrun, hlock, hblock, hvalid, hw⟩ : ∃ s i,
      run (step mkfsConf mkfsSb) (init 1 fun _ _ => 0) installed = some s ∧
      (s.bufs i).lock = none ∧ (s.bufs i).block = some 32 ∧ (s.bufs i).valid = true ∧
      32 ∉ s.waiting := ⟨_, ⟨0, by decide⟩, rfl, rfl, rfl, rfl, by decide⟩
  have hwhole : Always (step mkfsConf mkfsSb) Whole (init 1 fun _ _ => 0) installed := by decide
  exact ⟨s, i, hrun, hblock, (cache_coherent mkfsConf mkfsSb _ hrun hwhole).1 i 32 hlock hblock hvalid hw⟩

end Xv6.Bio
