import Xv6.Bio.Coherence

/-!
# Every step keeps the cache coherent

One lemma for each operation of a routine, for the steps inside `bread` and
`brelse`, and for `begin_op` and `end_op`.
-/
namespace Xv6.Bio

set_option autoImplicit false

open Xv6.Lib Xv6.Lib.Prog Function
open Xv6.Fs (Op Routine Dinode Src)
open Xv6.Log (Conf)

variable {R : Block → Block → Prop} {N : Nat} {s : Sys N} {H : Fin N → Held} {p : Fin N} {i : BufId}

/-! ## Operations on a locked buffer -/

theorem Inv.lock_of_held (hi : Inv R s H) {x : Nat × Status} (hh : H p i = some x) :
    (s.bufs i).lock = some p := (hi.locks i p).mpr (.inl (by rw [hh]; rfl))

/-- A step that moves only the process. -/
theorem Inv.stay (hi : Inv R s H) {c : Ctl} (hold : (s.ctl p).uses = none) (hnew : c.uses = none)
    (hc : CtlOk (s.goto p c) p (H p) c) : Inv R (s.goto p c) H := by
  obtain ⟨o⟩ : Nonempty BufId := ⟨⟨0, by decide⟩⟩
  have hs : s.touch p o (s.bufs o) c s.disk s.lru s.lh s.inst = s.goto p c := by
    unfold Sys.touch Sys.goto
    rw [update_eq_self]
  have hH : update (H p) o (H p o) = H p := update_eq_self ..
  have hfills : ∀ {d : Ctl}, d.uses = none → d.fills ≠ some o := by
    intro d hd h
    rw [Ctl.uses_of_fills h] at hd
    cases hd
  have ht : TouchBuf R s H p o (s.bufs o) c (H p o) s.disk s.waiting := by
    refine ⟨rfl, id, ?_, ?_, .inl ⟨rfl, rfl⟩, fun _ _ => rfl, ?_, ?_⟩
    · intro j _
      rw [hold, hnew]
      exact ⟨by rintro ⟨⟩, by rintro ⟨⟩⟩
    · intro q
      by_cases hq : q = p
      · subst hq
        rw [if_pos rfl, hi.locks o q]
        simp [hfills hold, hfills hnew]
      · rw [if_neg hq]
    · intro a st hx
      exact hi.held p o a st hx
    · intro a hb hv hx hq
      refine hi.coherent o a hb hv fun q => ?_
      by_cases hqp : q = p
      · subst hqp; exact hx
      · exact hq q hqp
  have h := hi.touch_plain hi.lru ht (by rw [hH]; unfold uses; rw [hold, hnew])
    (by rw [hs, hH]; exact hc)
  rwa [hs, hH, update_eq_self] at h

/-- The holder of a buffer gives it new contents, or brings disk and buffer together. -/
theorem Inv.rewrite (hi : Inv R s H) {c c' : Routine BufId Unit} (hctl : s.ctl p = .run c) {b : Nat}
    {st : Status} (hh : H p i = some (b, st)) (data : Block) {st' : Status} (disk : Nat → Block)
    (hdisk : ∀ a, a ≠ b → disk a = s.disk a)
    (hst : st' = .dirty ∨ R data (disk b) ∨ (st' = .clean ∧ b ∈ s.waiting))
    (hc : wp spec c' Done ((s.ghost p (H p)).set i (b, st'))) :
    Inv R (s.touch p i { s.bufs i with data := data } (.run c') disk s.lru s.lh s.inst)
      (update H p (update (H p) i (some (b, st')))) := by
  obtain ⟨hblock, hvalid, -⟩ := hi.held p i b st hh
  have hlock := hi.lock_of_held hh
  refine hi.touch_plain hi.lru ⟨rfl, id, ?_, ?_, .inr hlock, ?_, ?_, ?_⟩ ?_ hc
  · intro j _
    rw [hctl]
    exact ⟨by rintro ⟨⟩, by rintro ⟨⟩⟩
  · intro q
    by_cases hq : q = p
    · subst hq; simp [hlock]
    · rw [if_neg hq]
  · intro a ha
    refine hdisk a ?_
    rintro rfl
    exact ha hblock
  · rintro a st₁ ⟨⟩
    refine ⟨hblock, hvalid, ?_⟩
    rintro rfl
    rcases hst with h | h | ⟨h, -⟩
    · cases h
    · exact h
    · cases h
  · intro a ha _ hx _ hw
    have hab : a = b := by
      have h : (s.bufs i).block = some a := ha
      rw [hblock] at h
      exact (Option.some.inj h).symm
    subst hab
    rcases hst with rfl | h | ⟨-, h⟩
    · exact absurd rfl hx
    · exact h
    · exact absurd h hw
  · rw [hctl]
    simp [uses, hh, Ctl.uses]

theorem inv_brelse (hi : Inv R s H) {c k : Routine BufId Unit} (hctl : s.ctl p = .run c) {b : Nat}
    {st : Status} (hh : H p i = some (b, st)) (hst : st ≠ .dirty)
    (hk : wp spec k Done ((s.ghost p (H p)).unset i)) :
    Inv R ((s.setBuf i { s.bufs i with lock := none }).goto p (.putting i k))
      (update H p (update (H p) i none)) := by
  have hlock := hi.lock_of_held hh
  refine hi.touch_plain hi.lru
    ⟨rfl, id, ?_, ?_, .inr hlock, fun _ _ => rfl, by rintro a st' ⟨⟩, ?_⟩ ?_ hk
  · intro j hj
    rw [hctl]
    refine ⟨by rintro ⟨⟩, fun h => hj (Option.some.inj h).symm⟩
  · intro q
    by_cases hq : q = p
    · subst hq; simp [Ctl.fills]
    · rw [if_neg hq, hlock]
      simp [Ne.symm hq]
  · intro a ha hv _ hq
    refine hi.coherent i a ha hv fun q => ?_
    by_cases hqp : q = p
    · subst hqp
      rw [hh]
      rintro ⟨⟩
      exact hst rfl
    · exact hq q hqp
  · rw [hctl]
    simp [uses, hh, Ctl.uses]

/-! ## The steps of `bread` and `brelse` -/

theorem inv_put (hi : Inv R s H) {k : Routine BufId Unit} (hctl : s.ctl p = .putting i k) :
    Inv R (put s p i k) H := by
  have hk : wp spec k Done (s.ghost p (H p)) := by
    have h := hi.procs p
    rwa [hctl] at h
  have hpos : 0 < (s.bufs i).refcnt := by
    have h1 := uses_le_sum s.ctl H p i
    have h2 : 1 ≤ uses (s.ctl p) (H p) i := by rw [hctl]; simp [uses, Ctl.uses]
    have h3 := hi.refs i
    omega
  have hH : update (H p) i (H p i) = H p := update_eq_self ..
  have ht : TouchBuf R s H p i { s.bufs i with refcnt := (s.bufs i).refcnt - 1 } (.run k) (H p i) s.disk
      s.waiting := by
    refine ⟨rfl, id, ?_, ?_, .inl ⟨rfl, rfl⟩, fun _ _ => rfl, fun a st h => hi.held p i a st h, ?_⟩
    · intro j hj
      rw [hctl]
      exact ⟨fun h => hj (Option.some.inj h).symm, by rintro ⟨⟩⟩
    · intro q
      by_cases hq : q = p
      · subst hq
        rw [if_pos rfl]
        have h := hi.locks i q
        rw [hctl] at h
        exact h
      · rw [if_neg hq]
    · intro a hb hv hx hq
      refine hi.coherent i a hb hv fun q => ?_
      by_cases hqp : q = p
      · subst hqp; exact hx
      · exact hq q hqp
  have hgo : ∀ lru : List BufId, (∀ j, j ∈ lru) →
      Inv R (s.touch p i { s.bufs i with refcnt := (s.bufs i).refcnt - 1 } (.run k) s.disk lru s.lh
        s.inst) H := by
    intro lru hlru
    have hrefs : (s.bufs i).refcnt - 1 + uses (s.ctl p) (H p) i =
        (s.bufs i).refcnt + uses (.run k) (update (H p) i (H p i)) i := by
      rw [hH, hctl]
      simp only [uses, Ctl.uses, if_true, reduceCtorEq, if_false]
      omega
    have h := hi.touch_plain hlru ht hrefs (by rw [hH]; exact hk)
    rwa [hH, update_eq_self] at h
  unfold put
  dsimp only
  split
  · refine hgo (i :: s.lru.erase i) fun j => ?_
    by_cases hj : j = i
    · subst hj; exact List.mem_cons_self
    · exact List.mem_cons_of_mem _ ((List.mem_erase_of_ne hj).mpr (hi.lru j))
  · exact hgo s.lru hi.lru

theorem inv_acquire (hi : Inv R s H) {k : BufId → Routine BufId Unit} (hctl : s.ctl p = .getting i k)
    (hfree : (s.bufs i).lock = none) :
    Inv R ((s.setBuf i { s.bufs i with lock := some p }).goto p (.filling i k)) H := by
  have hnone : ∀ q, H q i = none := by
    intro q
    cases h : H q i with
    | none => rfl
    | some x => rw [hi.lock_of_held h] at hfree; cases hfree
  have hH : update (H p) i (H p i) = H p := update_eq_self ..
  have ht : TouchBuf R s H p i { s.bufs i with lock := some p } (.filling i k) (H p i) s.disk
      s.waiting := by
    refine ⟨rfl, id, ?_, ?_, .inl ⟨rfl, rfl⟩, fun _ _ => rfl, fun a st h => hi.held p i a st h, ?_⟩
    · intro j hj
      rw [hctl]
      exact ⟨fun h => hj (Option.some.inj h).symm, fun h => hj (Option.some.inj h).symm⟩
    · intro q
      by_cases hq : q = p
      · subst hq; simp [Ctl.fills]
      · rw [if_neg hq, hfree]
        simp [Ne.symm hq]
    · intro a hb hv _ _
      exact hi.coherent i a hb hv fun q => by rw [hnone q]; rintro ⟨⟩
  have hc := hi.procs p
  rw [hctl] at hc
  obtain ⟨b, hb, hk⟩ := hc
  have h := hi.touch_plain hi.lru ht (by rw [hH, hctl]; simp [uses, Ctl.uses]) (by
    rw [hH]
    exact ⟨hnone p, b, by simpa [Sys.touch] using hb, hk⟩)
  rwa [hH, update_eq_self] at h

theorem inv_fill (hR : ∀ x, R x x) (hi : Inv R s H) {k : BufId → Routine BufId Unit} (hctl : s.ctl p = .filling i k) :
    ∃ H', Inv R (fill s p i k) H' := by
  have hc := hi.procs p
  rw [hctl] at hc
  obtain ⟨hn, b, hb, hk⟩ := hc
  have hlock : (s.bufs i).lock = some p := (hi.locks i p).mpr (.inr (by rw [hctl]; rfl))
  have hother : ∀ q a, H q i ≠ some (a, .dirty) := by
    intro q a hq
    have h := hi.lock_of_held hq
    rw [hlock] at h
    cases h
    rw [hn] at hq
    cases hq
  have ht : ∀ data : Block, ((s.bufs i).valid = true → data = (s.bufs i).data) →
      ((s.bufs i).valid = false → data = s.disk b) →
      TouchBuf R s H p i { s.bufs i with valid := true, data := data } (.run (k i)) (some (b, .clean))
        s.disk s.waiting := by
    intro data hd1 hd2
    refine ⟨rfl, fun _ => rfl, ?_, ?_, .inr hlock, fun _ _ => rfl, ?_, ?_⟩
    · intro j hj
      rw [hctl]
      exact ⟨fun h => hj (Option.some.inj h).symm, by rintro ⟨⟩⟩
    · intro q
      by_cases hq : q = p
      · subst hq; simp [hlock]
      · rw [if_neg hq]
    · rintro a st ⟨⟩
      exact ⟨hb, rfl, by rintro ⟨⟩⟩
    · intro a ha _ _ _ hw
      have hab : b = a := by
        have h : (s.bufs i).block = some a := ha
        rw [hb] at h
        exact Option.some.inj h
      subst hab
      cases hv : (s.bufs i).valid with
      | false =>
        rw [hd2 hv]
        exact hR _
      | true =>
        rw [hd1 hv]
        exact hi.coherent i b hb hv (fun q => hother q b) hw
  have hrun : wp spec (k i) Done ((s.ghost p (H p)).set i (b, .clean)) := hk i hn
  have hrefs : (s.bufs i).refcnt + uses (s.ctl p) (H p) i = (s.bufs i).refcnt +
      uses (.run (k i)) (update (H p) i (some (b, .clean))) i := by
    rw [hctl]
    simp [uses, Ctl.uses, hn]
  unfold fill
  dsimp only
  split
  · rename_i hv
    have h := hi.touch_plain hi.lru
      (ht (s.bufs i).data (fun _ => rfl) (fun h => by rw [hv] at h; cases h)) hrefs hrun
    have hs : s.touch p i { s.bufs i with valid := true, data := (s.bufs i).data } (.run (k i)) s.disk
        s.lru s.lh s.inst = s.goto p (.run (k i)) := by
      have hself : ({ s.bufs i with valid := true, data := (s.bufs i).data } : Buf N) = s.bufs i := by
        rw [← hv]
      unfold Sys.touch Sys.goto
      rw [hself, update_eq_self]
    rw [hs] at h
    exact ⟨_, h⟩
  · rename_i hv
    have hd : s.disk ((s.bufs i).block.getD 0) = s.disk b := by rw [hb]; rfl
    exact ⟨_, hi.touch_plain hi.lru (ht _ (fun h => absurd h hv) fun _ => hd) hrefs hrun⟩

/-- `bget` finds the block. -/
theorem inv_bget_hit (hi : Inv R s H) {c : Routine BufId Unit} (hctl : s.ctl p = .run c) {b : Nat}
    (hb : (s.bufs i).block = some b) {k : BufId → Routine BufId Unit}
    (hk : ∀ j, H p j = none → wp spec (k j) Done ((s.ghost p (H p)).set j (b, .clean))) :
    Inv R ((s.setBuf i { s.bufs i with refcnt := (s.bufs i).refcnt + 1 }).goto p (.getting i k)) H := by
  have hH : update (H p) i (H p i) = H p := update_eq_self ..
  have ht : TouchBuf R s H p i { s.bufs i with refcnt := (s.bufs i).refcnt + 1 } (.getting i k) (H p i)
      s.disk s.waiting := by
    refine ⟨rfl, id, ?_, ?_, .inl ⟨rfl, rfl⟩, fun _ _ => rfl, fun a st h => hi.held p i a st h, ?_⟩
    · intro j hj
      rw [hctl]
      exact ⟨by rintro ⟨⟩, fun h => hj (Option.some.inj h).symm⟩
    · intro q
      by_cases hq : q = p
      · subst hq
        rw [if_pos rfl]
        have h := hi.locks i q
        rw [hctl] at h
        exact h
      · rw [if_neg hq]
    · intro a ha hv hx hq
      refine hi.coherent i a ha hv fun q => ?_
      by_cases hqp : q = p
      · subst hqp; exact hx
      · exact hq q hqp
  have hrefs : (s.bufs i).refcnt + 1 + uses (s.ctl p) (H p) i = (s.bufs i).refcnt +
      uses (.getting i k) (update (H p) i (H p i)) i := by
    rw [hH, hctl]
    simp only [uses, Ctl.uses, if_true, reduceCtorEq, if_false]
    omega
  have h := hi.touch_plain hi.lru ht hrefs (by
    rw [hH]
    exact ⟨b, by simpa [Sys.touch] using hb, hk⟩)
  rwa [hH, update_eq_self] at h

/-- `bget` recycles a buffer: nobody uses it, and its block is not waiting. -/
theorem inv_bget_miss (hi : Inv R s H) {c : Routine BufId Unit} (hctl : s.ctl p = .run c) {b : Nat}
    (hb : ∀ j, (s.bufs j).block ≠ some b) (hzero : (s.bufs i).refcnt = 0)
    {k : BufId → Routine BufId Unit}
    (hk : ∀ j, H p j = none → wp spec (k j) Done ((s.ghost p (H p)).set j (b, .clean))) :
    Inv R ((s.setBuf i { s.bufs i with block := some b, valid := false, refcnt := 1 }).goto p
      (.getting i k)) H := by
  obtain ⟨hnone, hpin⟩ := hi.unused hzero
  set B : Buf N := { s.bufs i with block := some b, valid := false, refcnt := 1 } with hB
  set t : Sys N := (s.setBuf i B).goto p (.getting i k) with ht
  have hself : t.bufs i = B := update_self ..
  have hother : ∀ j, j ≠ i → t.bufs j = s.bufs j := fun j hj => update_of_ne hj _ _
  have hbw : b ∉ s.waiting := by
    intro h
    obtain ⟨j, hj, -⟩ := hi.pinned b h
    exact hb j hj
  have hblock : ∀ j a, a ≠ b → (t.bufs j).block = some a → j ≠ i ∧ (s.bufs j).block = some a := by
    intro j a hab hj
    have hji : j ≠ i := by
      rintro rfl
      rw [hself] at hj
      exact hab (Option.some.inj hj).symm
    rw [hother j hji] at hj
    exact ⟨hji, hj⟩
  have hnot : ∀ a ∈ s.waiting, (s.bufs i).block ≠ some a := by
    intro a ha hia
    rw [pins_eq hia, if_pos ha] at hpin
    cases hpin
  have hpins : ∀ j, t.pins j = s.pins j := by
    intro j
    by_cases hj : j = i
    · subst hj
      rw [hpin, pins_eq (a := b) (by rw [hself])]
      exact if_neg hbw
    · unfold Sys.pins
      rw [hother j hj]
      rfl
  refine ⟨hi.lru, ?_, ?_, ?_, ?_, ?_, ?_, hi.nodup, hi.small, ?_, hi.flag, hi.sole, hi.calm, hi.count,
    hi.excl⟩
  · intro j l a hj hl
    by_cases hab : a = b
    · subst hab
      have hjl : ∀ m, (t.bufs m).block = some a → m = i := by
        intro m hm
        by_contra hmi
        rw [hother m hmi] at hm
        exact hb m hm
      rw [hjl j hj, hjl l hl]
    · exact hi.unique j l a (hblock j a hab hj).2 (hblock l a hab hl).2
  · intro j
    rw [hpins]
    have hsum := sum_uses_update s.ctl H p (.getting i k) (H p) j
    rw [update_eq_self] at hsum
    change (t.bufs j).refcnt = (∑ q, uses (update s.ctl p (.getting i k) q) (H q) j) + s.pins j
    have hold := hi.refs j
    have hnew : uses (.getting i k) (H p) j = uses (s.ctl p) (H p) j + (if i = j then 1 else 0) := by
      rw [hctl]
      simp [uses, Ctl.uses]
    by_cases hj : j = i
    · subst hj
      rw [hself, hB]
      rw [if_pos rfl] at hnew
      dsimp only
      omega
    · rw [hother j hj]
      rw [if_neg (Ne.symm hj)] at hnew
      omega
  · intro j q
    have hl : (t.bufs j).lock = (s.bufs j).lock := by
      by_cases hj : j = i
      · subst hj; rw [hself]
      · rw [hother j hj]
    rw [hl, hi.locks j q]
    change _ ↔ _ ∨ (update s.ctl p (.getting i k) q).fills = some j
    by_cases hq : q = p
    · subst hq; rw [update_self, hctl]; rfl
    · rw [update_of_ne hq]
  · intro q j a st hh
    have hji : j ≠ i := by rintro rfl; rw [(hnone q).1] at hh; cases hh
    rw [hother j hji]
    exact hi.held q j a st hh
  · intro j a ha hv hnd hw
    have hji : j ≠ i := by rintro rfl; rw [hself] at hv; cases hv
    rw [hother j hji] at ha hv ⊢
    exact hi.coherent j a ha hv hnd hw
  · intro a ha
    obtain ⟨j, hj, hv⟩ := hi.pinned a ha
    have hji : j ≠ i := by rintro rfl; exact hnot a ha hj
    exact ⟨j, by rw [hother j hji]; exact ⟨hj, hv⟩⟩
  · intro q
    change CtlOk t q (H q) (update s.ctl p (.getting i k) q)
    by_cases hq : q = p
    · subst hq
      rw [update_self]
      exact ⟨b, by rw [hself], hk⟩
    · rw [update_of_ne hq]
      refine (hi.procs q).frame rfl rfl fun j hj => ?_
      have hji : j ≠ i := by rintro rfl; exact (hnone q).2 hj
      rw [hother j hji]

theorem inv_bget (hi : Inv R s H) {b : Nat} {k : BufId → Routine BufId Unit}
    (hctl : s.ctl p = .run (.op (.bread b) k)) : Inv R (bget s p b k) H ∨
      bget s p b k = s.panic .noBuffers := by
  have hk := hi.procs p
  rw [hctl] at hk
  unfold bget
  split
  · rename_i i hf
    left
    have hb := List.find?_some hf
    exact inv_bget_hit hi hctl (of_decide_eq_true hb) hk
  · rename_i hf
    have hb : ∀ j, (s.bufs j).block ≠ some b := by
      intro j hj
      have h := List.find?_eq_none.mp hf j (hi.lru j)
      simp only [hj, decide_true, not_true_eq_false] at h
    split
    · rename_i i hz
      left
      have hzero := List.find?_some hz
      exact inv_bget_miss hi hctl hb (of_decide_eq_true hzero) hk
    · exact .inr rfl

/-! ## Operations on the log -/

/-- Somebody is between `begin_op` and `end_op`, so nobody commits. -/
theorem Inv.no_commit (hi : Inv R s H) (hout : 1 ≤ s.outstanding) :
    s.inst = 0 ∧ ∀ q, s.role q ≠ .commit := by
  have hcom : s.committing = false := by
    cases h : s.committing with
    | false => rfl
    | true => rw [hi.excl h] at hout; cases hout
  refine ⟨hi.calm hcom, fun q hq => ?_⟩
  rw [hi.flag q hq] at hcom
  cases hcom

theorem ghost_of_role {s s' : Sys N} {q : Fin N} (h : Held) (hr : s'.role q = s.role q)
    (hq : s.role q ≠ .commit) : s'.ghost q h = s.ghost q h := by
  unfold Sys.ghost
  rw [hr, if_neg hq, if_neg hq]

theorem ctlOk_run {s s' : Sys N} {q : Fin N} {h : Held} {k : Routine BufId Unit}
    (hr : s'.role q = s.role q) (hq : s.role q ≠ .commit) (hk : wp spec k Done (s.ghost q h)) :
    CtlOk s' q h (.run k) := by
  change wp spec k Done (s'.ghost q h)
  rw [ghost_of_role h hr hq]
  exact hk

theorem ctlOk_run_commit {s : Sys N} {q : Fin N} {h : Held} {k : Routine BufId Unit}
    (hr : s.role q = .commit) (hk : wp spec k Done ⟨h, some (s.lh, s.inst)⟩) :
    CtlOk s q h (.run k) := by
  change wp spec k Done (s.ghost q h)
  unfold Sys.ghost
  rw [if_pos hr]
  exact hk

/-- `log_write` of a block that is not listed yet. -/
theorem inv_logWrite_new (hi : Inv R s H) {c k : Routine BufId Unit} (hctl : s.ctl p = .run c) {b : Nat}
    {st : Status} (hh : H p i = some (b, st)) (hb : b ∉ s.lh) (hroom : s.lh.length < LOGSIZE)
    (hout : 1 ≤ s.outstanding) (hk : wp spec k Done ((s.ghost p (H p)).set i (b, .clean))) :
    Inv R { (s.setBuf i { s.bufs i with refcnt := (s.bufs i).refcnt + 1 }).goto p (.run k) with
        lh := s.lh ++ [b] }
      (update H p (update (H p) i (some (b, .clean)))) := by
  obtain ⟨hinst, hrole⟩ := hi.no_commit hout
  obtain ⟨hblock, hvalid, -⟩ := hi.held p i b st hh
  have hlock := hi.lock_of_held hh
  have hold : s.waiting = s.lh := by unfold Sys.waiting; rw [hinst]; rfl
  have hnew : (s.lh ++ [b]).drop s.inst = s.lh ++ [b] := by rw [hinst]; rfl
  have hisb : ∀ a, (s.bufs i).block = some a → a = b := by
    intro a ha
    rw [hblock] at ha
    exact (Option.some.inj ha).symm
  refine hi.touch s.disk (s.lh ++ [b]) s.inst hi.lru ⟨rfl, id, ?_, ?_, .inr hlock,
    fun _ _ => rfl, ?_, ?_⟩ ⟨?_, ?_, ?_, ?_, ?_, hi.calm⟩ ?_ ?_
  · intro j _
    rw [hctl]
    exact ⟨by rintro ⟨⟩, by rintro ⟨⟩⟩
  · intro q
    by_cases hq : q = p
    · subst hq; simp [hlock]
    · rw [if_neg hq]
  · rintro a st' ⟨⟩
    exact ⟨hblock, hvalid, by rintro ⟨⟩⟩
  · intro a ha _ _ _ hw
    rw [hnew, hisb a ha] at hw
    exact absurd (List.mem_append_right _ List.mem_cons_self) hw
  · exact List.nodup_append.mpr ⟨hi.nodup, List.nodup_singleton b, by
      intro a ha y hy; rw [List.mem_singleton.mp hy]; rintro rfl; exact hb ha⟩
  · rw [List.length_append]; exact hroom
  · intro a ha
    rw [hnew, hold, List.mem_append, List.mem_singleton]
    refine or_iff_left ?_
    rintro rfl
    exact ha hblock
  · intro a _ _; exact hvalid
  · intro q _ hq; exact absurd hq (hrole q)
  · -- one more pin, and one more reference
    rw [pins_eq hblock, pins_eq (by simpa [Sys.touch] using hblock), hold, hctl]
    change _ = _ + _ + (if b ∈ (s.lh ++ [b]).drop s.inst then 1 else 0)
    rw [hnew, if_neg hb, if_pos (List.mem_append_right _ List.mem_cons_self)]
    simp [uses, hh, Ctl.uses]
  · exact ctlOk_run (s := s) rfl (hrole p) hk

theorem role_of_log {h : Held} {x : List Nat × Nat} (hg : (s.ghost p h).log = some x) :
    s.role p = .commit ∧ x = (s.lh, s.inst) := by
  unfold Sys.ghost at hg
  dsimp only at hg
  split at hg
  · exact ⟨‹_›, (Option.some.inj hg).symm⟩
  · cases hg

/-- `bunpin` of the block that has just been copied home. -/
theorem inv_bunpin (hi : Inv R s H) {c k : Routine BufId Unit} (hctl : s.ctl p = .run c)
    (hrole : s.role p = .commit) (hlt : s.inst < s.lh.length)
    (hh : H p i = some (s.lh.getD s.inst 0, .synced))
    (hk : wp spec k Done { s.ghost p (H p) with log := some (s.lh, s.inst + 1) }) :
    Inv R { (s.setBuf i { s.bufs i with refcnt := (s.bufs i).refcnt - 1 }).goto p (.run k) with
        inst := s.inst + 1 } H := by
  set b := s.lh.getD s.inst 0 with hb
  obtain ⟨hblock, hvalid, hsync⟩ := hi.held p i b _ hh
  have hlock := hi.lock_of_held hh
  have hdrop : s.waiting = b :: s.lh.drop (s.inst + 1) := by
    unfold Sys.waiting
    rw [hb, List.drop_eq_getElem_cons hlt, List.getD_eq_getElem _ _ hlt]
  have hfresh : b ∉ s.lh.drop (s.inst + 1) := by
    have h := hi.nodup.sublist (List.drop_sublist s.inst s.lh)
    rw [show s.lh.drop s.inst = _ from hdrop] at h
    exact (List.nodup_cons.mp h).1
  have hcom := hi.flag p hrole
  have hH : update (H p) i (H p i) = H p := update_eq_self ..
  have hpos : 1 ≤ (s.bufs i).refcnt := by
    have h := hi.refs i
    rw [pins_eq hblock, hdrop, if_pos List.mem_cons_self] at h
    omega
  have h := hi.touch (p := p) (i := i) (b := { s.bufs i with refcnt := (s.bufs i).refcnt - 1 })
    (c := .run k) (x := H p i) s.disk s.lh (s.inst + 1) hi.lru
    ⟨rfl, id, ?_, ?_, .inl ⟨rfl, rfl⟩, fun _ _ => rfl, fun a st h => hi.held p i a st h, ?_⟩
    ⟨hi.nodup, hi.small, ?_, fun _ _ _ => hvalid, ?_, ?_⟩ ?_ ?_
  · rwa [hH, update_eq_self] at h
  · intro j _
    rw [hctl]
    exact ⟨by rintro ⟨⟩, by rintro ⟨⟩⟩
  · intro q
    by_cases hq : q = p
    · subst hq; simp [hlock, hh]
    · rw [if_neg hq]
  · intro a ha _ _ _ _
    have hab : b = a := by
      have h : (s.bufs i).block = some a := ha
      rw [hblock] at h
      exact Option.some.inj h
    rw [← hab]
    exact hsync rfl
  · intro a ha
    rw [hdrop, List.mem_cons]
    refine (or_iff_right ?_).symm
    rintro rfl
    exact ha hblock
  · intro q hq hr
    exact absurd (hi.sole q p hr hrole) hq
  · intro h
    rw [hcom] at h
    cases h
  · -- one pin less, and one reference less
    rw [pins_eq hblock, pins_eq (by simpa [Sys.touch] using hblock), hdrop, hctl, hH]
    change _ = _ + _ + (if b ∈ s.lh.drop (s.inst + 1) then 1 else 0)
    rw [if_neg hfresh, if_pos List.mem_cons_self]
    simp only [uses, Ctl.uses, reduceCtorEq, if_false]
    omega
  · rw [hH]
    exact ctlOk_run_commit hrole hk

/-- `log.lh.n = 0` once every block has been copied home. -/
theorem inv_clear (hi : Inv R s H) {c k : Routine BufId Unit} (hctl : s.ctl p = .run c)
    (hrole : s.role p = .commit) (hall : s.inst = s.lh.length)
    (hk : wp spec k Done { s.ghost p (H p) with log := some ([], 0) }) :
    Inv R { s.goto p (.run k) with lh := [], inst := 0 } H := by
  obtain ⟨o⟩ : Nonempty BufId := ⟨⟨0, by decide⟩⟩
  have hw : s.waiting = [] := by unfold Sys.waiting; rw [hall]; exact List.drop_length
  have hH : update (H p) o (H p o) = H p := update_eq_self ..
  have hs : s.touch p o (s.bufs o) (.run k) s.disk s.lru [] 0 =
      { s.goto p (.run k) with lh := [], inst := 0 } := by
    unfold Sys.touch Sys.goto
    rw [update_eq_self]
  have h := hi.touch (p := p) (i := o) (b := s.bufs o) (c := .run k) (x := H p o) s.disk [] 0 hi.lru
    ⟨rfl, id, ?_, ?_, .inl ⟨rfl, rfl⟩, fun _ _ => rfl, fun a st h => hi.held p o a st h, ?_⟩
    ⟨List.nodup_nil, Nat.zero_le _, ?_, ?_, ?_, fun _ => rfl⟩ ?_ ?_
  · rwa [hs, hH, update_eq_self] at h
  · intro j _
    rw [hctl]
    exact ⟨by rintro ⟨⟩, by rintro ⟨⟩⟩
  · intro q
    by_cases hq : q = p
    · subst hq
      rw [if_pos rfl, hi.locks o q, hctl]
      rfl
    · rw [if_neg hq]
  · intro a ha hv hx hq _
    refine hi.coherent o a ha hv (fun q => ?_) (by rw [hw]; exact List.not_mem_nil)
    by_cases hqp : q = p
    · subst hqp; exact hx
    · exact hq q hqp
  · intro a _; rw [hw]; rfl
  · intro a ha; exact absurd ha List.not_mem_nil
  · intro q hq hr
    exact absurd (hi.sole q p hr hrole) hq
  · have hp1 : s.pins o = 0 := by
      unfold Sys.pins pin
      rw [hw]
      cases (s.bufs o).block <;> rfl
    have hp2 : (s.touch p o (s.bufs o) (.run k) s.disk s.lru [] 0).pins o = 0 := by
      unfold Sys.pins pin
      cases ((s.touch p o (s.bufs o) (.run k) s.disk s.lru [] 0).bufs o).block <;> rfl
    rw [hp1, hp2, hH, hctl]
    rfl
  · rw [hH]
    exact ctlOk_run_commit hrole hk

end Xv6.Bio
