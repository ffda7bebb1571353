import Xv6.Pipes.Delivery

/-!
# Records of one size

If all calls on a pipe move `k` bytes and `k` divides `PIPESIZE`, a `pipewrite` never sleeps
in the middle of its record: the ring is full only at a multiple of `k`. So each record enters
the ring in one critical section, and each `piperead` finds a whole record or nothing.

`Hist` observes a run from the outside: the bytes each `pipewrite` has stored and what each
`piperead` has returned.
-/
namespace Xv6.Pipes

open Function

set_option autoImplicit false

/-- A return of `piperead`; `drained` says that the pipe is empty and its write side closed. -/
structure Reply where
  ret : Int
  got : List UInt8
  drained : Bool

structure Hist where
  /-- What the last `pipewrite` of each process has stored so far. -/
  cur : Pid → List UInt8
  /-- What each `pipewrite` that has returned has stored, if anything. -/
  records : List (List UInt8)
  replies : List Reply

namespace Hist

def init : Hist := ⟨fun _ => [], [], []⟩

def store (h : Hist) : Act → Hist
  | .call p (.pipewrite _) => { h with cur := update h.cur p [] }
  | .write p (some c) => { h with cur := update h.cur p (h.cur p ++ [c]) }
  | _ => h

/-- Process `p` goes from control point `c` to `c'`. -/
def leave (h : Hist) (p : Pid) (drained : Bool) : Ctl → Ctl → Hist
  | .writeLoop _ _ _, .returned _ =>
    if h.cur p = [] then h else { h with records := h.records ++ [h.cur p] }
  | .readWait _, .returned r => { h with replies := h.replies ++ [⟨r, [], drained⟩] }
  | .readCopy _ got, .returned r => { h with replies := h.replies ++ [⟨r, got, drained⟩] }
  | _, _ => h

end Hist

def Act.pid : Act → Pid
  | .call p _ | .acquire p | .write p _ | .writeTest p | .waitTest p | .read p _ | .readEnd p
  | .close p | .kill p => p

def Sys.drained (s : Sys) : Bool := s.pi.empty && !s.pi.writeopen

/-- A step of the pipe, observed. -/
def stepObs (x : Sys × Hist) (a : Act) : Option (Sys × Hist) :=
  (step x.1 a).map fun s =>
    (s, (x.2.store a).leave a.pid x.1.drained (x.1.ctl a.pid) (s.ctl a.pid))

/-- Every call moves `k` bytes, no copy fails and nobody is killed. -/
def Uses (k : Nat) : Act → Prop
  | .call _ (.pipewrite n) | .call _ (.piperead n) => n = k
  | .write _ none | .read _ false | .kill _ => False
  | _ => True

/-! ## Lists of records -/

theorem prefix_snoc {k : Nat} {G R : List (List UInt8)} {got held : List UInt8} (hk : 0 < k)
    (hR : ∀ r ∈ R, r.length = k) (hG : G <+: R) (hgot : got.length = k)
    (h : R.flatten = G.flatten ++ got ++ held) : G ++ [got] <+: R := by
  obtain ⟨T, rfl⟩ := hG
  rw [List.flatten_append, List.append_assoc] at h
  have hT := List.append_cancel_left h
  cases T with
  | nil =>
    have := congrArg List.length hT
    simp only [List.flatten_nil, List.length_nil, List.length_append] at this
    omega
  | cons r T =>
    rw [List.flatten_cons] at hT
    have hr : r.length = got.length := (hR r (by simp)).trans hgot.symm
    rw [(List.append_inj hT hr).1]
    exact ⟨T, by simp⟩

/-! ## The invariant -/

variable {k : Nat} {s s' : Sys} {h : Hist}

/-- What is known of a process from its control point. -/
def Point (k : Nat) (s : Sys) (h : Hist) (p : Pid) : Ctl → Prop
  | .writeEnter n => n = k ∧ h.cur p = []
  | .writeAsleep n i | .writeWoken n i => n = k ∧ i = 0 ∧ h.cur p = []
  | .writeLoop n i _ => n = k ∧ i ≤ k ∧ (h.cur p).length = i ∧ k ∣ s.pi.size + (k - i) ∧
      s.written = h.records.flatten ++ h.cur p ∧ (0 < i → s.pi.readopen = true)
  | .readEnter n | .readAsleep n | .readWoken n => n = k
  | .readWait n => n = k ∧ k ∣ s.pi.size ∧ s.written = h.records.flatten
  | .readCopy n got => n = k ∧ got.length ≤ k ∧ k ∣ s.pi.size + got.length ∧
      s.written = h.records.flatten ∧ (s.pi.size + got.length = 0 → s.pi.writeopen = false)
  | .closeHeld _ => k ∣ s.pi.size ∧ s.written = h.records.flatten
  | _ => True

/-- What the observer has seen fits the state. -/
structure Whole (k : Nat) (s : Sys) (h : Hist) : Prop where
  books : Books 0 s
  alive : ∀ p, s.killed p = false
  point : ∀ p, Point k s h p (s.ctl p)
  unlocked : s.lock = none → k ∣ s.pi.size ∧ s.written = h.records.flatten
  length : ∀ r ∈ h.records, r.length = k
  replies : ∀ r ∈ h.replies,
    (r.ret = k ∧ r.got.length = k) ∨ (r.ret = 0 ∧ r.got = [] ∧ r.drained = true)
  reported : s.reported = (h.replies.map Reply.got).flatten
  inOrder : (h.replies.map Reply.got).filter (· ≠ []) <+: h.records

theorem whole_init (data : Fin PIPESIZE → UInt8) : Whole k (init data) .init where
  books := books_init data
  alive _ := rfl
  point _ := trivial
  unlocked _ := by
    have hz : (init data).pi.size = 0 := Lib.Ring.count_self (UInt32.toNat_lt _)
    rw [hz]
    exact ⟨Nat.dvd_zero k, rfl⟩
  length := nofun
  replies := nofun
  reported := rfl
  inOrder := List.nil_prefix

/-- Outside of critical sections a process knows what it has stored itself. -/
theorem Point.frame {p : Pid} {c : Ctl} {h' : Hist} (hp : Point k s h p c) (hc : c.holds = false)
    (hcur : h'.cur p = h.cur p) : Point k s' h' p c := by
  have he : Point k s' h' p c = Point k s h p c := by
    cases c <;> first | (simp only [Point, hcur]; done) | simp [Ctl.holds] at hc
  exact he ▸ hp

theorem Point.wake {p : Pid} {c : Ctl} (hp : Point k s h p c) : Point k s h p c.wake := by
  cases c <;> exact hp

/-- The ring and the books of the observer are as before. -/
theorem Point.quiet {p : Pid} {c : Ctl} {h' : Hist} (hp : Point k s h p c) (hpi : s'.pi = s.pi)
    (hw : s'.written = s.written) (hr : h'.records = h.records) (hcur : h'.cur p = h.cur p) :
    Point k s' h' p c := by
  have he : Point k s' h' p c = Point k s h p c := by
    cases c <;> simp only [Point, hpi, hw, hr, hcur]
  exact he ▸ hp

/-- Processes other than the holder of the lock are outside of critical sections. -/
theorem Whole.others {h' : Hist} (hw : Whole k s h) {p q : Pid} (hp : (s.ctl p).holds = true)
    (hq : q ≠ p) (hcur : h'.cur q = h.cur q) : Point k s' h' q (s.ctl q) := by
  refine (hw.point q).frame ?_ hcur
  by_contra hc
  have hlock := (hw.books.locked q).mp (by simpa using hc)
  rw [(hw.books.locked p).mp hp] at hlock
  exact hq (Option.some.inj hlock).symm

/-- The points of all processes once the holder `p` of the lock has moved. -/
theorem Whole.points {h' : Hist} (hw : Whole k s h) {p : Pid} {c : Ctl} {ctl : Pid → Ctl}
    (hp : (s.ctl p).holds = true) (hctl : ∀ q, ctl q = s.ctl q ∨ ctl q = (s.ctl q).wake)
    (hcur : ∀ q ≠ p, h'.cur q = h.cur q) (hc : Point k s' h' p c) (q : Pid) :
    Point k s' h' q (update ctl p c q) := by
  by_cases hq : q = p
  · subst hq
    rw [update_self]
    exact hc
  · have ho : Point k s' _ q (s.ctl q) := hw.others hp hq (hcur q hq)
    rw [update_of_ne hq]
    rcases hctl q with he | he
    · rw [he]
      exact ho
    · rw [he]
      exact ho.wake

theorem wakeup_or (ch : Chan) (ctl : Pid → Ctl) (q : Pid) :
    wakeup ch ctl q = ctl q ∨ wakeup ch ctl q = (ctl q).wake := by
  unfold wakeup
  split
  · exact .inr rfl
  · exact .inl rfl

theorem Pipe.size_of_full {pi : Pipe} (h : pi.full = true) : pi.size = PIPESIZE := by
  have hw : pi.nwrite.toNat = (pi.nread.toNat + PIPESIZE) % 2 ^ 32 := by
    simp only [Pipe.full, beq_iff_eq] at h
    rw [h, UInt32.toNat_add]
    rfl
  have hr := pi.nread.toNat_lt
  have hP : PIPESIZE = 512 := rfl
  rw [Pipe.size, Lib.Ring.count, hw, hP]
  omega

/-- A step that ends no call that has moved bytes. -/
theorem Whole.keep {h' : Hist} (hw : Whole k s h) (hb : Books 0 s') (hkl : s'.killed = s.killed)
    (hrep : s'.reported = s.reported) (hr : h'.records = h.records) (ha : h'.replies = h.replies)
    (hpoint : ∀ q, Point k s' h' q (s'.ctl q))
    (hfree : s'.lock = none → k ∣ s'.pi.size ∧ s'.written = h.records.flatten) :
    Whole k s' h' where
  books := hb
  alive := by
    rw [hkl]
    exact hw.alive
  point := hpoint
  unlocked := by
    rw [hr]
    exact hfree
  length := by
    rw [hr]
    exact hw.length
  replies := by
    rw [ha]
    exact hw.replies
  reported := by
    rw [hrep, ha]
    exact hw.reported
  inOrder := by
    rw [hr, ha]
    exact hw.inOrder

theorem store_records (a : Act) : (h.store a).records = h.records := by
  unfold Hist.store
  split <;> rfl

theorem store_replies (a : Act) : (h.store a).replies = h.replies := by
  unfold Hist.store
  split <;> rfl

theorem whole_call (hw : Whole k s h) {p : Pid} {c : Call} (hu : Uses k (.call p c))
    (hc : s.ctl p = .idle ∨ ∃ r, s.ctl p = .returned r) (hb : Books 0 (s.goto p (enter c))) :
    Whole k (s.goto p (enter c)) (h.store (.call p c)) := by
  have hcur : ∀ q ≠ p, (h.store (.call p c)).cur q = h.cur q := by
    intro q hq
    cases c <;> first | rfl | exact update_of_ne hq ..
  refine hw.keep hb rfl rfl (store_records _) (store_replies _) ?_ hw.unlocked
  intro q
  by_cases hq : q = p
  · subst hq
    rw [goto_ctl, update_self]
    cases c with
    | pipewrite n => exact ⟨hu, update_self ..⟩
    | piperead n => exact hu
    | pipeclose w => trivial
  · rw [goto_ctl, update_of_ne hq]
    exact (hw.point q).quiet rfl rfl (store_records _) (hcur q hq)

theorem whole_acquire (hw : Whole k s h) {p : Pid} {c : Ctl} (hl : s.lock = none)
    (hc : (s.ctl p).locked = some c) (hb : Books 0 ((s.goto p c).hold p)) :
    Whole k ((s.goto p c).hold p) h := by
  obtain ⟨hsize, hwr⟩ := hw.unlocked hl
  have hstart : ∀ {n : Int} {q : Pid}, n = k → h.cur q = [] →
      Point k ((s.goto p c).hold p) h q (.writeLoop n 0 0) := by
    intro n q hn hcur
    refine ⟨hn, Nat.zero_le _, by rw [hcur]; rfl, Nat.dvd_add hsize (Nat.dvd_refl k), ?_, nofun⟩
    rw [hcur, List.append_nil]
    exact hwr
  refine hw.keep hb rfl rfl rfl rfl ?_ nofun
  intro q
  rw [hold_ctl, goto_ctl]
  by_cases hq : q = p
  · subst hq
    rw [update_self]
    have hp := hw.point q
    cases he : s.ctl q <;> rw [he] at hp hc <;> simp only [Ctl.locked, reduceCtorEq,
      Option.some.injEq] at hc <;> subst hc
    · exact hstart hp.1 hp.2
    · obtain ⟨hn, rfl, hcur⟩ := hp
      exact hstart hn hcur
    · exact ⟨hp, hsize, hwr⟩
    · exact ⟨hp, hsize, hwr⟩
    · exact ⟨hsize, hwr⟩
  · rw [update_of_ne hq]
    exact (hw.point q).quiet rfl rfl rfl rfl

theorem whole_writeByte (hw : Whole k s h) {p : Pid} {n : Int} {i i0 : Nat} {c : UInt8}
    (hc : s.ctl p = .writeLoop n i i0) (hr : s.pi.readopen = true) (hf : s.pi.full = false)
    (hi : i < n)
    (hb : Books 0 ((s.goto p (.writeLoop n (i + 1) i0)).push c)) :
    Whole k ((s.goto p (.writeLoop n (i + 1) i0)).push c) (h.store (.write p (some c))) := by
  have hroom : s.pi.size < PIPESIZE := by
    refine lt_of_le_of_ne hw.books.fits fun he => ?_
    rw [Pipe.full_of_size he] at hf
    exact nomatch hf
  have hp := hw.point p
  rw [hc] at hp
  obtain ⟨hn, hik, hlen, hdvd, hwr, -⟩ := hp
  have hlt : i < k := by omega
  have hholds : (s.ctl p).holds = true := by rw [hc]; rfl
  refine hw.keep hb rfl rfl rfl rfl ?_ ?_
  · refine hw.points hholds (fun q => .inl rfl) (fun q hq => update_of_ne hq ..) ?_
    change n = k ∧ i + 1 ≤ k ∧ (update h.cur p (h.cur p ++ [c]) p).length = i + 1 ∧
      k ∣ (s.pi.push c).size + (k - (i + 1)) ∧
      s.written ++ [c] = h.records.flatten ++ update h.cur p (h.cur p ++ [c]) p ∧
      (0 < i + 1 → s.pi.readopen = true)
    rw [update_self, Pipe.size_push c hroom, List.length_append, hlen, hwr,
      List.append_assoc]
    refine ⟨hn, hlt, rfl, ?_, rfl, fun _ => hr⟩
    rwa [show s.pi.size + 1 + (k - (i + 1)) = s.pi.size + (k - i) by omega]
  · intro hl
    have : s.lock = some p := (hw.books.locked p).mp hholds
    exact nomatch this.symm.trans hl

/-- A process that has stored nothing leaves its critical section. -/
theorem whole_leave (hw : Whole k s h) {p : Pid} {c : Ctl} {ctl : Pid → Ctl}
    (hp : (s.ctl p).holds = true) (hctl : ∀ q, ctl q = s.ctl q ∨ ctl q = (s.ctl q).wake)
    (hs' : s'.ctl = update ctl p c) (hb : Books 0 s') (hkl : s'.killed = s.killed)
    (hrep : s'.reported = s.reported) (hc : Point k s' h p c) (hsize : k ∣ s'.pi.size)
    (hwr : s'.written = h.records.flatten) : Whole k s' h := by
  refine hw.keep hb hkl hrep rfl rfl ?_ fun _ => ⟨hsize, hwr⟩
  rw [hs']
  exact hw.points hp hctl (fun _ _ => rfl) hc

/-- The record of a `pipewrite` that has just begun. -/
theorem Point.begun {p : Pid} {n : Int} {i0 : Nat} (hp : Point k s h p (.writeLoop n 0 i0)) :
    h.cur p = [] ∧ k ∣ s.pi.size ∧ s.written = h.records.flatten := by
  obtain ⟨-, -, hlen, hdvd, hwr, -⟩ := hp
  have hnil := List.length_eq_zero_iff.mp hlen
  rw [hnil, List.append_nil] at hwr
  exact ⟨hnil, (Nat.dvd_add_left (Nat.dvd_refl k)).mp hdvd, hwr⟩

theorem whole_writeAbort (hw : Whole k s h) {p : Pid} {n : Int} {i i0 : Nat}
    (hc : s.ctl p = .writeLoop n i i0) (ha : s.pi.readopen = false)
    (hb : Books 0 (s.goto p (.returned (-1))).release) :
    Whole k (s.goto p (.returned (-1))).release
      (h.leave p s.drained (.writeLoop n i i0) (.returned (-1))) := by
  have hp := hw.point p
  rw [hc] at hp
  -- the reader's side cannot have been closed within the critical section
  obtain rfl : i = 0 := by
    by_contra h0
    rw [hp.2.2.2.2.2 (Nat.pos_of_ne_zero h0)] at ha
    exact nomatch ha
  obtain ⟨hnil, hsize, hwr⟩ := hp.begun
  have hsame : h.leave p s.drained (.writeLoop n 0 i0) (.returned (-1)) = h := if_pos hnil
  rw [hsame]
  exact whole_leave hw (by rw [hc]; rfl) (fun _ => .inl rfl) rfl hb rfl rfl trivial hsize hwr

theorem whole_writeSleep (hk : k ∣ PIPESIZE) (hw : Whole k s h) {p : Pid} {n : Int} {i i0 : Nat}
    (hc : s.ctl p = .writeLoop n i i0) (hf : s.pi.full = true) (hi : i < n)
    (hb : Books 0 ((s.wakeup .nread).goto p (.writeAsleep n i)).release) :
    Whole k ((s.wakeup .nread).goto p (.writeAsleep n i)).release h := by
  have hp := hw.point p
  rw [hc] at hp
  -- a full ring holds whole records only, so this one has not begun
  obtain rfl : i = 0 := by
    obtain ⟨hn, -, -, hdvd, -⟩ := hp
    rw [Pipe.size_of_full hf, Nat.dvd_add_right hk] at hdvd
    have := Nat.le_of_dvd (by omega) hdvd
    omega
  obtain ⟨hnil, hsize, hwr⟩ := hp.begun
  exact whole_leave hw (by rw [hc]; rfl) (wakeup_or .nread s.ctl) rfl hb rfl rfl
    ⟨hp.1, rfl, hnil⟩ hsize hwr

theorem whole_writeDone (hk : 0 < k) (hw : Whole k s h) {p : Pid} {n : Int} {i i0 : Nat}
    (hc : s.ctl p = .writeLoop n i i0) (hi : ¬i < n) (hb : Books 0 (writeDone s p i)) :
    Whole k (writeDone s p i) (h.leave p s.drained (.writeLoop n i i0) (.returned i)) := by
  have hp := hw.point p
  rw [hc] at hp
  obtain ⟨hn, hik, hlen, hdvd, hwr, -⟩ := hp
  obtain rfl : i = k := by omega
  rw [Nat.sub_self, Nat.add_zero] at hdvd
  have hne : h.cur p ≠ [] := by
    intro h0
    rw [h0] at hlen
    exact hk.ne hlen
  have hrec : h.leave p s.drained (.writeLoop n i i0) (.returned i) =
      { h with records := h.records ++ [h.cur p] } := if_neg hne
  have hflat : s.written = (h.records ++ [h.cur p]).flatten := by
    rw [hwr]
    simp
  rw [hrec]
  refine ⟨hb, hw.alive, ?_, fun _ => ⟨hdvd, hflat⟩, ?_, hw.replies, hw.reported, ?_⟩
  · exact hw.points (by rw [hc]; rfl) (wakeup_or .nread s.ctl) (fun _ _ => rfl) trivial
  · intro r hr
    rcases List.mem_append.mp hr with hr | hr
    · exact hw.length r hr
    · rw [List.mem_singleton.mp hr]
      exact hlen
  · exact hw.inOrder.trans (List.prefix_append ..)

theorem whole_waitDone (hw : Whole k s h) {p : Pid} {n : Int} (hc : s.ctl p = .readWait n)
    (hg : s.pi.empty = true → s.pi.writeopen = false)
    (hb : Books 0 (s.goto p (.readCopy n []))) : Whole k (s.goto p (.readCopy n [])) h := by
  have hp := hw.point p
  rw [hc] at hp
  obtain ⟨hn, hsize, hwr⟩ := hp
  have hholds : (s.ctl p).holds = true := by rw [hc]; rfl
  refine hw.keep hb rfl rfl rfl rfl ?_ ?_
  · refine hw.points hholds (fun _ => .inl rfl) (fun _ _ => rfl) ?_
    exact ⟨hn, Nat.zero_le _, hsize, hwr, fun h0 => hg ((Pipe.empty_iff _).mpr h0)⟩
  · exact fun _ => ⟨hsize, hwr⟩

theorem whole_readByte (hw : Whole k s h) {p : Pid} {n : Int} {got : List UInt8}
    (hc : s.ctl p = .readCopy n got) (he : s.pi.empty = false) (hn : got.length < n)
    (hb : Books 0 (s.goto p (.readCopy n (got ++ [s.pi.front]))).pop) :
    Whole k (s.goto p (.readCopy n (got ++ [s.pi.front]))).pop h := by
  have hp := hw.point p
  rw [hc] at hp
  obtain ⟨hnk, -, hsize, hwr, -⟩ := hp
  have hpop := Pipe.size_pop (Pipe.size_ne_zero he)
  have hholds : (s.ctl p).holds = true := by rw [hc]; rfl
  refine hw.keep hb rfl rfl rfl rfl ?_ ?_
  · refine hw.points hholds (fun _ => .inl rfl) (fun _ _ => rfl) ?_
    change n = k ∧ (got ++ [s.pi.front]).length ≤ k ∧
      k ∣ s.pi.pop.size + (got ++ [s.pi.front]).length ∧ s.written = h.records.flatten ∧ _
    rw [List.length_append, List.length_singleton]
    refine ⟨hnk, by omega, ?_, hwr, fun h0 => nomatch h0⟩
    rwa [show s.pi.pop.size + (got.length + 1) = s.pi.size + got.length by omega]
  · intro hl
    have : s.lock = some p := (hw.books.locked p).mp hholds
    exact nomatch this.symm.trans hl

theorem whole_readEnd (hk : 0 < k) (hw : Whole k s h) {p : Pid} {n : Int} {got : List UInt8}
    (hc : s.ctl p = .readCopy n got) (hg : got.length < n → s.pi.empty = true)
    (hb : Books 0 (readDone s p got)) :
    Whole k (readDone s p got)
      (h.leave p s.drained (.readCopy n got) (.returned got.length)) := by
  have hp := hw.point p
  rw [hc] at hp
  obtain ⟨hnk, hle, hsize, hwr, hdone⟩ := hp
  have hholds : (s.ctl p).holds = true := by rw [hc]; rfl
  have htransit : transit s = got := by
    rw [transit_holder ((hw.books.locked p).mp hholds), hc]
    rfl
  have hexact := hw.books.exact_of rfl
  rw [htransit, hw.reported, hwr] at hexact
  -- less than a record is left only if nothing is
  have hcase : got.length = k ∨ (got = [] ∧ s.drained = true) := by
    by_cases hlt : got.length < k
    · have hempty := hg (by omega)
      have h0 := (Pipe.empty_iff _).mp hempty
      rw [h0, Nat.zero_add] at hsize
      have hnil := List.length_eq_zero_iff.mp (Nat.eq_zero_of_dvd_of_lt hsize hlt)
      rw [h0, hnil] at hdone
      refine .inr ⟨hnil, ?_⟩
      rw [Sys.drained, hempty, hdone rfl]
      rfl
    · exact .inl (by omega)
  have hdvd : k ∣ s.pi.size := by
    rcases hcase with hlen | ⟨hnil, -⟩
    · rw [hlen] at hsize
      exact (Nat.dvd_add_left (Nat.dvd_refl k)).mp hsize
    · rwa [hnil] at hsize
  have hflat : ((h.replies.map Reply.got).filter (· ≠ [])).flatten =
      (h.replies.map Reply.got).flatten := List.flatten_filter_ne_nil
  change Whole k (readDone s p got)
    { h with replies := h.replies ++ [⟨got.length, got, s.drained⟩] }
  refine ⟨hb, hw.alive, ?_, fun _ => ⟨hdvd, hwr⟩, hw.length, ?_, ?_, ?_⟩
  · exact hw.points hholds (wakeup_or .nwrite s.ctl) (fun _ _ => rfl) trivial
  · intro r hr
    rcases List.mem_append.mp hr with hr | hr
    · exact hw.replies r hr
    · rw [List.mem_singleton.mp hr]
      rcases hcase with hlen | ⟨hnil, hdr⟩
      · exact .inl ⟨by rw [hlen], hlen⟩
      · exact .inr ⟨by rw [hnil]; rfl, hnil, hdr⟩
  · change s.reported ++ got = _
    rw [hw.reported]
    simp
  · change ((h.replies ++ [(⟨got.length, got, s.drained⟩ : Reply)]).map Reply.got).filter (· ≠ [])
      <+: _
    rw [List.map_append, List.filter_append]
    rcases hcase with hlen | ⟨hnil, -⟩
    · have hne : got ≠ [] := by
        rintro rfl
        exact hk.ne hlen
      have hone : ([(⟨got.length, got, s.drained⟩ : Reply)].map Reply.got).filter (· ≠ []) = [got] := by
        simp [hne]
      rw [hone]
      rw [← hflat] at hexact
      exact prefix_snoc hk hw.length hw.inOrder hlen hexact
    · have hone : ([(⟨got.length, got, s.drained⟩ : Reply)].map Reply.got).filter (· ≠ []) = [] := by
        simp [hnil]
      rw [hone, List.append_nil]
      exact hw.inOrder

theorem whole_close (hw : Whole k s h) {p : Pid} {w : Bool} (hc : s.ctl p = .closeHeld w)
    (hb : Books 0 (closeBody s p w)) : Whole k (closeBody s p w) h := by
  have hp := hw.point p
  rw [hc] at hp
  have hholds : (s.ctl p).holds = true := by rw [hc]; rfl
  cases w with
  | false => exact whole_leave hw hholds (wakeup_or .nwrite s.ctl) rfl hb rfl rfl trivial hp.1 hp.2
  | true => exact whole_leave hw hholds (wakeup_or .nread s.ctl) rfl hb rfl rfl trivial hp.1 hp.2

/-- What is observed of a move of `p` from `c` to `c'`. -/
theorem Whole.observed {p : Pid} {d : Bool} {c c' : Ctl} {ctl : Pid → Ctl} (hc : s.ctl p = c)
    (hs' : s'.ctl = update ctl p c') (hw : Whole k s' (h.leave p d c c')) :
    Whole k s' (h.leave p d (s.ctl p) (s'.ctl p)) := by
  rwa [hc, hs', update_self]

/-- A move that is no return. -/
theorem Whole.stays {p : Pid} {d : Bool} {c' : Ctl} {ctl : Pid → Ctl}
    (hs' : s'.ctl = update ctl p c') (hc : ∀ r, c' ≠ .returned r) (hw : Whole k s' h) :
    Whole k s' (h.leave p d (s.ctl p) (s'.ctl p)) := by
  refine Whole.observed rfl hs' ?_
  cases c' with
  | returned r => exact absurd rfl (hc r)
  | _ => cases s.ctl p <;> exact hw

theorem whole_moves (hk : k ∣ PIPESIZE) {a : Act} (hw : Whole k s h) (hu : Uses k a)
    (hm : Moves s a s') :
    Whole k s' ((h.store a).leave a.pid s.drained (s.ctl a.pid) (s'.ctl a.pid)) := by
  have hpos : 0 < k := Nat.pos_of_dvd_of_pos hk (by decide)
  have hb : Books 0 s' := by
    have := books_moves hw.books hm
    have hz : faults a = 0 := by
      cases a with
      | read p copied =>
        cases copied with
        | false => exact hu.elim
        | true => rfl
      | _ => rfl
    rwa [hz] at this
  cases hm with
  | call p c hc =>
    refine Whole.stays rfl ?_ (whole_call hw hu hc hb)
    cases c <;> simp [enter]
  | acquire p c hl hf hc =>
    refine Whole.stays rfl ?_ (whole_acquire hw hl hc hb)
    rintro r rfl
    cases he : s.ctl p <;> rw [he] at hc <;> simp [Ctl.locked] at hc
  | writeFault p n i i0 hc => exact hu.elim
  | writeByte p n i i0 c hc hr hkp hf hi =>
    exact Whole.stays rfl (by simp) (whole_writeByte hw hc hr hf hi hb)
  | writeAbort p n i i0 hc hi ha =>
    have hopen : s.pi.readopen = false := ha.resolve_right (by simp [hw.alive p])
    exact Whole.observed hc rfl (whole_writeAbort hw hc hopen hb)
  | writeSleep p n i i0 hc hr hf hi =>
    exact Whole.stays rfl (by simp) (whole_writeSleep hk hw hc hf hi hb)
  | writeDone p n i i0 hc hi => exact Whole.observed hc rfl (whole_writeDone hpos hw hc hi hb)
  | waitAbort p n hc hkp =>
    rw [hw.alive p] at hkp
    exact absurd hkp Bool.false_ne_true
  | waitSleep p n hc he hwo =>
    have hp := hw.point p
    rw [hc] at hp
    refine Whole.stays rfl (by simp) ?_
    exact whole_leave hw (by rw [hc]; rfl) (fun _ => .inl rfl) rfl hb rfl rfl hp.1 hp.2.1 hp.2.2
  | waitDone p n hc hg => exact Whole.stays rfl (by simp) (whole_waitDone hw hc hg hb)
  | readByte p n got hc he hn => exact Whole.stays rfl (by simp) (whole_readByte hw hc he hn hb)
  | readFault p n got hc he => exact hu.elim
  | readEnd p n got hc hg => exact Whole.observed hc rfl (whole_readEnd hpos hw hc hg hb)
  | close p w hc => cases w <;> exact Whole.observed hc rfl (whole_close hw hc hb)
  | kill p => exact hu.elim

theorem whole_run (hk : k ∣ PIPESIZE) {data : Fin PIPESIZE → UInt8} {acts : List Act}
    (hu : ∀ a ∈ acts, Uses k a) (hrun : Lib.run stepObs (init data, .init) acts = some (s, h)) :
    Whole k s h := by
  have hstep : ∀ (x : Sys × Hist) (a : Act) (y : Sys × Hist), Whole k x.1 x.2 → Uses k a →
      stepObs x a = some y → Whole k y.1 y.2 := by
    intro x a y hx ha hy
    obtain ⟨t, ht, rfl⟩ := Option.map_eq_some_iff.mp hy
    exact whole_moves hk hx ha (moves_of_step ht)
  have hall : Lib.Always stepObs (fun _ => Uses k) (init data, .init) acts :=
    Lib.always_of_forall hu _
  exact Lib.run_invariant_under (I := fun x : Sys × Hist => Whole k x.1 x.2) hstep
    (whole_init data) hall hrun

/-- If all calls move `k` bytes, every `piperead` returns the next record or, once the pipe is
empty and its write side closed, nothing. -/
theorem records_atomic (k : Nat) (hk : k ∣ PIPESIZE) (data : Fin PIPESIZE → UInt8)
    (acts : List Act) (hu : ∀ a ∈ acts, Uses k a) (s : Sys) (h : Hist)
    (hrun : Lib.run stepObs (init data, .init) acts = some (s, h)) :
    (∀ r ∈ h.records, r.length = k) ∧
      (∀ r ∈ h.replies, (r.ret = k ∧ r.got.length = k) ∨
        (r.ret = 0 ∧ r.got = [] ∧ r.drained = true)) ∧
      (h.replies.map Reply.got).filter (· ≠ []) <+: h.records ∧
      (s.lock = none → s.written = h.records.flatten) := by
  have hw := whole_run hk hu hrun
  exact ⟨hw.length, hw.replies, hw.inOrder, fun hl => (hw.unlocked hl).2⟩

/-- A record of two bytes goes through the pipe. -/
def pairRun : List Act :=
  [.call 0 (.pipewrite 2), .acquire 0, .write 0 (some 7), .write 0 (some 8), .writeTest 0,
    .call 1 (.piperead 2), .acquire 1, .waitTest 1, .read 1 true, .read 1 true, .readEnd 1]

theorem records_atomic_pairRun :
    ∃ s h, Lib.run stepObs (init fun _ => 0, .init) pairRun = some (s, h) ∧
      h.replies.map Reply.got = [[7, 8]] ∧
      (h.replies.map Reply.got).filter (· ≠ []) <+: h.records := by
  refine ⟨_, _, rfl, rfl, ?_⟩
  refine (records_atomic 2 (by decide) (fun _ => 0) pairRun ?_ _ _ rfl).2.2.1
  simp [pairRun, Uses]

end Xv6.Pipes
