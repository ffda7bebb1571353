import Xv6.Find.Complete

/-!
# The descriptors of `find_file`

`find_file` once more, now with the descriptor table of the process: `open` takes the lowest free
descriptor and fails if there is none, and `open` and `fstat` may also fail for reasons of the
kernel's own (`fails` says which calls). A run in which no call has failed prints what the model
without descriptors prints.
-/
namespace Xv6.Find.Descriptors

open Function

set_option autoImplicit false

def NOFILE : Nat := 16

/-- What a run depends on: besides the file system, the name to look for and the contents of the
arrays, which of the calls to the kernel fail. -/
structure Env where
  fs : Fs
  junk : Str → Str
  file : Str
  fails : Nat → Bool

structure Kern where
  /-- the descriptors that are open -/
  fd : Fin NOFILE → Bool
  /-- calls of `open` and `fstat` so far -/
  calls : Nat
  /-- one of them has failed though the path leads to an inode -/
  failed : Bool

/-- What is printed; `fstat` has a message of its own. -/
inductive Line where
  | of (m : Msg)
  | noStat (path : Str)
  deriving DecidableEq

abbrev Result := Option (List Line × Kern)

/-- `fdalloc` of `kernel/sysfile.c`. -/
def fdalloc (fd : Fin NOFILE → Bool) : Option (Fin NOFILE) :=
  (List.finRange NOFILE).find? fun f => !fd f

def openPath (env : Env) (path : Str) (k : Kern) : Option (Fin NOFILE × Nat) × Kern :=
  match env.fs.opens path with
  | none => (none, { k with calls := k.calls + 1 })
  | some i =>
    if env.fails k.calls then (none, { k with calls := k.calls + 1, failed := true })
    else
      match fdalloc k.fd with
      | none => (none, { k with calls := k.calls + 1, failed := true })
      | some f => (some (f, i), { k with fd := update k.fd f true, calls := k.calls + 1 })

def fstat (env : Env) (i : Nat) (k : Kern) : Option FileType × Kern :=
  if env.fails k.calls then (none, { k with calls := k.calls + 1, failed := true })
  else (some (env.fs.inode i).type, { k with calls := k.calls + 1 })

def close (f : Fin NOFILE) (k : Kern) : Kern := { k with fd := update k.fd f false }

/-- `stat` of `user/ulib.c`. -/
def stat (env : Env) (path : Str) (k : Kern) : Option FileType × Kern :=
  match openPath env path k with
  | (none, k) => (none, k)
  | (some (f, i), k) => ((fstat env i k).1, close f (fstat env i k).2)

/-- What the loop does with an entry whose path is in `buf` and whose name is at `p`. -/
def item (env : Env) (rec : Str → Kern → Result) (p : Nat) (buf : Str) (k : Kern) : Result :=
  match stat env (cstr buf) k with
  | (none, k) => some ([.of (.cannotStat (cstr buf))], k)
  | (some ty, k) =>
    if ty = .dir then
      if buf.getD p 0 ≠ dot ∧ buf.getD (p + 1) 0 ≠ dot then rec (cstr buf) k else some ([], k)
    else if cstr (buf.drop p) = env.file then some ([.of (.found (cstr buf))], k)
    else some ([], k)

/-- The loop over the entries; `rec` is the call of `find_file` itself. -/
def scan (env : Env) (rec : Str → Kern → Result) (p : Nat) : Str → List Dirent → Kern → Result
  | _, [], k => some ([], k)
  | buf, de :: es, k =>
    if de.inum = 0 then scan env rec p buf es k
    else
      (item env rec p (put buf p de.name) k).bind fun a =>
        (scan env rec p (put buf p de.name) es a.2).map fun b => (a.1 ++ b.1, b.2)

/-- `find_file(path, file)`, with at most `n` calls nested into each other. -/
def find_file (env : Env) : Nat → Str → Kern → Result
  | 0, _, _ => none
  | n + 1, path, k =>
    match openPath env path k with
    | (none, k) => some ([.of (.cannotOpen path)], k)
    | (some (f, i), k) =>
      match fstat env i k with
      | (none, k) => some ([.noStat path], close f k)
      | (some ty, k) =>
        if ty = .dir then
          let warn := if path.length + 1 + DIRSIZ + 1 > BUFSIZE then [Line.of .tooLong] else []
          let buf := put (env.junk path) 0 (path ++ [0])
          let p := (cstr buf).length
          let buf := put buf p [slash]
          -- the loop is followed by the end of the function: `fd` is not closed
          (scan env (find_file env n) (p + 1) buf (env.fs.inode i).entries k).map fun r =>
            (warn ++ r.1, r.2)
        else some ([], close f k)

/-! ## The system calls -/

variable {env : Env} {k k' : Kern} {path : Str} {f : Fin NOFILE} {i : Nat}

theorem fdalloc_some (h : fdalloc k.fd = some f) : k.fd f = false := by
  simpa using List.find?_some h

theorem fdalloc_none_iff (fd : Fin NOFILE → Bool) : fdalloc fd = none ↔ ∀ f, fd f = true := by
  simp [fdalloc]

/-- What a successful `open` has found and changed. -/
theorem openPath_some (h : openPath env path k = (some (f, i), k')) :
    env.fs.opens path = some i ∧ env.fails k.calls = false ∧ k.fd f = false ∧
      k' = ⟨update k.fd f true, k.calls + 1, k.failed⟩ := by
  rw [openPath] at h
  cases ho : env.fs.opens path with
  | none =>
    rw [ho] at h
    cases h
  | some j =>
    rw [ho] at h
    dsimp only at h
    split at h
    · cases h
    · rename_i hf
      cases hd : fdalloc k.fd with
      | none =>
        rw [hd] at h
        cases h
      | some g =>
        rw [hd] at h
        cases h
        exact ⟨rfl, by simpa using hf, fdalloc_some hd, rfl⟩

/-- And a failed one: nothing, and it is noted if the path was not the reason. -/
theorem openPath_none (h : openPath env path k = (none, k')) :
    k'.fd = k.fd ∧ k'.calls = k.calls + 1 ∧
      (env.fs.opens path = none ∧ k'.failed = k.failed ∨ k'.failed = true ∧
        (env.fails k.calls = true ∨ ∀ f, k.fd f = true)) := by
  rw [openPath] at h
  cases ho : env.fs.opens path with
  | none =>
    rw [ho] at h
    cases h
    exact ⟨rfl, rfl, .inl ⟨rfl, rfl⟩⟩
  | some j =>
    rw [ho] at h
    dsimp only at h
    split at h
    · rename_i hf
      cases h
      exact ⟨rfl, rfl, .inr ⟨rfl, .inl hf⟩⟩
    · cases hd : fdalloc k.fd with
      | none =>
        rw [hd] at h
        cases h
        exact ⟨rfl, rfl, .inr ⟨rfl, .inr ((fdalloc_none_iff _).mp hd)⟩⟩
      | some g =>
        rw [hd] at h
        cases h

theorem fstat_fd (env : Env) (i : Nat) (k : Kern) : (fstat env i k).2.fd = k.fd := by
  unfold fstat
  split <;> rfl

theorem fstat_some {ty : FileType} (h : fstat env i k = (some ty, k')) :
    env.fails k.calls = false ∧ ty = (env.fs.inode i).type ∧ k'.failed = k.failed := by
  unfold fstat at h
  split at h
  · cases h
  · rename_i hf
    cases h
    exact ⟨by simpa using hf, rfl, rfl⟩

theorem fstat_none (h : fstat env i k = (none, k')) : env.fails k.calls = true ∧ k'.failed = true := by
  unfold fstat at h
  split at h
  · rename_i hf
    cases h
    exact ⟨hf, rfl⟩
  · cases h

/-- A descriptor that was taken and is closed again leaves the table as it was. -/
theorem close_restores {fd : Fin NOFILE → Bool} (h : fd f = false) :
    update (update fd f true) f false = fd := by
  rw [update_idem, ← h, update_eq_self]

/-- `stat` gives its descriptor back. -/
theorem stat_fd (env : Env) (path : Str) (k : Kern) : (stat env path k).2.fd = k.fd := by
  unfold stat
  split
  · rename_i k1 ho
    exact (openPath_none ho).1
  · rename_i f i k1 ho
    obtain ⟨-, -, hfree, rfl⟩ := openPath_some ho
    change update (fstat env i _).2.fd f false = k.fd
    rw [fstat_fd]
    exact close_restores hfree

/-! ## Nothing that was open is closed -/

/-- What a part of a run can only add to. -/
structure Le (k k' : Kern) : Prop where
  fd : ∀ f, k.fd f = true → k'.fd f = true
  failed : k.failed = true → k'.failed = true

theorem Le.refl (k : Kern) : Le k k := ⟨fun _ h => h, fun h => h⟩

theorem Le.trans {k₁ k₂ k₃ : Kern} (h : Le k₁ k₂) (h' : Le k₂ k₃) : Le k₁ k₃ :=
  ⟨fun f hf => h'.fd f (h.fd f hf), fun hf => h'.failed (h.failed hf)⟩

theorem le_openPath (env : Env) (path : Str) (k : Kern) : Le k (openPath env path k).2 := by
  cases ho : openPath env path k with
  | mk r k1 =>
    cases r with
    | none =>
      obtain ⟨h1, -, h2⟩ := openPath_none ho
      refine ⟨fun f hf => by rwa [h1], fun hf => ?_⟩
      rcases h2 with ⟨-, h⟩ | ⟨h, -⟩
      · rwa [h]
      · exact h
    | some r =>
      obtain ⟨-, -, -, rfl⟩ := openPath_some ho
      refine ⟨fun g hg => ?_, fun hf => hf⟩
      by_cases h : g = r.1
      · rw [h]
        exact update_self ..
      · exact (update_of_ne h ..).trans hg

theorem le_fstat (env : Env) (i : Nat) (k : Kern) : Le k (fstat env i k).2 := by
  unfold fstat
  split
  · exact ⟨fun _ h => h, fun _ => rfl⟩
  · exact ⟨fun _ h => h, fun h => h⟩

theorem le_stat (env : Env) (path : Str) (k : Kern) : Le k (stat env path k).2 := by
  refine ⟨fun f hf => by rwa [stat_fd], fun hf => ?_⟩
  have h1 := (le_openPath env path k).failed hf
  unfold stat
  split
  · rename_i ho
    rwa [ho] at h1
  · rename_i f i k1 ho
    rw [ho] at h1
    exact (le_fstat env i k1).failed h1

variable {rec : Str → Kern → Result} {p : Nat} {buf : Str} {es : List Dirent} {r : List Line × Kern}

theorem le_item (hrec : ∀ q k r, rec q k = some r → Le k r.2) (h : item env rec p buf k = some r) :
    Le k r.2 := by
  have hstat := le_stat env (cstr buf) k
  unfold item at h
  split at h
  · rename_i k1 hs
    rw [hs] at hstat
    cases h
    exact hstat
  · rename_i ty k1 hs
    rw [hs] at hstat
    split at h
    · split at h
      · exact hstat.trans (hrec _ _ _ h)
      · cases h
        exact hstat
    · split at h <;> cases h <;> exact hstat

theorem le_scan (hrec : ∀ q k r, rec q k = some r → Le k r.2) (h : scan env rec p buf es k = some r) :
    Le k r.2 := by
  induction es generalizing buf k r with
  | nil =>
    cases h
    exact Le.refl k
  | cons de es ih =>
    rw [scan] at h
    split at h
    · exact ih h
    · obtain ⟨a, ha, hmap⟩ := Option.bind_eq_some_iff.mp h
      obtain ⟨b, hb, rfl⟩ := Option.map_eq_some_iff.mp hmap
      have hrest : Le a.2 b.2 := ih hb
      exact (le_item hrec ha).trans hrest

/-- The call for this path gets a descriptor for it, and finds it to be a directory. -/
def Enters (env : Env) (path : Str) (k : Kern) : Prop :=
  (∃ i, env.fs.opens path = some i ∧ (env.fs.inode i).type = .dir) ∧ (∃ f, k.fd f = false) ∧
    env.fails k.calls = false ∧ env.fails (k.calls + 1) = false

/-- A call that enters a directory keeps its descriptor to the end; any other call leaves the table as
it was. -/
theorem find_file_fd {n : Nat} (h : find_file env n path k = some r) :
    Le k r.2 ∧ (¬Enters env path k ∧ r.2.fd = k.fd ∨
      Enters env path k ∧ ∃ f, k.fd f = false ∧ r.2.fd f = true) := by
  induction n generalizing path k r with
  | zero => cases h
  | succ n ih =>
    have hle := le_openPath env path k
    rw [find_file] at h
    split at h
    · rename_i k1 ho
      rw [ho] at hle
      obtain ⟨hfd, -, hwhy⟩ := openPath_none ho
      cases h
      refine ⟨hle, .inl ⟨fun hen => ?_, hfd⟩⟩
      obtain ⟨⟨i, hi, -⟩, ⟨f, hf⟩, hok, -⟩ := hen
      rcases hwhy with ⟨hnone, -⟩ | ⟨-, hfail | hfull⟩
      · rw [hnone] at hi
        cases hi
      · rw [hfail] at hok
        cases hok
      · rw [hfull f] at hf
        cases hf
    · rename_i f i k1 ho
      have hfd := fstat_fd env i k1
      have hle1 := le_fstat env i k1
      rw [ho] at hle
      obtain ⟨hpath, hok, hfree, hk1⟩ := openPath_some ho
      have hcalls : k1.calls = k.calls + 1 := by rw [hk1]
      have hclosed : ∀ k2 : Kern, k2.fd = k1.fd → (close f k2).fd = k.fd := by
        intro k2 h2
        change update k2.fd f false = k.fd
        rw [h2, hk1]
        exact close_restores hfree
      split at h
      · rename_i k2 hs
        rw [hs] at hfd hle1
        have hfail := (fstat_none hs).1
        rw [hcalls] at hfail
        cases h
        refine ⟨⟨fun g hg => ?_, fun hf => hle1.failed (hle.failed hf)⟩,
          .inl ⟨fun hen => ?_, hclosed k2 hfd⟩⟩
        · rwa [hclosed k2 hfd]
        · rw [hen.2.2.2] at hfail
          cases hfail
      · rename_i ty k2 hs
        rw [hs] at hfd hle1
        obtain ⟨hok1, hty, -⟩ := fstat_some hs
        rw [hcalls] at hok1
        split at h
        · rename_i hdir
          obtain ⟨r', hr, rfl⟩ := Option.map_eq_some_iff.mp h
          have hscan := le_scan (fun q k r hq => (ih hq).1) hr
          refine ⟨hle.trans (hle1.trans hscan), .inr ⟨?_, f, hfree, hscan.fd f ?_⟩⟩
          · exact ⟨⟨i, hpath, hty ▸ hdir⟩, ⟨f, hfree⟩, hok, hok1⟩
          · rw [hfd, hk1]
            exact update_self ..
        · rename_i hdir
          cases h
          refine ⟨⟨fun g hg => ?_, fun hf => hle1.failed (hle.failed hf)⟩,
            .inl ⟨fun hen => ?_, hclosed k2 hfd⟩⟩
          · rwa [hclosed k2 hfd]
          · obtain ⟨⟨j, hj, htype⟩, -⟩ := hen
            rw [hpath] at hj
            cases hj
            exact hdir (hty.trans htype)

/-! ## What is printed when no call fails -/

theorem stat_eq (env : Env) (path : Str) (k : Kern) (h : (stat env path k).2.failed = false) :
    (stat env path k).1 = (env.fs.opens path).map fun i => (env.fs.inode i).type := by
  unfold stat at h ⊢
  split
  · rename_i k1 ho
    rw [ho] at h
    rcases (openPath_none ho).2.2 with ⟨hnone, -⟩ | ⟨hf, -⟩
    · rw [hnone]
      rfl
    · rw [show k1.failed = false from h] at hf
      cases hf
  · rename_i f i k1 ho
    rw [ho] at h
    dsimp only at h
    rw [(openPath_some ho).1]
    cases hs : fstat env i k1 with
    | mk ty k2 =>
      rw [hs] at h
      cases ty with
      | none =>
        have hf := (fstat_none hs).2
        rw [show k2.failed = false from h] at hf
        cases hf
      | some ty => exact congrArg some (fstat_some hs).2.1

/-- If no call has failed, the lines are these messages. -/
def Prints (r : List Line × Kern) (out : Option (List Msg)) : Prop :=
  r.2.failed = false → ∃ ms, out = some ms ∧ r.1 = ms.map .of

theorem not_failed (h : Le k k') (hk : k'.failed = false) : k.failed = false := by
  by_contra hne
  have hf := h.failed (by simpa using hne)
  rw [hk] at hf
  cases hf

/-- What the loop of the model without descriptors does with an entry. -/
def branch (fs : Fs) (file : Str) (rec : Str → Option (List Msg)) (p : Nat) (buf : Str) :
    Option (List Msg) :=
  match fs.opens (cstr buf) with
  | none => some [Msg.cannotStat (cstr buf)]
  | some i =>
    if fs.isDir i then
      if buf.getD p 0 ≠ dot ∧ buf.getD (p + 1) 0 ≠ dot then rec (cstr buf) else some []
    else if cstr (buf.drop p) = file then some [.found (cstr buf)]
    else some []

theorem scan_cons (fs : Fs) (file : Str) (rec : Str → Option (List Msg)) (p : Nat) (buf : Str)
    (de : Dirent) (es : List Dirent) :
    Find.scan fs file rec p buf (de :: es) =
      if de.inum = 0 then Find.scan fs file rec p buf es
      else (branch fs file rec p (put buf p de.name)).bind fun a =>
        (Find.scan fs file rec p (put buf p de.name) es).map (a ++ ·) := rfl

variable {rec' : Str → Option (List Msg)}

/-- With no failed call the loop takes the branch that the path decides. -/
theorem item_prints (hle : ∀ q k r, rec q k = some r → Le k r.2)
    (hrec : ∀ q k r, rec q k = some r → Prints r (rec' q)) (h : item env rec p buf k = some r) :
    Prints r (branch env.fs env.file rec' p buf) := by
  intro hok
  have hstat := stat_eq env (cstr buf) k
  unfold item at h
  unfold branch
  cases hs : stat env (cstr buf) k with
  | mk ty k1 =>
    rw [hs] at h hstat
    cases ty with
    | none =>
      cases h
      have ho := (hstat hok).symm
      rw [Option.map_eq_none_iff] at ho
      rw [ho]
      exact ⟨_, rfl, rfl⟩
    | some ty =>
      dsimp only at h
      -- the branch that the type of the inode decides
      have hgo : k1.failed = false → ∃ i, env.fs.opens (cstr buf) = some i ∧
          (env.fs.isDir i = true ↔ ty = .dir) := by
        intro hk1
        obtain ⟨i, hi, hty⟩ := Option.map_eq_some_iff.mp (hstat hk1).symm
        exact ⟨i, hi, by rw [Fs.isDir, decide_eq_true_eq, hty]⟩
      split at h
      · rename_i hdir
        split at h
        · rename_i hname
          obtain ⟨i, hi, hd⟩ := hgo (not_failed (hle _ _ _ h) hok)
          rw [hi]
          dsimp only
          rw [if_pos (hd.mpr hdir), if_pos hname]
          exact hrec _ _ _ h hok
        · rename_i hname
          cases h
          obtain ⟨i, hi, hd⟩ := hgo hok
          rw [hi]
          dsimp only
          rw [if_pos (hd.mpr hdir), if_neg hname]
          exact ⟨[], rfl, rfl⟩
      · rename_i hdir
        split at h
        · rename_i hname
          cases h
          obtain ⟨i, hi, hd⟩ := hgo hok
          rw [hi]
          dsimp only
          rw [if_neg (mt hd.mp hdir), if_pos hname]
          exact ⟨_, rfl, rfl⟩
        · rename_i hname
          cases h
          obtain ⟨i, hi, hd⟩ := hgo hok
          rw [hi]
          dsimp only
          rw [if_neg (mt hd.mp hdir), if_neg hname]
          exact ⟨[], rfl, rfl⟩

theorem scan_prints (hle : ∀ q k r, rec q k = some r → Le k r.2)
    (hrec : ∀ q k r, rec q k = some r → Prints r (rec' q)) (h : scan env rec p buf es k = some r) :
    Prints r (Find.scan env.fs env.file rec' p buf es) := by
  induction es generalizing buf k r with
  | nil =>
    cases h
    exact fun _ => ⟨[], rfl, rfl⟩
  | cons de es ih =>
    rw [scan] at h
    rw [scan_cons]
    split at h
    · rename_i hfree
      rw [if_pos hfree]
      exact ih h
    · rename_i hfree
      rw [if_neg hfree]
      obtain ⟨a, ha, hmap⟩ := Option.bind_eq_some_iff.mp h
      obtain ⟨b, hb, rfl⟩ := Option.map_eq_some_iff.mp hmap
      intro hok
      obtain ⟨bs, hbs, hbl⟩ := ih hb hok
      obtain ⟨as, has, hal⟩ := item_prints hle hrec ha (not_failed (le_scan hle hb) hok)
      refine ⟨as ++ bs, ?_, ?_⟩
      · rw [has, Option.bind_some, hbs, Option.map_some]
      · rw [List.map_append, ← hal, ← hbl]

/-- A run in which no call has failed prints what `find_file` of the model without descriptors does. -/
theorem find_file_prints {n : Nat} (h : find_file env n path k = some r) :
    Prints r (Find.find_file env.fs env.junk env.file n path) := by
  induction n generalizing path k r with
  | zero => cases h
  | succ n ih =>
    intro hok
    rw [find_file] at h
    rw [Find.find_file]
    split at h
    · rename_i k1 ho
      cases h
      rcases (openPath_none ho).2.2 with ⟨hnone, -⟩ | ⟨hf, -⟩
      · rw [hnone]
        exact ⟨_, rfl, rfl⟩
      · rw [show k1.failed = false from hok] at hf
        cases hf
    · rename_i f i k1 ho
      rw [(openPath_some ho).1]
      dsimp only
      split at h
      · rename_i k2 hs
        cases h
        have hf := (fstat_none hs).2
        rw [show k2.failed = false from hok] at hf
        cases hf
      · rename_i ty k2 hs
        have hdir : env.fs.isDir i = true ↔ ty = .dir := by
          rw [Fs.isDir, decide_eq_true_eq, (fstat_some hs).2.1]
        split at h
        · rename_i hty
          rw [if_pos (hdir.mpr hty)]
          obtain ⟨b, hb, rfl⟩ := Option.map_eq_some_iff.mp h
          have hscan : Prints b (Find.scan env.fs env.file (Find.find_file env.fs env.junk env.file n)
              _ _ (env.fs.inode i).entries) :=
            scan_prints (fun q k r hq => (find_file_fd hq).1) (fun q k r hq => ih hq) hb
          obtain ⟨ms, hms, hl⟩ := hscan hok
          refine ⟨_, by rw [hms]; rfl, ?_⟩
          rw [hl, List.map_append]
          split <;> rfl
        · rename_i hty
          rw [if_neg (mt hdir.mp hty)]
          cases h
          exact ⟨[], rfl, rfl⟩

/-! ## Every call returns -/

theorem length_lt_of_opens {fs : Fs} (h : fs.opens path = some i) : path.length < MAXPATH := by
  rw [Fs.opens] at h
  split at h
  · assumption
  · cases h

/-- The loop returns if the calls it makes do: they are for paths below `path`. -/
theorem scan_total (env : Env) (hq : 0 ∉ path)
    (hrec : ∀ s k, 0 ∉ s → path.length < s.length → ∃ r, rec s k = some r)
    (hbuf : buf.take (path.length + 1) = path ++ [slash]) (es : List Dirent) (k : Kern) :
    ∃ r, scan env rec (path.length + 1) buf es k = some r := by
  induction es generalizing buf k with
  | nil => exact ⟨([], k), rfl⟩
  | cons de es ih =>
    rw [scan]
    split
    · exact ih hbuf k
    · have hlen : (path ++ [slash]).length = path.length + 1 := by simp
      have hput : put buf (path.length + 1) de.name = (path ++ [slash]) ++
          (de.name ++ buf.drop (path.length + 1 + de.name.length)) := by
        rw [put, hbuf, List.append_assoc]
      have hclean : 0 ∉ path ++ [slash] := by
        rw [List.mem_append, not_or]
        exact ⟨hq, by decide⟩
      have hitem : ∃ a, item env rec (path.length + 1) (put buf (path.length + 1) de.name) k = some a := by
        unfold item
        split
        · exact ⟨_, rfl⟩
        · split
          · split
            · refine hrec _ _ (zero_notMem_cstr _) ?_
              rw [hput, cstr_append hclean, List.length_append, hlen]
              omega
            · exact ⟨_, rfl⟩
          · split <;> exact ⟨_, rfl⟩
      obtain ⟨a, ha⟩ := hitem
      have hnext : (put buf (path.length + 1) de.name).take (path.length + 1) = path ++ [slash] := by
        rw [hput, ← hlen, List.take_left]
      obtain ⟨b, hb⟩ := ih hnext a.2
      exact ⟨(a.1 ++ b.1, b.2), by rw [ha, Option.bind_some, hb]; rfl⟩

/-- No path of `MAXPATH` bytes can be opened, so the calls are nested that deep at most. -/
theorem find_file_total (env : Env) {n : Nat} (hq : 0 ∉ path) (hn : MAXPATH < n + path.length) (hpos : 0 < n)
    (k : Kern) : ∃ r, find_file env n path k = some r := by
  induction n generalizing path k with
  | zero => exact absurd hpos (Nat.lt_irrefl 0)
  | succ n ih =>
    rw [find_file]
    split
    · exact ⟨_, rfl⟩
    · rename_i f i k1 ho
      have hlt := length_lt_of_opens (openPath_some ho).1
      split
      · exact ⟨_, rfl⟩
      · split
        · have hcopy : put (env.junk path) 0 (path ++ [0]) =
              path ++ 0 :: (env.junk path).drop (path.length + 1) := by
            simp [put]
          have hstr : cstr (put (env.junk path) 0 (path ++ [0])) = path := by
            rw [hcopy, cstr_append hq, cstr_cons, if_pos rfl, List.append_nil]
          simp only [hstr]
          rename_i k2 hs hdir
          have hbuf : (put (put (env.junk path) 0 (path ++ [0])) path.length [slash]).take
              (path.length + 1) = path ++ [slash] := by
            rw [hcopy, put, List.take_left, List.append_assoc, ← List.append_assoc]
            exact List.take_left' (by simp)
          obtain ⟨r, hr⟩ := scan_total env hq (fun s k hs hls => ih hs (by omega) (by omega) k) hbuf
            (env.fs.inode i).entries k2
          exact ⟨_, by rw [hr]; rfl⟩
        · exact ⟨_, rfl⟩

/-- `find_file` returns, and it returns with the descriptors open that were open when it was called
exactly if it could not enter the path as a directory. -/
theorem descriptors_kept_iff (env : Env) (path : Str) (k : Kern) (hq : 0 ∉ path) :
    ∃ r, find_file env (MAXPATH + 1) path k = some r ∧ (r.2.fd = k.fd ↔ ¬Enters env path k) := by
  obtain ⟨r, hr⟩ := find_file_total env hq (by omega : MAXPATH < MAXPATH + 1 + path.length)
    (Nat.succ_pos _) k
  refine ⟨r, hr, ?_⟩
  rcases (find_file_fd hr).2 with ⟨hno, hsame⟩ | ⟨hyes, f, hf, hf'⟩
  · exact ⟨fun _ => hno, fun _ => hsame⟩
  · refine ⟨fun hsame => ?_, fun hno => absurd hyes hno⟩
    rw [hsame, hf] at hf'
    cases hf'

/-- A name in a directory entry. -/
def entryName (c : UInt8) : Dirent := ⟨2, c :: List.replicate 13 0, rfl⟩

/-- The root has `n` entries `a`, `b`, .. for one and the same empty directory, and a file at inode 3
is in none of them. -/
def wideEnv (n : Nat) : Env where
  fs := {
    inode := fun i =>
      if i = 1 then ⟨.dir, (List.range n).map fun j => entryName (UInt8.ofNat (0x61 + j))⟩
      else if i = 2 then ⟨.dir, []⟩ else ⟨.file, []⟩
    cwd := 1 }
  junk _ := List.replicate 512 0
  file := [0x78]
  fails _ := false

/-- Standard input, output and error. -/
def standard : Kern := ⟨fun f => f.val < 3, 0, false⟩

/-- A path that is not there. -/
theorem descriptors_kept_iff_absent :
    ∃ r, find_file (wideEnv 1) (MAXPATH + 1) [0x7a] standard = some r ∧ r.2.fd = standard.fd := by
  obtain ⟨r, hr, hiff⟩ := descriptors_kept_iff (wideEnv 1) [0x7a] standard (by decide)
  refine ⟨r, hr, hiff.mpr fun hen => ?_⟩
  obtain ⟨⟨i, hi, -⟩, -⟩ := hen
  have hnone : (wideEnv 1).fs.opens [0x7a] = none := by decide
  rw [hnone] at hi
  cases hi

theorem find_file_prints_two : ∃ r ms, find_file (wideEnv 2) 3 [slash] standard = some r ∧
    Find.find_file (wideEnv 2).fs (wideEnv 2).junk [0x78] 3 [slash] = some ms ∧ r.1 = ms.map .of := by
  obtain ⟨r, hr, hok⟩ : ∃ r, find_file (wideEnv 2) 3 [slash] standard = some r ∧
      r.2.failed = false := ⟨_, rfl, rfl⟩
  obtain ⟨ms, hms, hprint⟩ := find_file_prints hr hok
  exact ⟨r, ms, hr, hms, hprint⟩

/-- `find /` over fourteen empty directories side by side: after the root and twelve of them no
descriptor is left, and the last two cannot be looked at. -/
theorem find_runs_out :
    (find_file (wideEnv 14) 3 [slash] standard).map
        (fun r => (r.1, (List.finRange NOFILE).all r.2.fd)) =
      some ([.of (.cannotStat [slash, slash, 0x6d]), .of (.cannotStat [slash, slash, 0x6e])], true) := by
  decide +kernel

end Xv6.Find.Descriptors
