import Xv6.Names.Files
import Xv6.Names.Create

/-!
# The system calls keep the references

Every call ends with the references that the files and processes have, whether it succeeds or
fails, and does not run out of inodes if the table has the entries that it takes on the way.
-/
namespace Xv6.Names

set_option autoImplicit false

open Lib.Hoare Function

section Calls

variable {w : World} {held : Held} {S : FileId → Nat} {f : FileId} {p : Pid} {ip : Id} {n : Nat}
  {E : Panic → Prop}

/-- The references when no call is in progress. -/
def Steady (w : World) : Prop := Inv 0 (slots w) w

theorem slots_congr {t : World} (h : t.proc = w.proc) : slots t = slots w := by
  unfold slots
  rw [h]

theorem Inv.steady {t : World} (h : Inv 0 (slots w) t) (hp : t.proc = w.proc) : Steady t := by
  unfold Steady
  rw [slots_congr hp]
  exact h

theorem Inv.steady_of_ofile {t : World} {x : Proc} (h : Inv 0 (slots w) t)
    (hp : t.proc = update w.proc p x) (hx : x.ofile = (w.proc p).ofile) : Steady t := by
  have hslots : slots t = slots w := by
    funext f
    have hrow := slots_setProc w p x f
    rw [hx] at hrow
    rw [← Nat.add_right_cancel hrow]
    exact congrFun (slots_congr hp) f
  unfold Steady
  rw [hslots]
  exact h

theorem wp_drop {α : Type} (a : α) (h : Inv ((ip, n) ::ₘ held) S w) :
    wp (iput ip >>= fun _ => pure a) (fun _ t => t.proc = w.proc ∧ Inv held S t) E w :=
  wp_call (wp_iput h.inodes) fun _ _ ht => ⟨ht.1.proc, h.next ht.1⟩

theorem wp_setKind {Q : PUnit → World → Prop} (f : FileId) (kind : Kind) :
    wp (setKind f kind) Q E w ↔
      Q () { w with ftable := update w.ftable f ⟨(w.ftable f).ref, kind⟩ } := Iff.rfl

/-- A descriptor changes. -/
theorem slots_withOfile {t : World} {fd : Fin NOFILE} {x : Option FileId}
    (hp : t.proc = update w.proc p ((w.proc p).withOfile fd x)) (g : FileId) :
    slots t g + one g ((w.proc p).ofile fd) = slots w g + one g x := by
  have ht : slots t = slots { w with
    proc := update w.proc p ((w.proc p).withOfile fd x) } := slots_congr hp
  rw [ht]
  exact slots_setOfile w p fd x g

theorem slots_alloc {t : World} {fd : Fin NOFILE} (hfree : (w.proc p).ofile fd = none)
    (hp : t.proc = update w.proc p ((w.proc p).withOfile fd (some f))) :
    slots t = bump (slots w) f := by
  funext g
  have hslots := slots_withOfile hp g
  rw [hfree, one_none, Nat.add_zero] at hslots
  rw [bump_apply]
  exact hslots

theorem slots_clear {t : World} {fd : Fin NOFILE} (hfd : (w.proc p).ofile fd = some f)
    (hp : t.proc = update w.proc p ((w.proc p).withOfile fd none)) :
    slots w = bump (slots t) f := by
  funext g
  have hslots := slots_withOfile hp g
  rw [hfd, one_none, Nat.add_zero] at hslots
  rw [bump_apply]
  exact hslots.symm

theorem wp_openFile (h : Inv ((ip, n) ::ₘ 0) (slots w) w) (hlive : (w.proc p).state = .live)
    (i : Inode) (omode : Nat) : wp (openFile p ip i omode) (fun _ t => Steady t) E w := by
  unfold openFile
  apply wp_call (wp_filealloc h)
  intro r t ht
  obtain ⟨htp, ⟨rfl, ht⟩ | ⟨f, rfl, hzero, hkind, ht⟩⟩ := ht
  · exact wp_mono (fun _ u hu => hu.2.steady (hu.1.trans htp)) (fun _ he => he) (wp_drop none ht)
  · dsimp only
    apply wp_call (wp_fdalloc ht (by rw [htp]; exact hlive) f)
    intro r u hu
    obtain ⟨hu, huf, ⟨rfl, hup⟩ | ⟨fd, rfl, hfree, hup⟩⟩ := hu
    · dsimp only
      apply wp_call (wp_fileclose hu)
      intro _ v hv
      apply wp_mono _ (fun _ he => he) (wp_drop none hv.2)
      intro _ x hx
      exact hx.2.steady (hx.1.trans (hv.1.trans (hup.trans htp)))
    · dsimp only
      have hslots : slots u = bump (slots w) f := by
        rw [slots_alloc hfree hup, slots_congr htp]
      have hset : ∀ kind : Kind, kind.holds = some ip → Steady
          { u with ftable := update u.ftable f ⟨(u.ftable f).ref, kind⟩ } := by
        intro kind hk
        rw [← hslots] at hu
        refine hu.setKind ?_ (by rw [huf, hkind]; exact h.closed f hzero) hk
        rw [hslots, bump_apply, one_self]
        exact Nat.succ_ne_zero _
      rw [wp_bind, wp_setKind]
      have hnew := hset (if i.type = .device then .device ip i.major else .inode ip) (by
        split
        · rfl
        · rfl)
      apply wp_ite
      · intro _
        rw [wp_bind, wp_get, wp_bind, wp_setInode]
        exact hnew.next (hnew.inodes.inode _)
      · intro _
        exact hnew

theorem wp_openInode (h : Inv ((ip, n) ::ₘ 0) (slots w) w) (hlive : (w.proc p).state = .live)
    (i : Inode) (omode : Nat) : wp (openInode p ip i omode) (fun _ t => Steady t) E w := by
  unfold openInode
  apply wp_ite
  · intro _
    exact wp_mono (fun _ u hu => hu.2.steady hu.1) (fun _ he => he) (wp_drop none h)
  · intro _
    exact wp_openFile h hlive i omode

theorem wp_sysOpen (h : Steady w) (hlive : (w.proc p).state = .live) (hE : Lax E)
    (path : List UInt8) (omode : Nat) (env : Env)
    (hroom : Room w (if omode &&& O_CREATE ≠ 0 then 2 else 1) ∨ E .noInodes) :
    wp (sysOpen p path omode env) (fun _ t => Steady t) E w := by
  unfold sysOpen
  apply wp_ite
  · intro hcreate
    rw [if_pos hcreate] at hroom
    apply wp_call (wp_create h.inodes (by simpa using hroom) hE p path _ _ _ env)
    intro r t ht
    obtain ⟨rfl, hat⟩ | ⟨ip, n, rfl, hat⟩ := ht
    · exact (h.next hat).steady hat.proc
    · have hinv := h.next hat
      rw [← slots_congr hat.proc] at hinv
      exact wp_openInode hinv (by rw [hat.proc]; exact hlive) _ omode
  · intro hcreate
    rw [if_neg hcreate] at hroom
    unfold namei
    apply wp_call (wp_namex false h.inodes (by simpa using hroom) (.inr (hE _ (by decide)))
      (.inr (hE _ (by decide))) path _)
    intro r t ht
    obtain ⟨m, ⟨rfl, -, hat⟩ | ⟨ip, name, n, rfl, -, hat⟩, -⟩ := ht
    · exact (h.next hat).steady hat.proc
    · dsimp only
      apply wp_call (wp_ilock hat (Multiset.mem_cons_self _ _) (.inr (hE _ (by decide))))
      intro i u hu
      have hinv := h.next hu.2.1
      rw [← slots_congr hu.2.1.proc] at hinv
      apply wp_ite
      · intro _
        exact wp_mono (fun _ v hv => hv.2.steady hv.1) (fun _ he => he) (wp_drop none hinv)
      · intro _
        exact wp_openInode hinv (by rw [hu.2.1.proc]; exact hlive) i omode

theorem wp_sysMake (h : Steady w) (hE : Lax E) (hroom : Room w 2 ∨ E .noInodes) (p : Pid)
    (path : List UInt8) (type : Ty) (major minor : Int) (env : Env) :
    wp (sysMake p path type major minor env) (fun _ t => Steady t) E w := by
  unfold sysMake
  apply wp_call (wp_create h.inodes (by simpa using hroom) hE p path type major minor env)
  intro r t ht
  obtain ⟨rfl, hat⟩ | ⟨ip, n, rfl, hat⟩ := ht
  · exact (h.next hat).steady hat.proc
  · exact wp_mono (fun _ u hu => hu.2.steady (hu.1.trans hat.proc)) (fun _ he => he)
      (wp_drop _ (h.next hat))

/-- `iput` does not look at the processes. -/
theorem wp_iput_frame (P : Pid → Proc) {Q : PUnit → World → Prop}
    (h : wp (iput ip) Q E { w with proc := P }) :
    wp (iput ip) (fun a t => t.proc = w.proc ∧ Q a { t with proc := P }) E w := by
  unfold iput at h ⊢
  rw [wp_bind, wp_get] at h ⊢
  dsimp only at h ⊢
  split at h
  · next hlast =>
    rw [if_pos hlast]
    exact ⟨rfl, h⟩
  · next hlast =>
    rw [if_neg hlast]
    exact ⟨rfl, h⟩

/-- The process without a current directory. -/
def Proc.noCwd (x : Proc) : Proc := { x with cwd := none }

/-- The reference of `p->cwd` is given back before the pointer changes. -/
theorem wp_iput_cwd (h : Inv held S w) (hlive : (w.proc p).state = .live) {cwd : Id}
    (hcwd : (w.proc p).cwd = some cwd) :
    wp (iput cwd) (fun _ t => t.proc = w.proc ∧
      Inv held S { t with proc := update w.proc p (w.proc p).noCwd }) E w := by
  have hinv : Inv ((cwd, (w.itable cwd).inum) ::ₘ held) S
      { w with proc := update w.proc p (w.proc p).noCwd } := by
    apply h.setProc ((cwd, (w.itable cwd).inum) ::ₘ held)
    · intro jp
      rw [refs_cons, hcwd, Proc.noCwd, one_none]
      omega
    · intro y hy
      exact (Multiset.mem_cons.mp hy).symm.imp_right fun hy => by rw [hy]
    · intro hne
      exact absurd hlive hne
  apply wp_iput_frame
  apply wp_mono _ (fun _ he => he) (wp_iput hinv.inodes)
  intro _ t ht
  exact hinv.next ht.1

/-- A process without a current directory changes. -/
theorem Inv.setCwd {P : Pid → Proc}
    (h : Inv held S { w with proc := update P p (P p).noCwd }) (held' : Held) (x : Proc)
    (hrefs : ∀ jp, one jp x.cwd + held'.refs jp = held.refs jp) (hkeys : ∀ y ∈ held', y ∈ held)
    (hidle : x.state ≠ .live → x.cwd = none ∧ x.ofile = fun _ => none) :
    Inv held' S { w with proc := update P p x } := by
  have hset := h.setProc (p := p) held' x
    (fun jp => by
      dsimp only
      rw [hrefs, update_self, Proc.noCwd, one_none, Nat.zero_add])
    (fun y hy => .inl (hkeys y hy)) hidle
  rwa [update_idem] at hset

theorem wp_setProc {Q : PUnit → World → Prop} (p : Pid) (x : Proc) :
    wp (setProc p x) Q E w ↔ Q () { w with proc := update w.proc p x } := Iff.rfl

theorem wp_sysChdir (h : Steady w) (hlive : (w.proc p).state = .live) (hE : Lax E)
    (hroom : Room w 1 ∨ E .noInodes) (path : List UInt8) (env : Env) :
    wp (sysChdir p path env) (fun _ t => Steady t) E w := by
  unfold sysChdir namei
  apply wp_call (wp_namex false h.inodes (by simpa using hroom) (.inr (hE _ (by decide)))
    (.inr (hE _ (by decide))) path _)
  intro r t ht
  obtain ⟨m, ⟨rfl, -, hat⟩ | ⟨ip, name, n, rfl, -, hat⟩, -⟩ := ht
  · exact (h.next hat).steady hat.proc
  · dsimp only
    apply wp_call (wp_ilock hat (Multiset.mem_cons_self _ _) (.inr (hE _ (by decide))))
    intro i t ht
    obtain ⟨-, hat, -⟩ := ht
    have hinv := h.next hat
    apply wp_ite
    · intro _
      exact wp_mono (fun _ u hu => hu.2.steady (hu.1.trans hat.proc)) (fun _ he => he)
        (wp_drop none hinv)
    · intro _
      rw [wp_bind, wp_get]
      cases hcwd : (t.proc p).cwd with
      | none => exact hE _ (by decide)
      | some cwd =>
        -- The reference of `p->cwd` goes to the call, and the one to `ip` to the process.
        have hlive' : (t.proc p).state = .live := by rw [hat.proc]; exact hlive
        apply wp_call (wp_iput_cwd hinv hlive' hcwd)
        intro _ u hu
        rw [wp_bind, wp_get, wp_bind, wp_setProc, hu.1]
        have hset := hu.2.setCwd 0 { t.proc p with cwd := some ip }
          (fun jp => by rw [refs_cons, Nat.add_comm]) (fun y hy => Multiset.mem_cons_of_mem hy)
          (fun hne => absurd hlive' hne)
        rw [← slots_congr hat.proc] at hset
        exact hset.steady_of_ofile rfl rfl

theorem wp_sysDup (h : Steady w) (hlive : (w.proc p).state = .live) (fd : Nat) :
    wp (sysDup p fd) (fun _ t => Steady t) E w := by
  unfold sysDup
  rw [wp_bind, wp_get]
  by_cases hfd : fd < NOFILE
  · rw [dif_pos hfd]
    cases hf : (w.proc p).ofile ⟨fd, hfd⟩ with
    | none => exact h
    | some f =>
      dsimp only
      apply wp_call (wp_fdalloc h hlive f)
      intro r t ht
      obtain ⟨ht, -, ⟨rfl, hp⟩ | ⟨fd', rfl, hfree, hp⟩⟩ := ht
      · exact ht.steady hp
      · apply wp_call (wp_filedup ht (slots_ne_zero hf))
        intro _ u hu
        rw [← slots_alloc hfree hp] at hu
        exact hu.2.steady hu.1
  · rw [dif_neg hfd]
    exact h

theorem wp_sysClose (h : Steady w) (hlive : (w.proc p).state = .live) (fd : Nat) :
    wp (sysClose p fd) (fun _ t => Steady t) E w := by
  unfold sysClose
  rw [wp_bind, wp_get]
  by_cases hfd : fd < NOFILE
  · rw [dif_pos hfd]
    cases hf : (w.proc p).ofile ⟨fd, hfd⟩ with
    | none => exact h
    | some f =>
      dsimp only
      apply wp_call (wp_setOfile h hlive ⟨fd, hfd⟩ none)
      intro _ t ht
      rw [slots_clear hf ht.2] at ht
      apply wp_call (wp_fileclose ht.1)
      intro _ u hu
      exact hu.2.steady hu.1
  · rw [dif_neg hfd]
    exact h

theorem row_none (f : FileId) : row (fun _ => none) f = 0 :=
  Finset.sum_eq_zero fun _ _ => one_none f

theorem wp_dupFiles (h : Steady w) (p : Pid) :
    wp (dupFiles (w.proc p).ofile) (fun _ t => t.proc = w.proc ∧
      Inv 0 (fun f => slots w f + row (w.proc p).ofile f) t) E w := by
  -- The files of the descriptors that are left have still to get their references.
  refine wp_mono ?_ (fun _ he => he) (wp_forM
    (I := fun xs s => s.proc = w.proc ∧ ∃ S, Inv 0 S s ∧ (∀ f, slots w f ≤ S f) ∧
      ∀ f, S f + (xs.map fun fd => one f ((w.proc p).ofile fd)).sum =
        slots w f + row (w.proc p).ofile f)
    ?_ (List.finRange NOFILE)
    ⟨rfl, slots w, h, fun _ => Nat.le_refl _, fun f => by rw [row, Fin.sum_univ_def]⟩)
  · intro _ t ht
    obtain ⟨hp, S, hinv, -, hS⟩ := ht
    have hfun : S = fun f => slots w f + row (w.proc p).ofile f := by
      funext f
      have := hS f
      simpa using this
    rw [hfun] at hinv
    exact ⟨hp, hinv⟩
  · intro fd xs s hs
    obtain ⟨hp, S, hinv, hle, hS⟩ := hs
    cases hf : (w.proc p).ofile fd with
    | none =>
      refine ⟨hp, S, hinv, hle, fun f => ?_⟩
      have := hS f
      rw [List.map_cons, List.sum_cons, hf, one_none, Nat.zero_add] at this
      exact this
    | some f =>
      have hne : S f ≠ 0 := by
        have := slots_ne_zero hf
        have := hle f
        omega
      apply wp_mono _ (fun _ he => he) (wp_filedup hinv hne)
      intro _ t ht
      refine ⟨ht.1.trans hp, bump S f, ht.2, fun g => ?_, fun g => ?_⟩
      · have := hle g
        rw [bump_apply]
        omega
      · have := hS g
        rw [List.map_cons, List.sum_cons, hf] at this
        rw [bump_apply]
        omega

theorem wp_sysFork (h : Steady w) (hE : Lax E) (p : Pid) (memory : Bool) :
    wp (sysFork p memory) (fun _ t => Steady t) E w := by
  unfold sysFork
  rw [wp_bind, wp_get]
  cases hfind : (List.finRange NPROC).find? fun q => (w.proc q).state = .unused with
  | none => exact h
  | some q =>
    have hunused : (w.proc q).state = .unused := by simpa using List.find?_some hfind
    obtain ⟨hqcwd, hqofile⟩ := h.idle q (by rw [hunused]; decide)
    dsimp only
    apply wp_ite
    · intro _
      apply wp_call (wp_dupFiles h p)
      intro _ t ht
      obtain ⟨hp, ht⟩ := ht
      cases hcwd : (w.proc p).cwd with
      | none => exact hE _ (by decide)
      | some cwd =>
        have hbase : baseRefs t cwd ≠ 0 := by
          apply baseRefs_cwd (p := p)
          rw [hp, hcwd]
        have hrefs := ht.inodes.refs cwd
        dsimp only
        apply wp_call (wp_idup ht.inodes (by omega))
        intro r u hu
        obtain ⟨rfl, hat, -⟩ := hu
        rw [wp_bind, wp_setProc, wp_pure]
        have hup : u.proc = w.proc := hat.proc.trans hp
        have hset := (ht.next hat).setProc (p := q) 0 ⟨.live, some r, (w.proc p).ofile⟩
          (fun jp => by
            dsimp only
            rw [refs_cons, hup, hqcwd, one_none]
            omega)
          (fun y hy => .inl (Multiset.mem_cons_of_mem hy)) (fun hne => absurd rfl hne)
        have hslots : slots { u with
            proc := update u.proc q ⟨.live, some r, (w.proc p).ofile⟩ } =
            fun f => slots w f + row (w.proc p).ofile f := by
          funext f
          have hrow := slots_setProc u q ⟨.live, some r, (w.proc p).ofile⟩ f
          rw [hup, hqofile, row_none, Nat.add_zero, slots_congr hup] at hrow
          rw [hup]
          exact hrow
        unfold Steady
        rw [hslots]
        exact hset
    · intro _
      exact h

theorem wp_closeFiles (h : Steady w) (hlive : (w.proc p).state = .live) :
    wp (closeFiles p) (fun _ t => Steady t ∧ (t.proc p).state = .live ∧
      (t.proc p).ofile = fun _ => none) E w := by
  refine wp_mono ?_ (fun _ he => he) (wp_forM
    (I := fun xs s => Steady s ∧ (s.proc p).state = .live ∧
      ∀ fd, fd ∉ xs → (s.proc p).ofile fd = none)
    ?_ (List.finRange NOFILE) ⟨h, hlive, fun fd hfd => absurd (List.mem_finRange fd) hfd⟩)
  · intro _ t ht
    exact ⟨ht.1, ht.2.1, funext fun fd => ht.2.2 fd List.not_mem_nil⟩
  · intro fd xs s hs
    obtain ⟨hs, hlive, hrest⟩ := hs
    rw [wp_bind, wp_get]
    cases hf : (s.proc p).ofile fd with
    | none =>
      refine ⟨hs, hlive, fun fd' hfd' => ?_⟩
      by_cases heq : fd' = fd
      · rw [heq, hf]
      · exact hrest fd' (by simp [heq, hfd'])
    | some f =>
      -- `fileclose` drops the reference of a descriptor that is cleared after it.
      have hclear := slots_clear (t := { s with
        proc := update s.proc p ((s.proc p).withOfile fd none) }) hf rfl
      have hinv : Inv 0 _ s := hs
      rw [hclear] at hinv
      apply wp_call (wp_fileclose hinv)
      intro _ t ht
      have hlive' : (t.proc p).state = .live := by rw [ht.1]; exact hlive
      apply wp_mono _ (fun _ he => he) (wp_setOfile ht.2 hlive' fd none)
      intro _ u hu
      rw [ht.1] at hu
      refine ⟨hu.1.steady hu.2, ?_, fun fd' hfd' => ?_⟩
      · rw [hu.2, update_self]
        exact hlive
      · rw [hu.2, update_self]
        change update (s.proc p).ofile fd none fd' = none
        by_cases heq : fd' = fd
        · rw [heq, update_self]
        · rw [update_of_ne heq]
          exact hrest fd' (by simp [heq, hfd'])

theorem wp_sysExit (h : Steady w) (hlive : (w.proc p).state = .live) (hE : Lax E) :
    wp (sysExit p) (fun _ t => Steady t) E w := by
  unfold sysExit
  apply wp_ite
  · intro _
    exact hE _ (by decide)
  · intro _
    apply wp_call (wp_closeFiles h hlive)
    intro _ t ht
    obtain ⟨ht, hlive, hofile⟩ := ht
    rw [wp_bind, wp_get]
    cases hcwd : (t.proc p).cwd with
    | none => exact hE _ (by decide)
    | some cwd =>
      dsimp only
      apply wp_call (wp_iput_cwd ht hlive hcwd)
      intro _ u hu
      rw [wp_bind, wp_get, wp_bind, wp_setProc, hu.1]
      have hset := hu.2.setCwd 0 { t.proc p with cwd := none, state := .zombie }
        (fun jp => Nat.zero_add _) (fun y hy => hy) (fun _ => ⟨rfl, hofile⟩)
      exact hset.steady_of_ofile rfl rfl

/-! ### Pipes -/

theorem bump_ne_zero (S : FileId → Nat) (f : FileId) : bump S f f ≠ 0 := by
  rw [bump_apply, one_self]
  exact Nat.succ_ne_zero _

theorem bump_ne_zero_of {S : FileId → Nat} {f : FileId} (h : S f ≠ 0) (g : FileId) :
    bump S g f ≠ 0 := by
  rw [bump_apply]
  omega

/-- Two files of the call become a pipe. -/
theorem Inv.makePipe {f0 f1 : FileId} (h : Inv held S w) (hne : f0 ≠ f1) (h0 : S f0 ≠ 0)
    (h1 : S f1 ≠ 0) (hk0 : (w.ftable f0).kind = .none) (hk1 : (w.ftable f1).kind = .none) :
    Inv held S { w with
      pipe := update w.pipe w.npipe (some ⟨true, true⟩)
      npipe := w.npipe + 1
      ftable := update
        (update w.ftable f0 ⟨(w.ftable f0).ref, .pipe w.npipe false⟩) f1
        ⟨(w.ftable f1).ref, .pipe w.npipe true⟩ } := by
  have hcore0 := h.toCore.setFile (f := f0) held ⟨(w.ftable f0).ref, .pipe w.npipe false⟩
    (update w.pipe w.npipe (some ⟨true, true⟩)) (w.npipe + 1)
    (fun ip => by rw [hk0]; rfl) (fun _ hx => .inl hx)
    (fun hz => absurd ((h.refs f0).symm.trans hz) h0)
  have hf1 : update w.ftable f0 ⟨(w.ftable f0).ref, .pipe w.npipe false⟩ f1 =
      w.ftable f1 := update_of_ne (Ne.symm hne) _ _
  have hcore1 := hcore0.setFile (f := f1) held ⟨(w.ftable f1).ref, .pipe w.npipe true⟩
    (update w.pipe w.npipe (some ⟨true, true⟩)) (w.npipe + 1)
    (fun ip => by
      dsimp only
      rw [hf1, hk1]
      rfl)
    (fun _ hx => .inl hx)
    (fun hz => absurd ((h.refs f1).symm.trans hz) h1)
  dsimp only at hcore1
  rw [h.refs f0, update_eq_self, h.refs f1, update_eq_self] at hcore1
  rw [h.refs f0, h.refs f1]
  exact ⟨hcore1, h.pipes.make hne hk0 hk1 rfl rfl⟩

theorem wp_pipealloc (h : Inv held S w) (memory : Bool) :
    wp (pipealloc memory) (fun r t => t.proc = w.proc ∧ (r = none ∧ Inv held S t ∨
      ∃ f0 f1, r = some (f0, f1) ∧ Inv held (bump (bump S f0) f1) t)) E w := by
  unfold pipealloc
  apply wp_call (wp_filealloc h)
  intro r t ht
  obtain ⟨htp, ⟨rfl, ht⟩ | ⟨f0, rfl, hzero0, hkind0, ht⟩⟩ := ht
  · exact ⟨htp, .inl ⟨rfl, ht⟩⟩
  · dsimp only
    apply wp_call (wp_filealloc ht)
    intro r u hu
    obtain ⟨hup, ⟨rfl, hu⟩ | ⟨f1, rfl, hzero1, hkind1, hu⟩⟩ := hu
    · dsimp only
      apply wp_call (wp_fileclose hu)
      intro _ v hv
      exact ⟨hv.1.trans (hup.trans htp), .inl ⟨rfl, hv.2⟩⟩
    · dsimp only
      apply wp_ite
      · intro _
        have hne : f0 ≠ f1 := by
          intro heq
          rw [← heq] at hzero1
          exact bump_ne_zero S f0 hzero1
        have hf1 : S f1 = 0 := by
          rw [bump_apply] at hzero1
          omega
        rw [wp_bind, wp_get, wp_bind, wp_modify, wp_bind, wp_setKind, wp_bind, wp_setKind, wp_pure]
        have hnew := hu.makePipe hne (bump_ne_zero_of (bump_ne_zero S f0) f1) (bump_ne_zero _ f1)
          (by rw [hkind1, hkind0]; exact h.closed f0 hzero0)
          (by rw [hkind1, hkind0]; exact h.closed f1 hf1)
        rw [← update_of_ne (Ne.symm hne) (f := u.ftable)] at hnew
        exact ⟨hup.trans htp, .inr ⟨f0, f1, rfl, hnew⟩⟩
      · intro _
        rw [bump_comm] at hu
        apply wp_call (wp_fileclose hu)
        intro _ v hv
        apply wp_call (wp_fileclose hv.2)
        intro _ x hx
        exact ⟨hx.1.trans (hv.1.trans (hup.trans htp)), .inl ⟨rfl, hx.2⟩⟩

/-- Both files of a pipe are closed again. -/
theorem wp_closeBoth {rf wf : FileId} (h : Inv held (bump (bump S rf) wf) w) :
    wp (fileclose rf >>= fun _ => fileclose wf >>= fun _ => (pure none : Kernel (Option Nat)))
      (fun _ t => t.proc = w.proc ∧ Inv held S t) E w := by
  rw [bump_comm] at h
  apply wp_call (wp_fileclose h)
  intro _ v hv
  apply wp_call (wp_fileclose hv.2)
  intro _ x hx
  exact ⟨hx.1.trans hv.1, hx.2⟩

theorem wp_sysPipe (h : Steady w) (hlive : (w.proc p).state = .live) (memory copied : Bool) :
    wp (sysPipe p memory copied) (fun _ t => Steady t) E w := by
  unfold sysPipe
  apply wp_call (wp_pipealloc h memory)
  intro r t ht
  obtain ⟨htp, ⟨rfl, ht⟩ | ⟨rf, wf, rfl, ht⟩⟩ := ht
  · exact ht.steady htp
  · have hlive1 : (t.proc p).state = .live := by rw [htp]; exact hlive
    dsimp only
    apply wp_call (wp_fdalloc ht hlive1 rf)
    intro r u hu
    obtain ⟨hu, -, ⟨rfl, hup⟩ | ⟨fd0, rfl, hfree0, hup⟩⟩ := hu
    · exact wp_mono (fun _ v hv => hv.2.steady (hv.1.trans (hup.trans htp))) (fun _ he => he)
        (wp_closeBoth hu)
    · have hlive2 : (u.proc p).state = .live := by rw [hup, update_self]; exact hlive1
      have hslots0 : slots u = bump (slots w) rf := by
        rw [slots_alloc hfree0 hup, slots_congr htp]
      have hofile0 : (u.proc p).ofile fd0 = some rf := by
        rw [hup, update_self]
        exact update_self _ _ _
      dsimp only
      apply wp_call (wp_fdalloc hu hlive2 wf)
      intro r v hv
      obtain ⟨hv, -, ⟨rfl, hvp⟩ | ⟨fd1, rfl, hfree1, hvp⟩⟩ := hv
      · -- Only the first descriptor has to be cleared.
        dsimp only
        apply wp_call (wp_setOfile hv (by rw [hvp]; exact hlive2) fd0 none)
        intro _ x hx
        rw [hvp] at hx
        have hback : slots x = slots w :=
          bump_injective ((slots_clear hofile0 hx.2).symm.trans hslots0)
        rw [← hback] at hx
        exact wp_mono (fun _ y hy => hy.2.steady hy.1) (fun _ he => he) (wp_closeBoth hx.1)
      · have hslots1 : slots v = bump (bump (slots w) rf) wf := by
          rw [slots_alloc hfree1 hvp, hslots0]
        dsimp only
        apply wp_ite
        · intro _
          rw [← hslots1] at hv
          exact hv
        · intro _
          have hlive3 : (v.proc p).state = .live := by rw [hvp, update_self]; exact hlive2
          have hne : fd0 ≠ fd1 := by
            intro heq
            rw [heq, hfree1] at hofile0
            cases hofile0
          apply wp_call (wp_setOfile hv hlive3 fd0 none)
          intro _ x hx
          have hlive4 : (x.proc p).state = .live := by rw [hx.2, update_self]; exact hlive3
          apply wp_call (wp_setOfile hx.1 hlive4 fd1 none)
          intro _ y hy
          have hv0 : (v.proc p).ofile fd0 = some rf := by
            rw [hvp, update_self]
            exact (update_of_ne hne _ _).trans hofile0
          have hx1 : (x.proc p).ofile fd1 = some wf := by
            rw [hx.2, hvp, update_self, update_self]
            refine (update_of_ne (Ne.symm hne) _ _).trans ?_
            exact update_self _ _ _
          have hback : slots y = slots w := by
            apply bump_injective (f := rf)
            apply bump_injective (f := wf)
            rw [← hslots1, bump_comm, ← slots_clear hx1 hy.2, ← slots_clear hv0 hx.2]
          rw [← hback] at hy
          exact wp_mono (fun _ z hz => hz.2.steady hz.1) (fun _ he => he) (wp_closeBoth hy.1)

end Calls

end Xv6.Names
