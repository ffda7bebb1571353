import Xv6.Vm.Load
import Xv6.Vm.Proc

/-!
# Pipes and the file table

Each open pipe is a page, owned by the pipe ends in the file table together. Its two
flags say which of the ends are there, so that `pipeclose` of the last one frees the
page and no earlier one does.
-/
namespace Xv6.Vm

open Lib.Bytes Lib.Sep Lib.Sep.Assn Function

set_option autoImplicit false

variable {L : Layout}

/-! ## Triples for code that uses the tables -/

/-- `f`, run on the tables `t`; the postcondition speaks of its result and of the tables
it leaves. -/
def Does {γ : Type} (L : Layout) (n n' : Nat) (t : Tables) (P : Assn Nat Mem) (f : S γ)
    (Q : γ → Tables → Assn Nat Mem) : Prop :=
  Uses L n n' P (f t) fun x => Q x.1 x.2

section Does

variable {γ δ : Type} {n n' n'' : Nat} {t u : Tables} {P P' F : Assn Nat Mem}
  {Q Q' : γ → Tables → Assn Nat Mem} {R : δ → Tables → Assn Nat Mem} {f : S γ} {g : γ → S δ}

theorem Does.pre (h : Does L n n' t P f Q) (hP : P' ≤ P) : Does L n n' t P' f Q := Triple.pre h hP

theorem Does.post (h : Does L n n' t P f Q) (hQ : ∀ c u, Q c u ≤ Q' c u) : Does L n n' t P f Q' :=
  Triple.post h fun x => hQ x.1 x.2

theorem Does.frame (h : Does L n n' t P f Q) (F : Assn Nat Mem) :
    Does L n n' t (P * F) f fun c u => Q c u * F := Triple.frame h F

theorem Does.ret {c : γ} (h : P ≤ Q c t) : Does L n n t P (pure c) Q := Triple.ret (c, t) h

theorem Does.bind (hf : Does L n n' t P f Q) (hg : ∀ c u, Does L n' n'' u (Q c u) (g c) R) :
    Does L n n'' t P (f >>= g) R := Triple.bind hf fun x => hg x.1 x.2

theorem Does.call (hf : Does L n n' t P f Q) (hP : P' = P * F)
    (hg : ∀ c u, Does L n' n'' u (Q c u * F) (g c) R) : Does L n n'' t P' (f >>= g) R :=
  Triple.call hf hP fun x => hg x.1 x.2

theorem Does.of_fact {φ : Prop} (h : φ → Does L n n' t P f Q) : Does L n n' t (fact φ * P) f Q :=
  Triple.of_fact h

theorem Does.of_any {ι : Type} {P : ι → Assn Nat Mem} (h : ∀ i, Does L n n' t (P i) f Q) :
    Does L n n' t (any P) f Q := Triple.of_any h

theorem Does.of_either {P₁ P₂ : Assn Nat Mem} (h₁ : Does L n n' t P₁ f Q) (h₂ : Does L n n' t P₂ f Q) :
    Does L n n' t (either P₁ P₂) f Q := Triple.of_either h₁ h₂

theorem vm_bind (f : M γ) (g : γ → S δ) (t : Tables) :
    (vm f >>= g) t = f >>= fun c => g c t := by
  funext k
  show (vm f t k >>= fun x => g x.1.1 x.1.2 x.2) = (f k >>= fun x => g x.1 t x.2)
  unfold vm
  cases f k with
  | ok x => rfl
  | error e => rfl

theorem Does.vm_call {Q : γ → Assn Nat Mem} {f : M γ} (hf : Uses L n n' P f Q) (hP : P' = P * F)
    (hg : ∀ c, Does L n' n'' t (Q c * F) (g c) R) : Does L n n'' t P' (vm f >>= g) R := by
  unfold Does
  rw [vm_bind]
  exact hf.call hP hg

theorem Does.vm_last {Q : γ → Assn Nat Mem} {f : M γ} (hf : Uses L n n' P f Q) :
    Does L n n' t P (vm f) fun c u => fact (u = t) * Q c := by
  have h : Does L n n' t P (Vm.vm f >>= pure) fun c u => fact (u = t) * Q c := by
    unfold Does
    rw [vm_bind]
    exact hf.bind fun c => Triple.ret (c, t) (le_fact_mul rfl le_rfl)
  rw [bind_pure] at h
  exact h

end Does

section Primitives

variable {δ : Type} {n n' : Nat} {t : Tables} {P : Assn Nat Mem} {R : δ → Tables → Assn Nat Mem}

theorem does_tables {g : Tables → S δ} (h : Does L n n' t P (g t) R) :
    Does L n n' t P (tables >>= g) R := h

theorem does_setTables {u : Tables} {g : Unit → S δ} (h : Does L n n' u P (g ()) R) :
    Does L n n' t P (setTables u >>= g) R := h

theorem does_myproc {i : Fin NPROC} {g : Proc → S δ} (h : Does L n n' t P (g (t.proc i)) R) :
    Does L n n' t P (myproc i >>= g) R := h

theorem does_setProc {i : Fin NPROC} {p : Proc} {g : Unit → S δ}
    (h : Does L n n' (t.setProc i p) P (g ()) R) : Does L n n' t P (setProc i p >>= g) R := h

theorem does_setProc_last {i : Fin NPROC} {p : Proc} {Q : Unit → Tables → Assn Nat Mem}
    (h : P ≤ Q () (t.setProc i p)) : Does L n n t P (setProc i p) Q := Triple.ret ((), _) h

theorem does_setFd {i : Fin NPROC} {fd : Fin NOFILE} {x : Option (Fin NFILE)} {g : Unit → S δ}
    (h : Does L n n' (t.setFd i fd x) P (g ()) R) : Does L n n' t P (setFd i fd x >>= g) R := h

theorem does_getFile {f : Fin NFILE} {g : File → S δ} (h : Does L n n' t P (g (t.file f)) R) :
    Does L n n' t P (getFile f >>= g) R := h

theorem does_setFile {f : Fin NFILE} {x : File} {g : Unit → S δ}
    (h : Does L n n' (t.setFile f x) P (g ()) R) : Does L n n' t P (setFile f x >>= g) R := h

theorem does_getInode {ip : Fin NINODE} {g : Inode → S δ} (h : Does L n n' t P (g (t.inode ip)) R) :
    Does L n n' t P (getInode ip >>= g) R := h

theorem does_setInode {ip : Fin NINODE} {x : Inode} {g : Unit → S δ}
    (h : Does L n n' (t.setInode ip x) P (g ()) R) : Does L n n' t P (setInode ip x >>= g) R := h

theorem does_begin_op {g : Unit → S δ}
    (h : Does L n n' { t with outstanding := t.outstanding + 1 } P (g ()) R) :
    Does L n n' t P (begin_op >>= g) R := h

theorem does_end_op {g : Unit → S δ}
    (h : Does L n n' { t with outstanding := t.outstanding - 1 } P (g ()) R) :
    Does L n n' t P (end_op >>= g) R := h

theorem does_idup {ip : Fin NINODE} {g : Unit → S δ}
    (h : Does L n n' (t.setInode ip { t.inode ip with ref := (t.inode ip).ref + 1 }) P (g ()) R) :
    Does L n n' t P (idup ip >>= g) R := h

theorem does_iput {ip : Fin NINODE} {g : Unit → S δ}
    (h : Does L n n' (t.setInode ip { t.inode ip with ref := (t.inode ip).ref - 1 }) P (g ()) R) :
    Does L n n' t P (iput ip >>= g) R := h

theorem does_namei_none {dir : Directory} {path : List UInt8} {g : Option (Fin NINODE × Image) → S δ}
    (hf : dir path = none) (h : Does L n n' t P (g none) R) :
    Does L n n' t P (namei dir path >>= g) R := by
  rw [namei, hf]
  exact h

theorem does_namei_some {dir : Directory} {path : List UInt8} {g : Option (Fin NINODE × Image) → S δ}
    {ip : Fin NINODE} {image : Image} (hf : dir path = some (ip, image))
    (h : Does L n n' (t.setInode ip { t.inode ip with ref := (t.inode ip).ref + 1 }) P
      (g (some (ip, image))) R) :
    Does L n n' t P (namei dir path >>= g) R := by
  rw [namei, hf]
  exact h

theorem does_ilock {ip : Fin NINODE} {g : Unit → S δ} (hr : 1 ≤ (t.inode ip).ref)
    (h : Does L n n' (t.setInode ip { t.inode ip with locked := true }) P (g ()) R) :
    Does L n n' t P (ilock ip >>= g) R := by
  rw [ilock, bind_assoc]
  apply does_getInode
  rw [if_neg (Nat.not_lt.mpr hr)]
  exact does_setInode h

theorem does_iunlock {ip : Fin NINODE} {g : Unit → S δ} (hr : 1 ≤ (t.inode ip).ref)
    (hl : (t.inode ip).locked = true)
    (h : Does L n n' (t.setInode ip { t.inode ip with locked := false }) P (g ()) R) :
    Does L n n' t P (iunlock ip >>= g) R := by
  rw [iunlock, bind_assoc]
  apply does_getInode
  rw [if_neg]
  · exact does_setInode h
  · rintro (hc | hc)
    · rw [hl] at hc
      cases hc
    · omega

theorem does_setFile_last {f : Fin NFILE} {x : File} {Q : Unit → Tables → Assn Nat Mem}
    (h : P ≤ Q () (t.setFile f x)) : Does L n n t P (setFile f x) Q := Triple.ret ((), _) h

end Primitives

/-! ## Pipes -/

/-- The offset of the flag that says whether an end is open. -/
def flagOf (writable : Bool) : Nat := if writable then PIPE_WRITEOPEN else PIPE_READOPEN

/-- The page of a pipe, of which `isOpen` says what ends are open. -/
def pipeRes (L : Layout) (q : Nat) (isOpen : Bool → Bool) : Assn Nat Mem :=
  any fun c => fact (∀ w, getLE c (flagOf w) 4 = (isOpen w).toNat) * page L q c

theorem pipeRes_le_own (q : Nat) (isOpen : Bool → Bool) : pipeRes L q isOpen ≤ own L q :=
  any_le fun c => fact_mul_le fun _ => page_le_own q c

theorem spec_initPipe (q : Nat) :
    Spec L (own L q) (initPipe q) fun _ => pipeRes L q fun _ => true := by
  apply Triple.of_any
  intro c
  refine (spec_store (by decide)).bind fun _ => ?_
  refine (spec_store (by decide)).bind fun _ => ?_
  refine (spec_store (by decide)).bind fun _ => ?_
  refine (spec_store (by decide)).post fun _ => ?_
  refine le_any _ (le_fact_mul (fun w => ?_) le_rfl)
  rw [getLE_putLE_disjoint _ (by cases w <;> decide), getLE_putLE_disjoint _ (by cases w <;> decide)]
  cases w with
  | true => exact getLE_putLE_of_lt (by decide)
  | false =>
    rw [getLE_putLE_disjoint _ (by decide)]
    exact getLE_putLE_of_lt (by decide)

/-- What is left of a pipe. -/
def rest (L : Layout) (q : Nat) (isOpen : Bool → Bool) : Assn Nat Mem :=
  if isOpen false = false ∧ isOpen true = false then 1 else pipeRes L q isOpen

theorem spec_pipeclose (q : Nat) (isOpen : Bool → Bool) (w : Bool) :
    Spec L (pipeRes L q isOpen) (pipeclose L q w) fun _ =>
      rest L q (update isOpen w false) := by
  apply Triple.of_any
  intro c
  apply Triple.of_fact
  intro hc
  have hflags : ∀ v, getLE (putLE c (flagOf w) 4 0) (flagOf v) 4 =
      (update isOpen w false v).toNat := by
    intro v
    by_cases hv : v = w
    · rw [hv, update_self]
      exact getLE_putLE_of_lt (by decide)
    · rw [update_of_ne hv, ← hc v]
      apply getLE_putLE_disjoint
      revert hv
      cases v <;> cases w <;> decide
  have hle : ∀ v, flagOf v + 4 ≤ PGSIZE := by decide
  refine (spec_store (hle w)).bind fun _ => ?_
  refine (spec_load (hle false)).bind fun readopen => ?_
  apply Triple.of_fact
  intro hr
  refine (spec_load (hle true)).bind fun writeopen => ?_
  apply Triple.of_fact
  intro hw
  rw [hflags] at hr hw
  apply spec_ifDo
  · intro hz
    rw [rest, if_pos (by rw [hr, hw] at hz; simpa using hz)]
    exact (spec_kfree 0 q).pre (page_le_own _ _)
  · intro hz
    rw [rest, if_neg (by rw [hr, hw] at hz; simpa using hz)]
    exact le_any _ (le_fact_mul hflags le_rfl)

/-- The pipes of a set of open ends, given by their pages and sides. -/
def pipesRes (L : Layout) (ends : Finset (Nat × Bool)) : Assn Nat Mem :=
  ∏ q ∈ ends.image Prod.fst, pipeRes L q fun w => decide ((q, w) ∈ ends)

theorem spec_pipeclose_end {ends : Finset (Nat × Bool)} {q : Nat} {w : Bool} (h : (q, w) ∈ ends) :
    Spec L (pipesRes L ends) (pipeclose L q w) fun _ => pipesRes L (ends.erase (q, w)) := by
  have hq : q ∈ ends.image Prod.fst := Finset.mem_image_of_mem Prod.fst h
  have hopen : update (fun v => decide ((q, v) ∈ ends)) w false =
      fun v => decide ((q, v) ∈ ends.erase (q, w)) := by
    funext v
    by_cases hv : v = w
    · rw [hv, update_self, decide_eq_false (Finset.notMem_erase _ _)]
    · rw [update_of_ne hv]
      simp [hv]
  -- the other pipes keep their ends
  have hothers : ∏ r ∈ (ends.image Prod.fst).erase q, pipeRes L r (fun v => decide ((r, v) ∈ ends)) =
      ∏ r ∈ ((ends.erase (q, w)).image Prod.fst).erase q,
        pipeRes L r (fun v => decide ((r, v) ∈ ends.erase (q, w))) := by
    apply Finset.prod_congr
    · ext r
      simp only [Finset.mem_erase, Finset.mem_image, Prod.exists, exists_and_right, exists_eq_right]
      grind
    · intro r hr
      have hr := Finset.ne_of_mem_erase hr
      simp [hr]
  unfold pipesRes
  rw [← Finset.mul_prod_erase _ _ hq, hothers]
  refine ((spec_pipeclose q _ w).frame _).post fun _ => ?_
  rw [hopen]
  by_cases hleft : q ∈ (ends.erase (q, w)).image Prod.fst
  · rw [rest, if_neg, Finset.mul_prod_erase _ (fun r => pipeRes L r fun v =>
      decide ((r, v) ∈ ends.erase (q, w))) hleft]
    obtain ⟨⟨r, v⟩, hv, rfl⟩ := Finset.mem_image.mp hleft
    cases v with
    | true => exact fun hn => of_decide_eq_false hn.2 hv
    | false => exact fun hn => of_decide_eq_false hn.1 hv
  · rw [rest, if_pos, one_mul, Finset.erase_eq_of_notMem hleft]
    exact ⟨decide_eq_false fun hv => hleft (Finset.mem_image_of_mem Prod.fst hv),
      decide_eq_false fun hv => hleft (Finset.mem_image_of_mem Prod.fst hv)⟩

/-- No page is owned twice. -/
theorem own_mul_own_ne (p q : Nat) : own L p * own L q ≤ fact (p ≠ q) * (own L p * own L q) := by
  intro h hh
  refine fact_mul.mpr ⟨fun hpq => ?_, hh⟩
  obtain ⟨g, k, hd, -, ⟨c, hc⟩, d, hk⟩ := hh
  obtain ⟨-, rfl⟩ := fact_mul.mp hc
  obtain ⟨-, rfl⟩ := fact_mul.mp hk
  rw [hpq] at hd
  cases hd q with
  | inl h => exact Option.some_ne_none c ((Heap.single_self q c).symm.trans h)
  | inr h => exact Option.some_ne_none d ((Heap.single_self q d).symm.trans h)

theorem pipe_mul_pipes_notMem (q : Nat) (isOpen : Bool → Bool) (ends : Finset (Nat × Bool)) :
    pipeRes L q isOpen * pipesRes L ends ≤
      fact (q ∉ ends.image Prod.fst) * (pipeRes L q isOpen * pipesRes L ends) := by
  intro h hh
  refine fact_mul.mpr ⟨fun hq => ?_, hh⟩
  unfold pipesRes at hh
  rw [← Finset.mul_prod_erase _ _ hq, ← mul_assoc] at hh
  have htwice := Assn.mul_left (le_trans (mul_le_mul' (pipeRes_le_own q _) (pipeRes_le_own q _))
    (own_mul_own_ne q q)) hh
  rw [mul_assoc] at htwice
  exact (fact_mul.mp htwice).1 rfl

theorem pipesRes_insert {ends : Finset (Nat × Bool)} {q : Nat} (h : q ∉ ends.image Prod.fst) :
    pipeRes L q (fun _ => true) * pipesRes L ends =
      pipesRes L (insert (q, false) (insert (q, true) ends)) := by
  unfold pipesRes
  rw [Finset.image_insert, Finset.image_insert, Finset.insert_idem, Finset.prod_insert h]
  congr 1
  · congr 1
    funext w
    cases w <;> simp
  · apply Finset.prod_congr rfl
    intro r hr
    have hne : r ≠ q := fun hrq => h (hrq ▸ hr)
    simp [hne]

/-! ## The file table -/

/-- The open pipe ends. -/
def ends (file : Fin NFILE → File) : Finset (Nat × Bool) :=
  (Finset.univ.filter fun f => (file f).type = .FD_PIPE).image fun f =>
    ((file f).pipe, (file f).writable)

/-- A file without references is no pipe end, and no end is in the table twice. -/
structure FilesOk (file : Fin NFILE → File) : Prop where
  idle : ∀ f, (file f).ref = 0 → (file f).type = .FD_NONE
  once : ∀ f g, (file f).type = .FD_PIPE → (file g).type = .FD_PIPE →
    (file f).pipe = (file g).pipe → (file f).writable = (file g).writable → f = g

def filesRes (L : Layout) (file : Fin NFILE → File) : Assn Nat Mem :=
  fact (FilesOk file) * pipesRes L (ends file)

theorem mem_ends {file : Fin NFILE → File} {q : Nat} {w : Bool} :
    (q, w) ∈ ends file ↔
      ∃ f, (file f).type = .FD_PIPE ∧ (file f).pipe = q ∧ (file f).writable = w := by
  unfold ends
  simp only [Finset.mem_image, Finset.mem_filter, Finset.mem_univ, true_and, Prod.mk.injEq]

theorem ends_congr {file file' : Fin NFILE → File} (h : ∀ f, (file' f).type = (file f).type ∧
    (file' f).pipe = (file f).pipe ∧ (file' f).writable = (file f).writable) :
    ends file' = ends file := by
  ext ⟨q, w⟩
  simp only [mem_ends, h]

/-- The file table after `fileclose` of `f`. -/
def shut (file : Fin NFILE → File) (f : Fin NFILE) : Fin NFILE → File :=
  update file f
    (if 0 < (file f).ref - 1 then { file f with ref := (file f).ref - 1 }
      else { file f with ref := 0, type := .FD_NONE })

section Shut

variable {file : Fin NFILE → File} {f : Fin NFILE}

theorem shut_ref (g : Fin NFILE) :
    (shut file f g).ref = update (fun g => (file g).ref) f ((file f).ref - 1) g := by
  unfold shut
  by_cases hg : g = f
  · rw [hg, update_self, update_self]
    split
    · rfl
    · show 0 = _
      omega
  · rw [update_of_ne hg, update_of_ne hg]

theorem shut_end (g : Fin NFILE) :
    (shut file f g).pipe = (file g).pipe ∧ (shut file f g).writable = (file g).writable := by
  unfold shut
  by_cases hg : g = f
  · rw [hg, update_self]
    split <;> exact ⟨rfl, rfl⟩
  · rw [update_of_ne hg]
    exact ⟨rfl, rfl⟩

/-- The pipe ends that `fileclose` leaves in the table. -/
theorem shut_type (g : Fin NFILE) : (shut file f g).type = .FD_PIPE ↔
    (file g).type = .FD_PIPE ∧ (g = f → 0 < (file f).ref - 1) := by
  unfold shut
  by_cases hg : g = f
  · rw [hg, update_self]
    split
    case isTrue h => exact ⟨fun ht => ⟨ht, fun _ => h⟩, And.left⟩
    case isFalse h => exact ⟨fun ht => (nomatch ht), fun ht => absurd (ht.2 rfl) h⟩
  · rw [update_of_ne hg]
    exact ⟨fun ht => ⟨ht, fun h => absurd h hg⟩, And.left⟩

theorem FilesOk.shut (h : FilesOk file) : FilesOk (shut file f) := by
  constructor
  · intro g hg
    rw [shut_ref] at hg
    by_cases hgf : g = f
    · rw [hgf, update_self] at hg
      rw [hgf, Vm.shut, update_self, if_neg (by omega)]
    · rw [update_of_ne hgf] at hg
      rw [Vm.shut, update_of_ne hgf]
      exact h.idle g hg
  · intro a b ha hb hp hw
    rw [(shut_end a).1, (shut_end b).1] at hp
    rw [(shut_end a).2, (shut_end b).2] at hw
    exact h.once a b ((shut_type a).mp ha).1 ((shut_type b).mp hb).1 hp hw

theorem ends_shut_of_more (h : 0 < (file f).ref - 1 ∨ (file f).type ≠ .FD_PIPE) :
    ends (shut file f) = ends file := by
  ext ⟨q, w⟩
  simp only [mem_ends, shut_type, shut_end]
  constructor
  · rintro ⟨g, hg, hq⟩
    exact ⟨g, hg.1, hq⟩
  · rintro ⟨g, hg, hq⟩
    refine ⟨g, ⟨hg, fun hgf => h.resolve_right fun hn => hn ?_⟩, hq⟩
    rw [← hgf]
    exact hg

theorem ends_shut_of_last (hok : FilesOk file) (hf : (file f).type = .FD_PIPE)
    (h : ¬0 < (file f).ref - 1) :
    ends (shut file f) = (ends file).erase ((file f).pipe, (file f).writable) := by
  ext ⟨q, w⟩
  simp only [mem_ends, shut_type, shut_end, Finset.mem_erase, ne_eq, Prod.mk.injEq]
  constructor
  · rintro ⟨g, hg, rfl, rfl⟩
    refine ⟨fun he => h (hg.2 ?_), g, hg.1, rfl, rfl⟩
    exact hok.once g f hg.1 hf he.1 he.2
  · rintro ⟨hne, g, hg, rfl, rfl⟩
    refine ⟨g, ⟨hg, fun hgf => absurd ?_ hne⟩, rfl, rfl⟩
    rw [hgf]
    exact ⟨rfl, rfl⟩

end Shut

/-- The file table of `u` with its pipes, when `r` counts the references to the files.
Apart from the file table the tables are those of `t`. -/
def filesAt (L : Layout) (t : Tables) (r : Fin NFILE → Nat) (u : Tables) : Assn Nat Mem :=
  fact (u = { t with file := u.file } ∧ ∀ f, (u.file f).ref = r f) * filesRes L u.file

section Files

variable {t u : Tables} {r : Fin NFILE → Nat}

/-- The specification of `fileclose`. -/
theorem does_fileclose {f : Fin NFILE} (h : 0 < r f) :
    Does L 0 0 u (filesAt L t r u) (fileclose L f) fun _ u =>
      filesAt L t (update r f (r f - 1)) u := by
  unfold filesAt filesRes
  apply Does.of_fact
  rintro ⟨hu, hr⟩
  apply Does.of_fact
  intro hok
  have hf := hr f
  have hpost : pipesRes L (ends (shut u.file f)) ≤
      filesAt L t (update r f (r f - 1)) { u with file := shut u.file f } := by
    refine le_fact_mul ⟨?_, fun g => ?_⟩ (le_fact_mul hok.shut le_rfl)
    · rw [hu]
    · show (shut u.file f g).ref = _
      rw [shut_ref, hf]
      exact congrFun (congrArg (fun c => update c f (r f - 1)) (funext hr)) g
  apply does_getFile
  rw [if_neg (by omega)]
  split
  case isTrue hm =>
    rw [ends_shut_of_more (Or.inl hm), shut, if_pos hm] at hpost
    exact does_setFile_last hpost
  case isFalse hm =>
    apply does_setFile
    split
    case isTrue hpipe =>
      rw [ends_shut_of_last hok hpipe hm, shut, if_neg hm] at hpost
      have hmem : ((u.file f).pipe, (u.file f).writable) ∈ ends u.file :=
        mem_ends.mpr ⟨f, hpipe, rfl, rfl⟩
      refine (Does.vm_last (spec_pipeclose_end hmem)).post fun _ v => ?_
      apply fact_mul_le
      intro hv
      rw [hv]
      exact hpost
    case isFalse hpipe =>
      rw [ends_shut_of_more (Or.inr hpipe), shut, if_neg hm] at hpost
      exact Does.ret hpost

/-- Only the number of references to `f` changes. -/
theorem filesAt_setRef {f : Fin NFILE} {k : Nat} (hk : 0 < k) :
    filesAt L t r u ≤
      filesAt L t (update r f k) (u.setFile f { u.file f with ref := k }) := by
  apply fact_mul_le
  rintro ⟨hu, hr⟩
  apply fact_mul_le
  intro hok
  have hends : ∀ g, (update u.file f { u.file f with ref := k } g).type = (u.file g).type ∧
      (update u.file f { u.file f with ref := k } g).pipe = (u.file g).pipe ∧
      (update u.file f { u.file f with ref := k } g).writable = (u.file g).writable := by
    intro g
    by_cases hg : g = f
    · rw [hg, update_self]
      exact ⟨rfl, rfl, rfl⟩
    · rw [update_of_ne hg]
      exact ⟨rfl, rfl, rfl⟩
  refine le_fact_mul ⟨?_, fun g => ?_⟩ (le_fact_mul ⟨fun g hg => ?_, fun a b => ?_⟩ ?_)
  · rw [hu]
    rfl
  · show (update u.file f _ g).ref = _
    by_cases hg : g = f
    · rw [hg, update_self, update_self]
    · rw [update_of_ne hg, update_of_ne hg]
      exact hr g
  · show (update u.file f _ g).type = _
    have hg : (update u.file f { u.file f with ref := k } g).ref = 0 := hg
    by_cases hgf : g = f
    · rw [hgf, update_self] at hg
      exact absurd hg (by show k ≠ 0; omega)
    · rw [update_of_ne hgf] at hg ⊢
      exact hok.idle g hg
  · show (update u.file f _ a).type = _ → (update u.file f _ b).type = _ →
      (update u.file f _ a).pipe = (update u.file f _ b).pipe →
      (update u.file f _ a).writable = (update u.file f _ b).writable → a = b
    rw [(hends a).1, (hends a).2.1, (hends a).2.2, (hends b).1, (hends b).2.1, (hends b).2.2]
    exact hok.once a b
  · exact le_of_eq (congrArg (pipesRes L) (ends_congr hends).symm)

/-- The number of references that `filesAt` counts. -/
theorem filesAt_ref (f : Fin NFILE) :
    filesAt L t r u ≤ fact ((u.file f).ref = r f) * filesAt L t r u :=
  fun _ h => fact_mul.mpr ⟨(fact_mul.mp h).1.2 f, h⟩

theorem filesAt_proc : filesAt L t r u ≤ fact (u.proc = t.proc) * filesAt L t r u := by
  intro h hh
  refine fact_mul.mpr ⟨?_, hh⟩
  rw [(fact_mul.mp hh).1.1]

theorem does_filedup {f : Fin NFILE} (h : 0 < r f) :
    Does L 0 0 u (filesAt L t r u) (filedup f) fun _ u =>
      filesAt L t (update r f (r f + 1)) u := by
  apply Does.pre ?_ (filesAt_ref f)
  apply Does.of_fact
  intro hr
  apply does_getFile
  rw [if_neg (by omega), hr]
  exact does_setFile_last (filesAt_setRef (Nat.succ_pos _))

/-- What `filealloc` leaves of the tables `u`. -/
def filealloced (L : Layout) (t : Tables) (r : Fin NFILE → Nat) (u : Tables) :
    Option (Fin NFILE) → Tables → Assn Nat Mem
  | none, u' => fact (u' = u) * filesAt L t r u'
  | some f, u' => fact ((r f = 0 ∧ (u.file f).type = .FD_NONE) ∧
      u' = u.setFile f { u.file f with ref := 1 }) * filesAt L t (update r f 1) u'

theorem does_filealloc : Does L 0 0 u (filesAt L t r u) filealloc (filealloced L t r u) := by
  apply does_tables
  split
  case h_1 => exact Does.ret (le_fact_mul rfl le_rfl)
  case h_2 f hfind =>
    have hz := List.find?_some hfind
    simp only [decide_eq_true_eq] at hz
    apply does_setFile
    apply Does.ret
    intro h hfiles
    have hfacts := fact_mul.mp hfiles
    have hr := hfacts.1.2 f
    have hok := (fact_mul.mp hfacts.2).1
    refine fact_mul.mpr ⟨⟨⟨?_, hok.idle f hz⟩, rfl⟩, filesAt_setRef Nat.one_pos h hfiles⟩
    rw [← hr, hz]

end Files

/-! ## A new pipe -/

/-- The file table with the two ends of a pipe at `f0` and `f1`. -/
def piped (file : Fin NFILE → File) (f0 f1 : Fin NFILE) (q : Nat) : Fin NFILE → File :=
  update
    (update file f0
      { file f0 with type := .FD_PIPE, readable := true, writable := false, pipe := q }) f1
    { file f1 with type := .FD_PIPE, readable := false, writable := true, pipe := q }

section Piped

variable {file : Fin NFILE → File} {f0 f1 : Fin NFILE} {q : Nat}

theorem piped_ref (g : Fin NFILE) : (piped file f0 f1 q g).ref = (file g).ref := by
  unfold piped
  by_cases h1 : g = f1
  · rw [h1, update_self]
  · rw [update_of_ne h1]
    by_cases h0 : g = f0
    · rw [h0, update_self]
    · rw [update_of_ne h0]

/-- An end in the new table is one of the new pipe's, or an old one. -/
theorem piped_end (hne : f0 ≠ f1) (h0 : (file f0).type = .FD_NONE) (h1 : (file f1).type = .FD_NONE)
    (g : Fin NFILE) (p : Nat) (w : Bool) :
    (piped file f0 f1 q g).type = .FD_PIPE ∧ (piped file f0 f1 q g).pipe = p ∧
      (piped file f0 f1 q g).writable = w ↔
    (g = f0 ∧ q = p ∧ w = false) ∨ (g = f1 ∧ q = p ∧ w = true) ∨
      ((file g).type = .FD_PIPE ∧ (file g).pipe = p ∧ (file g).writable = w) := by
  unfold piped
  by_cases hg1 : g = f1
  · rw [hg1, update_self]
    simp [h1, hne.symm, eq_comm]
  · rw [update_of_ne hg1]
    by_cases hg0 : g = f0
    · rw [hg0, update_self]
      simp [h0, hne, eq_comm]
    · rw [update_of_ne hg0]
      simp [hg0, hg1]

theorem ends_piped (hne : f0 ≠ f1) (h0 : (file f0).type = .FD_NONE)
    (h1 : (file f1).type = .FD_NONE) :
    ends (piped file f0 f1 q) = insert (q, false) (insert (q, true) (ends file)) := by
  ext ⟨p, w⟩
  simp only [mem_ends, piped_end hne h0 h1, Finset.mem_insert, Prod.mk.injEq, exists_or,
    exists_eq_left]
  grind

theorem FilesOk.piped (h : FilesOk file) (hne : f0 ≠ f1) (h0 : (file f0).type = .FD_NONE)
    (h1 : (file f1).type = .FD_NONE) (hr0 : (file f0).ref ≠ 0) (hr1 : (file f1).ref ≠ 0)
    (hq : q ∉ (ends file).image Prod.fst) : FilesOk (piped file f0 f1 q) := by
  have hold : ∀ g, (file g).type = .FD_PIPE → (file g).pipe ≠ q := by
    intro g hg hp
    apply hq
    rw [← hp]
    exact Finset.mem_image_of_mem Prod.fst (mem_ends.mpr ⟨g, hg, rfl, rfl⟩)
  constructor
  · intro g hg
    rw [piped_ref] at hg
    have hg0 : g ≠ f0 := fun he => hr0 (he ▸ hg)
    have hg1 : g ≠ f1 := fun he => hr1 (he ▸ hg)
    rw [Vm.piped, update_of_ne hg1, update_of_ne hg0]
    exact h.idle g hg
  · intro a b ha hb hp hw
    have hea := (piped_end hne h0 h1 a _ _).mp ⟨ha, hp, hw⟩
    have heb := (piped_end hne h0 h1 b _ _).mp ⟨hb, rfl, rfl⟩
    have honce := h.once a b
    grind

end Piped

section Pipealloc

variable {t u : Tables} {r : Fin NFILE → Nat}

theorem filesAt_piped {f0 f1 : Fin NFILE} {q : Nat} (hne : f0 ≠ f1)
    (h0 : (u.file f0).type = .FD_NONE) (h1 : (u.file f1).type = .FD_NONE) (hr0 : r f0 ≠ 0)
    (hr1 : r f1 ≠ 0) :
    pipeRes L q (fun _ => true) * filesAt L t r u ≤
      filesAt L t r { u with file := piped u.file f0 f1 q } := by
  unfold filesAt filesRes
  rw [mul_left_comm]
  apply fact_mul_le
  rintro ⟨hu, hr⟩
  rw [mul_left_comm]
  apply fact_mul_le
  intro hok
  refine le_trans (pipe_mul_pipes_notMem q _ _) (fact_mul_le fun hq => ?_)
  refine le_fact_mul ⟨?_, fun g => ?_⟩ (le_fact_mul ?_ ?_)
  · rw [hu]
  · exact (piped_ref g).trans (hr g)
  · exact hok.piped hne h0 h1 (by rw [hr]; exact hr0) (by rw [hr]; exact hr1) hq
  · rw [pipesRes_insert hq, ← ends_piped hne h0 h1]

/-- `closeBoth` drops a reference to each of two files. -/
theorem does_close_two {γ : Type} {f0 f1 : Fin NFILE} {g : S γ} {Q : γ → Tables → Assn Nat Mem}
    (hne : f0 ≠ f1) (hr0 : r f0 = 1) (hr1 : r f1 = 1)
    (h : ∀ u, Does L 0 0 u
      (filesAt L t (update (update r f0 0) f1 0) u) g Q) :
    Does L 0 0 u (filesAt L t r u) (do fileclose L f0; fileclose L f1; g) Q := by
  refine Does.bind (does_fileclose (by omega)) fun _ u => ?_
  refine Does.bind (does_fileclose ?_) fun _ u => ?_
  · rw [update_of_ne hne.symm]
    omega
  · rw [update_of_ne hne.symm, hr0, hr1]
    exact h u

/-- The specification of `pipealloc` once it has both files. -/
def madePipe (L : Layout) (t : Tables) (r : Fin NFILE → Nat) :
    Option (Fin NFILE × Fin NFILE) → Tables → Assn Nat Mem
  | none, u => filesAt L t r u
  | some (f0, f1), u => fact (f0 ≠ f1 ∧ r f0 = 0 ∧ r f1 = 0) *
      filesAt L t (update (update r f0 1) f1 1) u

theorem does_pipeEnds {f0 f1 : Fin NFILE} (hne : f0 ≠ f1) (h0 : (u.file f0).type = .FD_NONE)
    (h1 : (u.file f1).type = .FD_NONE) (hr0 : r f0 = 0) (hr1 : r f1 = 0) :
    Does L 0 0 u (filesAt L t (update (update r f0 1) f1 1) u)
      (pipeEnds L f0 f1) (madePipe L t r) := by
  have hone0 : update (update r f0 1) f1 1 f0 = 1 := by
    rw [update_of_ne hne, update_self]
  have hone1 : update (update r f0 1) f1 1 f1 = 1 := update_self ..
  refine Does.vm_call (spec_kalloc 0) (one_mul _).symm fun q => ?_
  split
  case isTrue hq =>
    rw [hq, given_none, one_mul]
    apply does_close_two hne hone0 hone1
    intro u
    apply Does.ret
    have hback : update (update (update (update r f0 1) f1 1)
        f0 0) f1 0 = r := by
      funext g
      grind
    rw [hback]
    exact le_rfl
  case isFalse hq =>
    rw [given_of_ne hq]
    refine Does.vm_call (spec_initPipe q) rfl fun _ => ?_
    apply does_getFile
    apply does_setFile
    apply does_getFile
    apply does_setFile
    apply Does.ret
    refine le_trans (filesAt_piped hne h0 h1 (by rw [hone0]; decide) (by rw [hone1]; decide)) ?_
    refine le_fact_mul ⟨hne, hr0, hr1⟩ (le_of_eq ?_)
    congr 1
    simp only [Tables.setFile, piped, update_of_ne hne.symm]

theorem does_pipealloc : Does L 0 0 u (filesAt L t r u) (pipealloc L) (madePipe L t r) := by
  refine Does.bind does_filealloc fun x u0 => ?_
  cases x with
  | none => exact Does.of_fact fun _ => Does.ret le_rfl
  | some f0 =>
    apply Does.of_fact
    rintro ⟨⟨hr0, h0⟩, hu0⟩
    refine Does.bind does_filealloc fun y u1 => ?_
    cases y with
    | none =>
      apply Does.of_fact
      rintro rfl
      refine Does.bind (does_fileclose ?_) fun _ u => Does.ret ?_
      · rw [update_self]
        decide
      · rw [update_self, update_idem, Nat.sub_self, ← hr0, update_eq_self]
        exact le_rfl
    | some f1 =>
      apply Does.of_fact
      rintro ⟨⟨hr1, h1⟩, hu1⟩
      have hne : f0 ≠ f1 := by
        rintro rfl
        rw [update_self] at hr1
        exact Nat.one_ne_zero hr1
      rw [update_of_ne hne.symm] at hr1
      rw [hu0] at h1 hu1
      rw [hu1]
      apply does_pipeEnds hne _ _ hr0 hr1
      · show (update (update u.file f0 _) f1 _ f0).type = _
        rw [update_of_ne hne, update_self]
        exact h0
      · show (update (update u.file f0 _) f1 _ f1).type = _
        rw [update_self]
        exact h1

end Pipealloc

end Xv6.Vm
