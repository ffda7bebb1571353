import Xv6.Names.Dirs

/-!
# Path resolution

`walk` goes from directory to directory along the elements of a path; `target` is the inode that
`namei` or `nameiparent` has to find. `namex` finds it, gives back every reference that it takes on
the way, and leaves the inodes alone.
-/
namespace Xv6.Names

set_option autoImplicit false

open Lib.Hoare

/-- The inode that the entries of a directory give to a name. -/
def lookup (des : List Dirent) (e : List UInt8) : Option Nat :=
  (des.find? fun de => de.inum ≠ 0 ∧ text de.name = e).map (·.inum.toNat)

def walk (inode : Nat → Inode) : Nat → List (List UInt8) → Option Nat
  | n, [] => some n
  | n, e :: es =>
    if (inode n).type = .dir then (lookup (inode n).entries e).bind fun m => walk inode m es
    else none

/-- The inode at the end of a path; for `parent`, the directory of the last element. -/
def target (inode : Nat → Inode) (parent : Bool) (n : Nat) (es : List (List UInt8)) : Option Nat :=
  if parent then
    if es = [] then none
    else (walk inode n es.dropLast).filter fun m => (inode m).type = .dir
  else walk inode n es

section Reference

variable {inode : Nat → Inode} {parent : Bool} {n m : Nat} {e : List UInt8}
  {es : List (List UInt8)}

theorem lookup_of_findEntry {name : List UInt8} {des : List Dirent} :
    lookup des (text name) = (findEntry name des).bind fun off => des[off]?.map (·.inum.toNat) := by
  induction des with
  | nil => rfl
  | cons de des ih =>
    unfold lookup at ih ⊢
    simp only [findEntry, namecmp_eq_zero_iff, List.find?_cons]
    by_cases hhit : de.inum ≠ 0 ∧ text name = text de.name
    · rw [if_pos hhit]
      simp [hhit.1, hhit.2]
    · rw [if_neg hhit]
      have hmiss : ¬(de.inum ≠ 0 ∧ text de.name = text name) := fun h => hhit ⟨h.1, h.2.symm⟩
      simp only [hmiss, decide_false, ih]
      cases findEntry name des with
      | none => rfl
      | some off => rfl

theorem target_nil : target inode parent n [] = if parent then none else some n := by
  unfold target
  simp [walk]

theorem target_not_dir (h : (inode n).type ≠ .dir) : target inode parent n (e :: es) = none := by
  unfold target
  rw [walk, if_neg h]
  cases es with
  | nil => simp [walk, h]
  | cons e' es => simp [walk, h]

theorem target_last (h : (inode n).type = .dir) : target inode true n [e] = some n := by
  simp [target, walk, h]

theorem target_step (h : (inode n).type = .dir) (hne : ¬(parent = true ∧ es = [])) :
    target inode parent n (e :: es) =
      (lookup (inode n).entries e).bind fun m => target inode parent m es := by
  unfold target
  cases parent with
  | false => simp [walk, h]
  | true =>
    have hes : es ≠ [] := fun hes => hne ⟨rfl, hes⟩
    rw [List.dropLast_cons_of_ne_nil hes, walk, if_pos h]
    cases lookup (inode n).entries e with
    | none => simp
    | some m => simp [hes]

end Reference

/-- An inode at which a walk may stand: it is there, and a reference less does not free it. -/
structure Good (b : World) (inode : Nat → Inode) (ip : Id) (n : Nat) : Prop where
  sound : Sound inode
  type : (inode n).type ≠ .free
  kept : (inode n).nlink ≠ 0 ∨ baseRefs b ip ≠ 0

/-- The answer `r` of `namex` with the number of its inode. -/
def Res (b : World) (held : Held) (r : Option (Id × List UInt8)) (m : Option Nat) (t : World) : Prop :=
  (r = none ∧ m = none ∧ At b held t) ∨
    ∃ jp nm k, r = some (jp, nm) ∧ m = some k ∧ At b ((jp, k) ::ₘ held) t

/-- The answer is the one that the path asks for. -/
structure Found (b : World) (inode : Nat → Inode) (parent : Bool) (n : Nat) (path : List UInt8)
    (r : Option (Id × List UInt8)) (m : Option Nat) : Prop where
  target : m = target inode parent n (elements path)
  good : ∀ jp nm k, r = some (jp, nm) → m = some k → Good b inode jp k
  last : parent = true → ∀ jp nm, r = some (jp, nm) → (elements path).getLast? = some (text nm)

section Routines

variable {b w : World} {held : Held} {ip : Id} {n : Nat} {E : Panic → Prop}

/-- A walk that has failed gives back its reference. -/
theorem wp_iput_none (h : At b ((ip, n) ::ₘ held) w) {inode : Nat → Inode} (hinode : w.inode = inode)
    {parent : Bool} {path : List UInt8}
    (htarget : (0 : UInt8) ∉ path → target inode parent n (elements path) = none) :
    wp (iput ip >>= fun _ => pure none) (fun r t => ∃ m, Res b held r m t ∧
      (Good b inode ip n → (0 : UInt8) ∉ path →
        t.inode = inode ∧ Found b inode parent n path r m)) E w := by
  apply wp_call (wp_iput h)
  intro _ t ht
  obtain ⟨hat, -, hkept⟩ := ht
  rw [hinode] at hkept
  refine ⟨none, .inl ⟨rfl, rfl, hat⟩, ?_⟩
  intro hgood hzero
  refine ⟨hkept (hgood.kept.imp_right fun hne => by omega), (htarget hzero).symm, ?_, ?_⟩
  · intro jp nm k hr
    cases hr
  · intro _ jp nm hr
    cases hr

theorem wp_namexLoop (parent : Bool) (fuel : Nat) {path name : List UInt8}
    (h : At b ((ip, n) ::ₘ held) w) (hfuel : path.length < fuel)
    (hroom : Room b (held.card + 1) ∨ E .noInodes) (hgood : Good b w.inode ip n ∨ E .noType) :
    wp (namexLoop parent fuel ip path name) (fun r t => ∃ m, Res b held r m t ∧
      (Good b w.inode ip n → (0 : UInt8) ∉ path →
        t.inode = w.inode ∧ Found b w.inode parent n path r m)) E w := by
  induction fuel generalizing w ip n path name with
  | zero => exact absurd hfuel (Nat.not_lt_zero _)
  | succ fuel ih =>
    rw [namexLoop]
    cases hskip : skipelem path name with
    | none =>
      have hnil := skipelem_none hskip
      dsimp only
      apply wp_ite
      · intro hparent
        apply wp_iput_none h rfl
        intro _
        rw [hnil, target_nil, if_pos hparent]
      · intro hparent
        refine ⟨some n, .inr ⟨ip, name, n, rfl, rfl, h⟩, fun hg _ => ⟨rfl, ?_, ?_, ?_⟩⟩
        · rw [hnil, target_nil, if_neg hparent]
        · intro jp nm k hr hk
          cases hr
          cases hk
          exact hg
        · intro hp
          exact absurd hp hparent
    | some x =>
      obtain ⟨rest, nm⟩ := x
      obtain ⟨hlen, hsub, hend, helems⟩ := skipelem_some hskip
      dsimp only
      apply wp_call (wp_ilock h (Multiset.mem_cons_self _ _) (hgood.imp_left Good.type))
      intro i t ht
      obtain ⟨rfl, ht, hinode⟩ := ht
      apply wp_ite
      · intro hdir
        apply wp_iput_none ht hinode
        intro hzero
        rw [helems hzero, target_not_dir hdir]
      · intro hdir
        rw [not_not] at hdir
        apply wp_ite
        · intro hlast
          refine ⟨some n, .inr ⟨ip, nm, n, rfl, rfl, ht⟩, fun hg hzero => ⟨hinode, ?_, ?_, ?_⟩⟩
          · rw [helems hzero, hend.mpr hlast.2, hlast.1, target_last hdir]
          · intro jp nm' k hr hk
            cases hr
            cases hk
            exact hg
          · intro _ jp nm' hr
            cases hr
            rw [helems hzero, hend.mpr hlast.2]
            rfl
        · intro hnext
          have hes : ¬(parent = true ∧ elements rest = []) := by rwa [hend]
          apply wp_call (wp_dirlookup ht (Multiset.mem_cons_self _ _)
            (by rwa [Multiset.card_cons]) (.inl (by rw [hinode]; exact hdir)) nm)
          intro r u hu
          rw [hinode] at hu
          obtain ⟨hu, ⟨rfl, hfind, hat⟩ | ⟨next, off, de, rfl, hfind, hde, hlive, hat⟩⟩ := hu
          · apply wp_iput_none hat hu
            intro hzero
            rw [helems hzero, target_step hdir hes, lookup_of_findEntry, hfind]
            rfl
          · -- The entry is read before the reference to its directory is given back.
            have hswap : At b ((ip, n) ::ₘ (next, de.inum.toNat) ::ₘ held) u := by
              rwa [Multiset.cons_swap]
            dsimp only
            apply wp_call (wp_iput hswap)
            intro _ v hv
            obtain ⟨hv, -, hkept⟩ := hv
            rw [hu] at hkept
            have hsame : Good b w.inode ip n → v.inode = w.inode := fun hg =>
              hkept (hg.kept.imp_right fun hne => by omega)
            have hstep : Good b w.inode ip n → Good b v.inode next de.inum.toNat := by
              intro hg
              have hde' := hg.sound n hdir de (List.mem_of_getElem? hde) hlive
              rw [hsame hg]
              exact ⟨hg.sound, hde'.1, .inl hde'.2⟩
            have htarget : (0 : UInt8) ∉ path → target w.inode parent n (elements path) =
                target w.inode parent de.inum.toNat (elements rest) := by
              intro hzero
              rw [helems hzero, target_step hdir hes, lookup_of_findEntry, hfind]
              simp [hde]
            apply wp_mono _ (fun _ he => he)
              (ih hv (by omega) (hgood.imp_left hstep))
            intro r t' hr
            obtain ⟨m, hres, hfound⟩ := hr
            refine ⟨m, hres, fun hg hzero => ?_⟩
            obtain ⟨hi, hf⟩ := hfound (hstep hg) fun hz => hzero (hsub 0 hz)
            rw [hsame hg] at hi hf
            refine ⟨hi, ?_, hf.good, ?_⟩
            · rw [htarget hzero]
              exact hf.target
            · intro hp jp nm' hr
              have hl := hf.last hp jp nm' hr
              rw [helems hzero]
              cases hr' : elements rest with
              | nil => rw [hr'] at hl; cases hl
              | cons e es => rw [List.getLast?_cons_cons, ← hr', hl]

/-- The inode at which the walk of process `p` starts. -/
def start (w : World) (p : Pid) (path : List UInt8) : Nat :=
  if path.head? = some slash then ROOTINO
  else ((w.proc p).cwd.map fun cwd => (w.itable cwd).inum).getD 0

theorem baseRefs_cwd {p : Pid} {cwd : Id} (h : (w.proc p).cwd = some cwd) : baseRefs w cwd ≠ 0 := by
  have hle := Lib.le_sum (fun x : Proc => one cwd x.cwd) w.proc p
  rw [h, one_self] at hle
  unfold baseRefs
  omega

theorem wp_namexStart (h : At b held w) (hroom : Room b held.card ∨ E .noInodes) {p : Pid}
    (hcwd : (b.proc p).cwd ≠ none ∨ E .noCwd) (path : List UInt8) :
    wp (namexStart p path) (fun ip t => At b ((ip, start b p path) ::ₘ held) t ∧
      t.inode = w.inode ∧ (path.head? ≠ some slash → (b.proc p).cwd = some ip)) E w := by
  unfold namexStart start
  apply wp_ite
  · intro hslash
    rw [if_pos hslash]
    apply wp_mono _ (fun _ he => he) (wp_iget h hroom ROOTINO)
    intro ip t ht
    exact ⟨ht.1, ht.2, fun hne => absurd hslash hne⟩
  · intro hslash
    rw [if_neg hslash, wp_bind, wp_get, h.proc]
    cases hc : (b.proc p).cwd with
    | none => exact hcwd.resolve_left (not_not.mpr hc)
    | some cwd =>
      have hbase := baseRefs_cwd hc
      have hrefs := h.refs cwd
      apply wp_mono _ (fun _ he => he) (wp_idup h (by omega))
      intro ip t ht
      obtain ⟨rfl, hat, hinode⟩ := ht
      rw [h.base _ hbase] at hat
      exact ⟨hat, hinode, fun _ => rfl⟩

/-- The directories are in order for the walks of process `p`. -/
structure Ready (b : World) (inode : Nat → Inode) (p : Pid) : Prop where
  sound : Sound inode
  root : (inode ROOTINO).type ≠ .free ∧ (inode ROOTINO).nlink ≠ 0
  cwd : ∀ cwd, (b.proc p).cwd = some cwd → (inode (b.itable cwd).inum).type ≠ .free

theorem Ready.good {inode : Nat → Inode} {p : Pid} (h : Ready b inode p) {path : List UInt8}
    (hcwd : path.head? ≠ some slash → (b.proc p).cwd = some ip) :
    Good b inode ip (start b p path) := by
  unfold start
  by_cases hslash : path.head? = some slash
  · rw [if_pos hslash]
    exact ⟨h.sound, h.root.1, .inl h.root.2⟩
  · rw [if_neg hslash, hcwd hslash, Option.map_some, Option.getD_some]
    exact ⟨h.sound, h.cwd ip (hcwd hslash), .inr (baseRefs_cwd (hcwd hslash))⟩

theorem Room.mono {i j : Nat} (h : Room b j) (hij : i ≤ j) : Room b i := by
  unfold Room at h ⊢
  omega

theorem wp_namex (parent : Bool) (h : At b held w) (hroom : Room b (held.card + 1) ∨ E .noInodes)
    {p : Pid} (hcwd : (b.proc p).cwd ≠ none ∨ E .noCwd) (hready : Ready b w.inode p ∨ E .noType)
    (path name : List UInt8) :
    wp (namex p path parent name) (fun r t => ∃ m, Res b held r m t ∧
      (Ready b w.inode p → (0 : UInt8) ∉ path →
        t.inode = w.inode ∧ Found b w.inode parent (start b p path) path r m)) E w := by
  unfold namex
  apply wp_call (wp_namexStart h (hroom.imp_left fun hr => hr.mono (Nat.le_succ _)) hcwd path)
  intro ip t ht
  obtain ⟨hat, hinode, hstart⟩ := ht
  rw [← hinode] at hready ⊢
  apply wp_mono _ (fun _ he => he)
    (wp_namexLoop parent (path.length + 1) hat (Nat.lt_succ_self _) hroom
      (hready.imp_left fun hr => hr.good hstart))
  intro r u hu
  obtain ⟨m, hres, hfound⟩ := hu
  exact ⟨m, hres, fun hr hzero => hfound (hr.good hstart) hzero⟩

end Routines

end Xv6.Names
