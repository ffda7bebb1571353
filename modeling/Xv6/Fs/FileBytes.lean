import Xv6.Fs.Offset

/-!
# The content of a file is an array of bytes

`readi` and `writei` on inodes that are locked and in memory, with copies that succeed. A file
is abstracted to its first `size` bytes; what the calls do is said on these lists alone.
-/
namespace Xv6.Fs

set_option autoImplicit false

open Xv6.Lib Function

/-! ## Calls -/

/-- The disk, and the inodes in memory. -/
structure Inodes where
  io : Io
  mem : Nat → Dinode

/-- `writei` takes its bytes from `bytes`; `readi` copies to user memory if `user` is set, and
`copies` is what these copies do. -/
inductive ContentCall where
  | readi (inum : Nat) (user : Bool) (off n : Nat) (copies : List (List UInt8 × Bool))
  | writei (inum : Nat) (bytes : List UInt8) (off n : Nat)

/-- What a call returns, and what it has copied out. -/
abbrev Answer := Int × List UInt8

section Model

variable (sb : Superblock)

def callContent (s : Inodes) : ContentCall → Except Stop (Answer × Inodes)
  | .readi i user off n copies =>
    match exec (readi sb (s.mem i) user off n) { s.io with user := copies } with
    | .ok ((ip, r, bs), io) => .ok ((r, bs), ⟨io, update s.mem i ip⟩)
    | .error e => .error e
  | .writei i bytes off n =>
    match exec (writei sb i (s.mem i) (.kernel bytes) off n) { s.io with trans := true } with
    | .ok ((ip, r), io) =>
      .ok ((r, []), ⟨{ io with trans := false, logged := [] }, update s.mem i ip⟩)
    | .error e => .error e

def contentStep (s : Inodes) (c : ContentCall) : Option Inodes := (callContent sb s c).toOption.map Prod.snd

end Model

/-! ## Arrays -/

/-- The bytes `bs` put over those of `l` from `off` on. -/
def splice (l : List UInt8) (off : Nat) (bs : List UInt8) : List UInt8 :=
  l.take off ++ bs ++ l.drop (off + bs.length)

/-- The first `size` bytes. -/
def File.content (f : File) : List UInt8 := (List.range f.size).map f.byte

/-- What a call may do to the contents of the files; `full` says that no block is left. -/
def Allowed (c : Nat → List UInt8) (full : Prop) :
    ContentCall → Answer → (Nat → List UInt8) → Prop
  | .readi i _ off n _, r, c' =>
    c' = c ∧ r = (((((c i).drop off).take n).length : Int), ((c i).drop off).take n)
  | .writei i bytes off n, r, c' =>
    if (c i).length < off ∨ MAXFILE * BSIZE < off + n then r = (-1, []) ∧ c' = c
    else ∃ tot ≤ n, r = ((tot : Int), []) ∧ (tot = n ∨ full) ∧
      c' = update c i (splice (c i) off (bytes.take tot))

section

variable {f : File} {off : Nat} {bs : List UInt8}

@[simp] theorem length_content : f.content.length = f.size := by
  simp [File.content]

theorem getElem?_content (k : Nat) :
    f.content[k]? = if k < f.size then some (f.byte k) else none := by
  rw [File.content, List.getElem?_map]
  split
  next h => rw [List.getElem?_range h, Option.map_some]
  next h => rw [List.getElem?_eq_none (by simpa using h), Option.map_none]

theorem getElem?_splice {l : List UInt8} (h : off ≤ l.length) (k : Nat) :
    (splice l off bs)[k]? =
      if off ≤ k ∧ k < off + bs.length then bs[k - off]? else l[k]? := by
  have hlen : (l.take off).length = off := by
    rw [List.length_take, min_eq_left h]
  rw [splice, List.append_assoc]
  by_cases hlo : k < off
  · rw [List.getElem?_append_left (by omega), List.getElem?_take_of_lt hlo, if_neg (by omega)]
  · rw [List.getElem?_append_right (by omega), hlen]
    by_cases hhi : k - off < bs.length
    · rw [List.getElem?_append_left hhi, if_pos (by omega)]
    · rw [List.getElem?_append_right (by omega), List.getElem?_drop, if_neg (by omega)]
      congr 1
      omega

/-- A write puts its bytes over those of the array. -/
theorem content_put (h : off ≤ f.size) : (f.put off bs).content = splice f.content off bs := by
  refine List.ext_getElem? fun k => ?_
  rw [getElem?_content, getElem?_splice (by rwa [length_content]), getElem?_content]
  unfold File.put
  dsimp only
  by_cases hin : off ≤ k ∧ k < off + bs.length
  · rw [if_pos hin, if_pos (by omega), if_pos hin, List.getD_eq_getElem?_getD,
      List.getElem?_eq_getElem (by omega), Option.getD_some]
  · rw [if_neg hin, if_neg hin]
    by_cases hk : k < f.size
    · rw [if_pos hk, if_pos (by omega)]
    · rw [if_neg hk, if_neg (by omega)]

theorem length_readLen {n : Nat} (hw : off + n < 2 ^ 32) :
    readLen f.size off n = ((f.content.drop off).take n).length := by
  rw [List.length_take, List.length_drop, length_content, readLen, Nat.mod_eq_of_lt hw]
  split
  · omega
  · split <;> omega

/-- `readi` reads a slice of the array. -/
theorem bytes_eq_slice {V : View} {i n : Nat} (hw : off + n < 2 ^ 32) :
    V.bytes i off (readLen (V.din i).size off n) = ((V.file i).content.drop off).take n := by
  have hlen : readLen (V.din i).size off n = (((V.file i).content.drop off).take n).length :=
    length_readLen (f := V.file i) hw
  refine List.ext_getElem (by simp [View.bytes, hlen]) fun k h1 h2 => ?_
  simp [View.bytes, File.content, View.file]

end

/-! ## One call -/

/-- Every block of file `i` up to its size is there. -/
def View.Whole (V : View) (i : Nat) : Prop := ∀ bn, bn * BSIZE < (V.din i).size → V.fileBlock i bn ≠ 0

/-- The bitmap is exact, and the inodes in `I` are allocated, without holes and in memory. -/
structure Sound (sb : Superblock) (I : Nat → Prop) (s : Inodes) : Prop where
  bitmap : Bitmap sb (view sb s.io.disk)
  range : ∀ i, I i → i < sb.ninodes
  type : ∀ i, I i → ((view sb s.io.disk).din i).type ≠ 0
  whole : ∀ i, I i → (view sb s.io.disk).Whole i
  clean : ∀ i, I i → s.mem i = (view sb s.io.disk).din i

def contents (sb : Superblock) (s : Inodes) (i : Nat) : List UInt8 :=
  ((view sb s.io.disk).file i).content

/-- Calls on inodes in `I`, with 32-bit offsets and counts that do not wrap, whose copies succeed. -/
def ContentCall.Ok (I : Nat → Prop) : ContentCall → Prop
  | .readi i _ off n copies => I i ∧ off + n < 2 ^ 32 ∧ ∀ c ∈ copies, c.2 = true
  | .writei i bytes off n => I i ∧ off + n < 2 ^ 32 ∧ n ≤ bytes.length

section

variable {sb : Superblock} {I : Nat → Prop} {s : Inodes}

theorem Puts.whole {V V' : View} {i j off : Nat} {bs : List UInt8} (h : Puts sb i off bs V V')
    (hj : V.Whole j) (hoff : off ≤ (V.din i).size) : V'.Whole j := by
  intro bn hs
  by_cases hold : bn * BSIZE < (V.din j).size
  · have hr := hj bn hold
    exact h.keep j bn hr ▸ hr
  by_cases hji : j = i
  · subst hji
    rw [h.size, lt_max_iff] at hs
    have hm := h.mapped (bn * BSIZE - off) (by omega)
    rwa [show off + (bn * BSIZE - off) = bn * BSIZE by omega, Nat.mul_div_cancel _ (by decide)] at hm
  · rw [h.other j hji] at hs
    exact absurd hs hold

theorem Sound.congr (h : Sound sb I s) {io : Io} (hdisk : io.disk = s.io.disk) :
    Sound sb I ⟨io, s.mem⟩ :=
  ⟨hdisk ▸ h.bitmap, h.range, hdisk ▸ h.type, hdisk ▸ h.whole, hdisk ▸ h.clean⟩

theorem sound_readi (h : Sound sb I s) {i off n : Nat} (user : Bool)
    {copies : List (List UInt8 × Bool)} (hi : I i) (hw : off + n < 2 ^ 32)
    (hc : ∀ c ∈ copies, c.2 = true) :
    ∃ r t, callContent sb s (.readi i user off n copies) = .ok (r, t) ∧ Sound sb I t ∧
      contents sb t = contents sb s ∧
      r = (((((contents sb s i).drop off).take n).length : Int), ((contents sb s i).drop off).take n) := by
  have hclean := h.clean i hi
  have hbm : Bitmap sb (memView sb s.io.disk i (s.mem i)) := by
    rw [hclean, memView_self]
    exact h.bitmap
  have hruns : Runs sb (fun _ => False) (readi sb (s.mem i) user off n)
      (fun x t => x.1 = s.mem i ∧ t.disk = s.io.disk ∧
        x.2.1 = (((contents sb s i).drop off).take n).length ∧
        x.2.2 = ((contents sb s i).drop off).take n) { s.io with user := copies } := by
    refine runs_readi (s := { s.io with user := copies }) (i := i) hbm (fun bn hbn => ?_) (fun us _ => ?_) fun _ hbad => ?_
    · dsimp only
      rw [hclean, memView_self]
      exact h.whole i hi bn (hclean ▸ hbn)
    · refine ⟨rfl, rfl, ?_, ?_⟩
      · rw [hclean]
        exact congrArg Nat.cast (length_readLen (f := (view sb s.io.disk).file i) hw)
      · dsimp only
        rw [hclean, memView_self]
        exact bytes_eq_slice hw
    · obtain ⟨c, hmem, hfalse⟩ := hbad
      rw [hc c hmem] at hfalse
      cases hfalse
  rcases hruns.elim with ⟨⟨ip, r, bs⟩, io, he, hip, hdisk, hr, hbs⟩ | ⟨_, -, hfalse⟩
  · dsimp only at hip hdisk hr hbs
    subst hip hr hbs
    refine ⟨_, _, by rw [callContent, he], ?_, ?_, rfl⟩
    · rw [update_eq_self]
      exact h.congr hdisk
    · unfold contents
      dsimp only
      rw [hdisk]
  · exact hfalse.elim

theorem sound_writei (hg : Geometry sb) (h : Sound sb I s) {i off n : Nat} {bytes : List UInt8}
    (hi : I i) (hw : off + n < 2 ^ 32) (hn : n ≤ bytes.length) :
    ∃ r t, callContent sb s (.writei i bytes off n) = .ok (r, t) ∧ Sound sb I t ∧
      Allowed (contents sb s) ((view sb t.io.disk).free sb = 0) (.writei i bytes off n) r
        (contents sb t) := by
  have hclean := h.clean i hi
  have hlen : (contents sb s i).length = ((view sb s.io.disk).din i).size := length_content
  have hruns : Runs sb (fun _ => False) (writei sb i (s.mem i) (.kernel bytes) off n)
      (fun x t => x.1 = (view sb t.disk).din i ∧
        ((x.2 = -1 ∧ t.disk = s.io.disk ∧
          ((contents sb s i).length < off ∨ MAXFILE * BSIZE < off + n)) ∨
        ∃ m ≤ n, x.2 = m ∧ ¬((contents sb s i).length < off ∨ MAXFILE * BSIZE < off + n) ∧
          Puts sb i off (bytes.take m) (view sb s.io.disk) (view sb t.disk) ∧
          (m = n ∨ (view sb t.disk).free sb = 0))) { s.io with trans := true } := by
    rw [hclean, hlen]
    refine runs_writei_kernel (s := { s.io with trans := true })
      (S := (Finset.range (off + n)).biUnion fun o => slotsFor (o / BSIZE)) hg (h.range i hi) rfl
      h.bitmap (h.type i hi) hn (fun o _ ho => ?_) (fun hbad => ?_)
      fun hoff hmax t _ m hm hputs hend _ _ _ _ => ?_
    · exact Finset.subset_biUnion_of_mem (fun o => slotsFor (o / BSIZE)) (Finset.mem_range.mpr ho)
    · rw [Nat.mod_eq_of_lt hw] at hbad
      exact ⟨rfl, .inl ⟨rfl, rfl, hbad.imp_right (·.resolve_left (by omega))⟩⟩
    · dsimp only at hoff
      exact ⟨rfl, .inr ⟨m, hm, rfl, by omega, hputs, hend.imp_right And.right⟩⟩
  rcases hruns.elim with ⟨⟨ip, r⟩, io, he, hip, hres⟩ | ⟨_, -, hfalse⟩
  · dsimp only at hip hres
    subst hip
    refine ⟨(r, []), _, by rw [callContent, he], ?_⟩
    rcases hres with ⟨rfl, hdisk, hbad⟩ | ⟨m, hm, rfl, hok, hputs, hend⟩
    · have hsame : update s.mem i ((view sb io.disk).din i) = s.mem := by
        rw [hdisk, ← hclean, update_eq_self]
      rw [hsame]
      refine ⟨?_, ?_⟩
      · exact h.congr hdisk
      · rw [Allowed, if_pos hbad]
        refine ⟨rfl, ?_⟩
        unfold contents
        dsimp only
        rw [hdisk]
    · have hoff : off ≤ ((view sb s.io.disk).din i).size := by omega
      refine ⟨⟨hputs.bitmap, h.range, fun j hj => ?_, fun j hj => ?_, fun j hj => ?_⟩, ?_⟩
      · rw [hputs.type]
        exact h.type j hj
      · exact hputs.whole (h.whole j hj) hoff
      · by_cases hji : j = i
        · subst hji
          exact update_self ..
        · exact (update_of_ne hji ..).trans ((h.clean j hj).trans (hputs.other j hji).symm)
      · rw [Allowed, if_neg hok]
        refine ⟨m, hm, rfl, hend, ?_⟩
        funext j
        change ((view sb io.disk).file j).content = _
        rw [hputs.file]
        by_cases hji : j = i
        · subst hji
          rw [update_self, update_self]
          exact content_put hoff
        · rw [update_of_ne hji, update_of_ne hji]
          rfl
  · exact hfalse.elim

theorem Sound.call (hg : Geometry sb) (h : Sound sb I s) {c : ContentCall} (hc : c.Ok I) :
    ∃ r t, callContent sb s c = .ok (r, t) ∧ Sound sb I t ∧
      Allowed (contents sb s) ((view sb t.io.disk).free sb = 0) c r (contents sb t) := by
  cases c with
  | readi i user off n copies =>
    obtain ⟨r, t, he, ht, hsame, hr⟩ := sound_readi h user hc.1 hc.2.1 hc.2.2
    exact ⟨r, t, he, ht, hsame, hr⟩
  | writei i bytes off n => exact sound_writei hg h hc.1 hc.2.1 hc.2.2

theorem Sound.run (hg : Geometry sb) {cs : List ContentCall} (h : Sound sb I s)
    (hcs : ∀ c ∈ cs, c.Ok I) : ∃ t, run (contentStep sb) s cs = some t ∧ Sound sb I t := by
  induction cs generalizing s with
  | nil => exact ⟨s, rfl, h⟩
  | cons c cs ih =>
    obtain ⟨r, t, he, ht, -⟩ := h.call hg (hcs c List.mem_cons_self)
    obtain ⟨u, hu, hsound⟩ := ih ht fun c' hc' => hcs c' (List.mem_cons_of_mem _ hc')
    refine ⟨u, ?_, hsound⟩
    rw [run_cons, contentStep, he]
    exact hu

end

/-! ## The result -/

end Xv6.Fs
