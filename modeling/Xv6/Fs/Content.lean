import Xv6.Fs.Inodes
import Mathlib.Data.List.GetD

/-!
# Reading and writing the content of an inode
-/
namespace Xv6.Fs

set_option autoImplicit false

open Xv6.Lib Xv6.Lib.Prog Function

variable {sb : Superblock} {E : Stop → Prop} {s : Io} {i bn : Nat} {ip : Dinode}

/-! ## `readi` -/

theorem fileBlock_lt {V : View} (h : V.fileBlock i bn ≠ 0) : bn < MAXFILE := by
  by_contra hge
  rw [MAXFILE] at hge
  refine h ?_
  rw [View.fileBlock, slotOf, if_neg (by omega), View.ref]
  simp only [Dinode.ref]
  rw [if_pos (.inr (.inr (by omega)))]

theorem type_of_fileBlock {V : View} (h : V.fileBlock i bn ≠ 0) : (V.din i).type ≠ 0 := by
  intro h0
  refine h ?_
  rw [View.fileBlock, View.ref]
  cases slotOf bn <;> simp [Dinode.ref, h0]

/-- A block that is there is found without a change, also outside of transactions. -/
theorem runs_bmap_mapped (hbm : Bitmap sb (memView sb s.disk i ip))
    (hm : (memView sb s.disk i ip).fileBlock i bn ≠ 0) {Q : Dinode × Nat → Io → Prop}
    (h : Q (ip, (memView sb s.disk i ip).fileBlock i bn) s) : Runs sb E (bmap sb ip bn) Q s := by
  have ht : ip.type ≠ 0 := by
    have := type_of_fileBlock hm
    rwa [memView_din] at this
  have hlt := fileBlock_lt hm
  unfold bmap
  refine .ite (fun hd => ?_) fun hge => .ite (fun hj => ?_) fun hge' => ?_
  · rw [fileBlock_direct hd ht] at hm h
    unfold bmapAddr
    exact .ite (absurd · hm) fun _ => .pure h
  · have hnf := not_free_ref hbm (σ := .addr NDIRECT)
    rw [View.ref, memView_din, ref_addr ht] at hnf
    rw [fileBlock_indirect hge] at hm h
    have hind : ip.addr NDIRECT ≠ 0 := by
      intro h0
      rw [View.ref, memView_din, ref_entry_of_zero h0] at hm
      exact hm rfl
    have hdata : IsData sb (ip.addr NDIRECT) := by
      have := hbm.data (i := i) (σ := .addr NDIRECT)
      rw [View.ref, memView_din, ref_addr ht] at this
      exact this hind
    have hent : (memView sb s.disk i ip).ref i (.entry (bn - NDIRECT)) =
        entry (s.disk (ip.addr NDIRECT)) (bn - NDIRECT) := by
      rw [View.ref, memView_din, ref_entry ht hind hj]
      exact congrArg (entry · _) (view_blk hdata)
    rw [hent] at hm h
    rw [bmapAddr, if_neg hind]
    refine .bind (.pure ?_)
    refine .ite (absurd · hind) fun _ => .bind ?_
    rw [bmapEntry]
    refine runs_bread (runs_load (hnf hind) ?_)
    exact .ite (absurd · hm) fun _ => runs_brelse (.pure (.pure h))
  · rw [MAXFILE] at hlt
    omega

/-- The bytes of file `i` from `off` on. -/
def View.bytes (V : View) (i off n : Nat) : List UInt8 :=
  (List.range n).map fun k => V.byte i (off + k)

theorem bytes_add (V : View) (off m n : Nat) :
    V.bytes i off (m + n) = V.bytes i off m ++ V.bytes i (off + m) n := by
  rw [View.bytes, List.range_add, List.map_append, List.map_map]
  congr 1
  refine List.map_congr_left fun k _ => ?_
  simp [Nat.add_assoc]

/-- The part of a file that lies in one block. -/
theorem bytesAt_eq (hbm : Bitmap sb (memView sb s.disk i ip)) {off m : Nat}
    (hm : (memView sb s.disk i ip).fileBlock i (off / BSIZE) ≠ 0) (hfit : off % BSIZE + m ≤ BSIZE) :
    bytesAt (s.disk ((memView sb s.disk i ip).fileBlock i (off / BSIZE))) (off % BSIZE) m =
      (memView sb s.disk i ip).bytes i off m := by
  have hB : BSIZE = 1024 := rfl
  refine List.map_congr_left fun k hk => ?_
  rw [List.mem_range] at hk
  have hdiv : (off + k) / BSIZE = off / BSIZE := by
    rw [hB] at hfit ⊢
    omega
  have hmod : (off + k) % BSIZE = off % BSIZE + k := by
    rw [hB] at hfit ⊢
    omega
  rw [View.byte, hdiv, hmod, if_neg hm]
  exact congrArg (Block.mem · _) (view_blk (hbm.data hm)).symm

/-- The loop of `readi` over a part of the file that is there. -/
theorem runs_readiLoop (hbm : Bitmap sb (memView sb s.disk i ip)) {user : Bool} {n : Nat}
    {Q : Dinode × Int × List UInt8 → Io → Prop} (fuel tot off : Nat) (acc : List UInt8)
    (hfuel : n - tot ≤ fuel) (htot : tot ≤ n)
    (hm : ∀ bn, bn * BSIZE < off + (n - tot) → (memView sb s.disk i ip).fileBlock i bn ≠ 0)
    (hok : ∀ us, (user = false → us = s.user) →
      Q (ip, n, acc ++ (memView sb s.disk i ip).bytes i off (n - tot)) { s with user := us })
    (hbad : user = true → (∃ c ∈ s.user, c.2 = false) → ∀ us bs, Q (ip, -1, bs) { s with user := us }) :
    Runs sb E (readiLoop sb user n fuel ip tot off acc) Q s := by
  induction fuel generalizing tot off acc s with
  | zero =>
    obtain rfl : tot = n := by omega
    have hq := hok s.user fun _ => rfl
    rw [Nat.sub_self] at hq
    exact .pure ((List.append_nil acc) ▸ hq)
  | succ fuel ih =>
    rw [readiLoop]
    refine .ite (fun hlt => ?_) fun hge => ?_
    · have hdiv : off / BSIZE * BSIZE ≤ off := Nat.div_mul_le_self ..
      have hmod : off % BSIZE < BSIZE := Nat.mod_lt _ (by decide)
      have hoff : (memView sb s.disk i ip).fileBlock i (off / BSIZE) ≠ 0 := hm _ (by omega)
      refine .bind ?_
      refine runs_bmap_mapped hbm hoff ?_
      refine .ite (fun h0 => absurd h0 hoff) fun _ => ?_
      refine runs_bread (runs_load (not_free_ref hbm hoff) ?_)
      generalize hmin : min (n - tot) (BSIZE - off % BSIZE) = m
      have hmpos : 0 < m := by omega
      have hrest : n - tot = m + (n - (tot + m)) := by omega
      have hacc : ∀ us, (user = false → us = s.user) →
          Q (ip, n, (acc ++ bytesAt (s.disk ((memView sb s.disk i ip).fileBlock i (off / BSIZE)))
            (off % BSIZE) m) ++ (memView sb s.disk i ip).bytes i (off + m) (n - (tot + m)))
            { s with user := us } := by
        intro us hus
        have hq := hok us hus
        rw [hrest, bytes_add, ← List.append_assoc] at hq
        rw [bytesAt_eq hbm hoff (by omega)]
        exact hq
      cases user with
      | false =>
        refine .bind (.pure (runs_brelse ?_))
        refine ih hbm (tot + m) (off + m) _ (by omega) (by omega) ?_ hacc nofun
        exact fun bn hbn => hm bn (by omega)
      | true =>
        refine runs_copyout (runs_brelse (.ite (fun hgood => ?_) fun hgood => .pure ?_))
        · refine ih (s := s.next) hbm (tot + m) (off + m) _ (by omega) (by omega) ?_ ?_ ?_
          · exact fun bn hbn => hm bn (by omega)
          · exact fun us _ => hacc us nofun
          · rintro _ ⟨c, hc, hfalse⟩
            exact hbad rfl ⟨c, List.mem_of_mem_tail hc, hfalse⟩
        · exact hbad rfl (s.exists_bad hgood) _ _
    · obtain rfl : tot = n := by omega
      have hq := hok s.user fun _ => rfl
      rw [Nat.sub_self] at hq
      exact .pure ((List.append_nil acc) ▸ hq)

/-- How many bytes `readi` reads of a file of `size` bytes. -/
def readLen (size off n : Nat) : Nat :=
  if size < off ∨ (off + n) % 2 ^ 32 < off then 0 else if size < off + n then size - off else n

/-- A file without holes is read without a change. -/
theorem runs_readi (hbm : Bitmap sb (memView sb s.disk i ip)) {user : Bool} {off n : Nat}
    (hm : ∀ bn, bn * BSIZE < ip.size → (memView sb s.disk i ip).fileBlock i bn ≠ 0)
    {Q : Dinode × Int × List UInt8 → Io → Prop}
    (hok : ∀ us, (user = false → us = s.user) → Q (ip, readLen ip.size off n,
      (memView sb s.disk i ip).bytes i off (readLen ip.size off n)) { s with user := us })
    (hbad : user = true → (∃ c ∈ s.user, c.2 = false) → ∀ us bs, Q (ip, -1, bs) { s with user := us }) :
    Runs sb E (readi sb ip user off n) Q s := by
  unfold readi
  unfold readLen at hok
  refine .ite (fun h0 => ?_) fun h0 => ?_
  · rw [if_pos h0] at hok
    exact .pure (hok s.user fun _ => rfl)
  · rw [if_neg h0] at hok
    rw [not_or, Nat.not_lt] at h0
    generalize hlen : (if ip.size < off + n then ip.size - off else n) = len at hok ⊢
    have hle : off + len ≤ ip.size := by
      rw [← hlen]
      split <;> omega
    refine runs_readiLoop hbm len 0 off [] (by omega) (by omega) ?_ hok hbad
    exact fun bn hbn => hm bn (by omega)

/-! ## `writei` -/

/-- From `V` to `V'` file `i` has been written between `lo` and `hi`, and blocks have been
added to it. -/
structure Writes (sb : Superblock) (i lo hi : Nat) (V V' : View) : Prop where
  bitmap : Bitmap sb V'
  other : ∀ j ≠ i, V'.din j = V.din j
  same : ∃ as, V'.din i = { V.din i with addrs := as }
  byte : ∀ j off, j ≠ i ∨ off < lo ∨ hi ≤ off → V'.byte j off = V.byte j off
  keep : ∀ j bn, V.fileBlock j bn ≠ 0 → V'.fileBlock j bn = V.fileBlock j bn

section

variable {V V' V'' : View} {lo hi lo' hi' : Nat}

theorem Grows.writes (h : Grows sb i V V') : Writes sb i lo hi V V' :=
  ⟨h.bitmap, h.other, h.same, fun _ _ _ => by rw [h.byte], h.keep⟩

theorem Writes.trans (h : Writes sb i lo hi V V') (h' : Writes sb i lo' hi' V' V'')
    (hlo : lo ≤ lo') (hhi : hi' ≤ hi) : Writes sb i lo hi V V'' where
  bitmap := h'.bitmap
  other j hj := (h'.other j hj).trans (h.other j hj)
  same := by
    obtain ⟨as, ha⟩ := h.same
    obtain ⟨as', ha'⟩ := h'.same
    exact ⟨as', by rw [ha', ha]⟩
  byte j off ho := (h'.byte j off (by omega)).trans (h.byte j off ho)
  keep j bn hr := by
    have hk := h.keep j bn hr
    exact (h'.keep j bn (hk ▸ hr)).trans hk

theorem Writes.mono (h : Writes sb i lo' hi' V V') (hlo : lo ≤ lo') (hhi : hi' ≤ hi) :
    Writes sb i lo hi V V' :=
  { h with byte := fun j off ho => h.byte j off (by omega) }

theorem putBytes_of_outside {x : Block} {off k : Nat} {bs : List UInt8}
    (h : k < off ∨ off + bs.length ≤ k) : (putBytes x off bs).mem k = x.mem k := by
  unfold Block.mem
  split
  · refine if_neg ?_
    simp only
    omega
  · rfl

/-- Bytes that are stored into one block of the file. -/
theorem writes_putBytes (h : Bitmap sb V) {off m : Nat} {bs : List UInt8}
    (hr : V.fileBlock i (off / BSIZE) ≠ 0) (hlen : bs.length ≤ m) :
    Writes sb i off (off + m) V (V.setBlk (V.fileBlock i (off / BSIZE))
      (putBytes (V.blk (V.fileBlock i (off / BSIZE))) (off % BSIZE) bs)) where
  bitmap := by
    rw [Bitmap, h.refs_setBlk hr]
    exact h
  other _ _ := rfl
  same := ⟨_, rfl⟩
  byte j o ho := by
    have hB : BSIZE = 1024 := rfl
    rw [h.byte_setBlk hr]
    split
    · rename_i hc
      obtain ⟨rfl, ho'⟩ := hc
      rw [View.byte, ho', if_neg hr]
      refine putBytes_of_outside ?_
      rw [hB] at ho' ⊢
      omega
    · rfl
  keep j bn _ := congrFun (h.refs_setBlk hr) (j, slotOf bn)

end

/-- The block of the file that the buffer holds gets the bytes. -/
theorem memView_putBytes (hg : Geometry sb) (hbm : Bitmap sb (memView sb s.disk i ip))
    (hm : (memView sb s.disk i ip).fileBlock i bn ≠ 0) (off : Nat) (bs : List UInt8) :
    memView sb (update s.disk ((memView sb s.disk i ip).fileBlock i bn)
        (putBytes (s.disk ((memView sb s.disk i ip).fileBlock i bn)) off bs)) i ip =
      (memView sb s.disk i ip).setBlk ((memView sb s.disk i ip).fileBlock i bn)
        (putBytes ((memView sb s.disk i ip).blk ((memView sb s.disk i ip).fileBlock i bn)) off bs) := by
  have hdata : IsData sb ((memView sb s.disk i ip).fileBlock i bn) := hbm.data hm
  have hblk : (memView sb s.disk i ip).blk ((memView sb s.disk i ip).fileBlock i bn) =
      s.disk ((memView sb s.disk i ip).fileBlock i bn) := view_blk hdata
  rw [hblk]
  generalize putBytes (s.disk ((memView sb s.disk i ip).fileBlock i bn)) off bs = x
  change (view sb (update s.disk _ x)).setDin i ip = _
  rw [view_data hg hdata]
  rfl

theorem Bitmap.addrs_lt {V : View} (h : Bitmap sb V) (hg : Geometry sb)
    (ht : (V.din i).type ≠ 0) (k : Fin (NDIRECT + 1)) : (V.din i).addrs k < 2 ^ 32 := by
  have hk : V.ref i (.addr k) = (V.din i).addrs k := (ref_addr ht).trans (dif_pos k.isLt)
  have hs := hg.size
  by_cases h0 : V.ref i (.addr k) = 0
  · rw [← hk, h0]
    decide
  · have := (h.data h0).2
    omega

theorem view_fits (d : Disk) (i : Nat) : ((view sb d).din i).Fits := by
  by_cases hi : i < sb.ninodes
  · rw [view_din hi]
    exact getDinode_fits ..
  · simp only [view, if_neg hi]
    exact fresh_fits (by decide)

def Dinode.resize (d : Dinode) (n : Nat) : Dinode := { d with size := n }

@[simp] theorem Dinode.resize_size {d : Dinode} {n : Nat} : (d.resize n).size = n := rfl

@[simp] theorem Dinode.resize_type {d : Dinode} {n : Nat} : (d.resize n).type = d.type := rfl

/-- The end of `writei`: the inode is written back with the larger size. -/
theorem runs_writeBack (hg : Geometry sb) (hi : i < sb.ninodes) (htr : s.trans = true) {off : Nat}
    {r : Int} {Q : Dinode × Int → Io → Prop} (hbm : Bitmap sb (memView sb s.disk i ip))
    (ht : ip.type ≠ 0) (hip : ∃ as, Dinode.Fits { ip with addrs := as }) (hoff : off < 2 ^ 32)
    (h : ∀ t, view sb t.disk = memView sb s.disk i (ip.resize (max ip.size off)) →
      Saves (fun c => c = IBLOCK sb i) s t → Q (ip.resize (max ip.size off), r) t) :
    Runs sb E (do
      iupdate sb i (if ip.size < off then { ip with size := off } else ip)
      pure (if ip.size < off then { ip with size := off } else ip, r)) Q s := by
  have hsize : (if ip.size < off then { ip with size := off } else ip) =
      ip.resize (max ip.size off) := by
    unfold Dinode.resize
    split
    · rw [max_eq_right (by omega)]
    · rw [max_eq_left (by omega)]
  have hfits : (ip.resize (max ip.size off)).Fits := by
    obtain ⟨as, ha⟩ := hip
    refine ⟨ha.type, ha.major, ha.minor, ha.nlink, max_lt ha.size hoff, ?_⟩
    have := hbm.addrs_lt (i := i) hg
    rw [memView_din] at this
    exact this ht
  rw [hsize]
  exact .bind (runs_iupdate hg hi hfits htr fun t ht hs => .pure (h t ht hs))

section

variable {V V' : View} {lo hi : Nat}

/-- The view of a file that was written, once it has its new size. -/
theorem Writes.resize (h : Writes sb i lo hi V V') (n : Nat) :
    Bitmap sb (V'.setDin i ((V'.din i).resize n)) ∧
      (V'.setDin i ((V'.din i).resize n)).refs = V'.refs ∧
      (V'.setDin i ((V'.din i).resize n)).byte = V'.byte := by
  have hrefs : (V'.setDin i ((V'.din i).resize n)).refs = V'.refs := refs_setDin rfl rfl
  refine ⟨?_, hrefs, byte_congr hrefs rfl⟩
  rw [Bitmap, hrefs]
  exact h.bitmap

end

/-! ## `writei` of given bytes -/

/-- From `V` to `V'` the bytes `bs` have been stored in file `i` from `off` on. -/
structure Stores (sb : Superblock) (i off : Nat) (bs : List UInt8) (V V' : View) : Prop extends
    Writes sb i off (off + bs.length) V V' where
  stored : ∀ k < bs.length, V'.byte i (off + k) = bs.getD k 0
  mapped : ∀ k < bs.length, V'.fileBlock i ((off + k) / BSIZE) ≠ 0

section

variable {V V' V'' : View} {off : Nat} {bs cs : List UInt8}

theorem Grows.stores (h : Grows sb i V V') : Stores sb i off [] V V' :=
  { h.writes with
    stored := fun _ hk => absurd hk (Nat.not_lt_zero _)
    mapped := fun _ hk => absurd hk (Nat.not_lt_zero _) }

theorem Grows.trans_stores (h : Grows sb i V V') (h' : Stores sb i off bs V' V'') :
    Stores sb i off bs V V'' :=
  { h.writes.trans h'.toWrites le_rfl le_rfl with stored := h'.stored, mapped := h'.mapped }

theorem Stores.trans (h : Stores sb i off bs V V') (h' : Stores sb i (off + bs.length) cs V' V'') :
    Stores sb i off (bs ++ cs) V V'' := by
  have hlen : (bs ++ cs).length = bs.length + cs.length := List.length_append
  have hw : Writes sb i off (off + (bs ++ cs).length) V V'' := by
    refine (h.toWrites.mono le_rfl ?_).trans h'.toWrites ?_ ?_ <;> omega
  refine { hw with stored := fun k hk => ?_, mapped := fun k hk => ?_ }
  · by_cases hlt : k < bs.length
    · rw [h'.byte i (off + k) (by omega), h.stored k hlt, List.getD_append _ _ _ _ hlt]
    · have hs := h'.stored (k - bs.length) (by omega)
      rw [show off + bs.length + (k - bs.length) = off + k by omega] at hs
      rw [hs, List.getD_append_right _ _ _ _ (by omega)]
  · by_cases hlt : k < bs.length
    · have hm := h.mapped k hlt
      rw [h'.keep i _ hm]
      exact hm
    · have hm := h'.mapped (k - bs.length) (by omega)
      rw [show off + bs.length + (k - bs.length) = off + k by omega] at hm
      exact hm

theorem putBytes_of_inside {x : Block} {k : Nat} (hk : k < bs.length) (hfit : off + bs.length ≤ BSIZE) :
    (putBytes x off bs).mem (off + k) = bs.getD k 0 := by
  have hlt : off + k < BSIZE := by omega
  have hin : off ≤ off + k ∧ off + k < off + bs.length := ⟨Nat.le_add_right _ _, by omega⟩
  rw [mem_eq hlt, putBytes, if_pos hin, Nat.add_sub_cancel_left]

theorem stores_putBytes (h : Bitmap sb V) (hr : V.fileBlock i (off / BSIZE) ≠ 0)
    (hfit : off % BSIZE + bs.length ≤ BSIZE) :
    Stores sb i off bs V (V.setBlk (V.fileBlock i (off / BSIZE))
      (putBytes (V.blk (V.fileBlock i (off / BSIZE))) (off % BSIZE) bs)) := by
  have hB : BSIZE = 1024 := rfl
  have hw := writes_putBytes h hr (le_refl bs.length)
  have hdiv : ∀ k < bs.length, (off + k) / BSIZE = off / BSIZE := by
    intro k hk
    rw [hB] at hfit ⊢
    omega
  refine { hw with stored := fun k hk => ?_, mapped := fun k hk => ?_ }
  · have hmod : (off + k) % BSIZE = off % BSIZE + k := by
      rw [hB] at hfit ⊢
      omega
    rw [h.byte_setBlk hr, if_pos ⟨rfl, hdiv k hk⟩, hmod]
    exact putBytes_of_inside hk hfit
  · rw [hdiv k hk, hw.keep i _ hr]
    exact hr

end

/-- A turn of the loop of `writei` stores its bytes in one block. -/
theorem runs_copyKernel (hg : Geometry sb) (hbm : Bitmap sb (memView sb s.disk i ip)) {off tot m : Nat}
    {bytes : List UInt8} (hm : (memView sb s.disk i ip).fileBlock i (off / BSIZE) ≠ 0)
    (hfit : off % BSIZE + m ≤ BSIZE) {α : Type} {k : Bool → Routine Nat α} {Q : α → Io → Prop}
    (h : ∀ t, (∀ A X : Nat → Prop, X ((memView sb s.disk i ip).fileBlock i (off / BSIZE)) →
        Logs A X s t) → t.user = s.user →
      Stores sb i off ((bytes.drop tot).take m) (memView sb s.disk i ip) (memView sb t.disk i ip) →
      (memView sb t.disk i ip).refs = (memView sb s.disk i ip).refs →
      (memView sb t.disk i ip).used = (memView sb s.disk i ip).used →
      Runs sb E (k true) Q t) :
    Runs sb E (eitherCopyin ((memView sb s.disk i ip).fileBlock i (off / BSIZE))
      (off % BSIZE) (.kernel bytes) tot m >>= k) Q s := by
  have hlen : ((bytes.drop tot).take m).length ≤ m := List.length_take_le ..
  have hst : Stores sb i off ((bytes.drop tot).take m) (memView sb s.disk i ip) _ :=
    stores_putBytes hbm hm (by omega)
  have hview := memView_putBytes hg hbm hm (off % BSIZE) ((bytes.drop tot).take m)
  rw [← hview] at hst
  have hused := congrArg View.used hview
  refine .bind (runs_load (not_free_ref hbm hm) ?_)
  refine runs_store (fun c _ hf => ⟨hf.1, (congrFun hused c).trans hf.2⟩) (.pure ?_)
  refine h _ (fun A X hX => .of_setBlock rfl rfl rfl hX) rfl hst ?_ hused
  exact (congrArg View.refs hview).trans (hbm.refs_setBlk hm)

/-- `Q` holds however far the loop of `writei` gets with the given bytes: to the end, or until
there is no free block. With room for the slots in `S` it gets to the end. -/
def Stored (sb : Superblock) (i n : Nat) (bytes : List UInt8) (S : Finset Slot) (ip : Dinode) (s : Io)
    (tot off : Nat) (Q : Dinode × Nat × Nat → Io → Prop) : Prop :=
  ∀ ip' t Δ m, tot + m ≤ n →
    Stores sb i off ((bytes.drop tot).take m) (memView sb s.disk i ip) (memView sb t.disk i ip') →
    (tot + m = n ∨ (m = 0 ∨ (off + m) % BSIZE = 0) ∧ (memView sb t.disk i ip').free sb = 0) →
    ((memView sb s.disk i ip).missing i S ≤ (memView sb s.disk i ip).free sb → tot + m = n) →
    Δ ⊆ S → Fills sb i Δ (memView sb s.disk i ip) (memView sb t.disk i ip') →
    Saves (Noted sb i S (memView sb s.disk i ip) (memView sb t.disk i ip')) s t →
    Q (ip', tot + m, off + m) t

section

variable {n tot off : Nat} {bytes : List UInt8} {S : Finset Slot} {Q : Dinode × Nat × Nat → Io → Prop}

theorem Stored.done (h : Stored sb i n bytes S ip s tot off Q) (htot : tot = n)
    (hbm : Bitmap sb (memView sb s.disk i ip)) : Q (ip, tot, off) s := by
  refine h ip s ∅ 0 htot.le ?_ (.inl htot) (fun _ => htot) (Finset.empty_subset _) .refl .refl
  rw [List.take_zero]
  exact (Grows.refl hbm).stores

theorem Stored.stop (h : Stored sb i n bytes S ip s tot off Q) (htot : tot ≤ n) {ip' : Dinode} {t : Io}
    {Δ : Finset Slot} (hgrow : Grows sb i (memView sb s.disk i ip) (memView sb t.disk i ip'))
    (hΔ : Δ ⊆ S) (hfills : Fills sb i Δ (memView sb s.disk i ip) (memView sb t.disk i ip'))
    (hsave : Saves (Noted sb i S (memView sb s.disk i ip) (memView sb t.disk i ip')) s t)
    (hfull : (memView sb t.disk i ip').free sb = 0)
    (hno : ¬(memView sb s.disk i ip).missing i S ≤ (memView sb s.disk i ip).free sb) :
    Q (ip', tot, off) t := by
  refine h ip' t Δ 0 htot ?_ (.inr ⟨.inl rfl, hfull⟩) (fun hroom => absurd hroom hno) hΔ hfills hsave
  rw [List.take_zero]
  exact hgrow.stores

/-- After a turn of the loop with `m` bytes. -/
theorem Stored.turn (h : Stored sb i n bytes S ip s tot off Q) {ip' : Dinode} {t : Io} {m : Nat}
    {Δ : Finset Slot} (hm : tot + m ≤ n) (hn : n ≤ bytes.length)
    (hat : tot + m = n ∨ (off + m) % BSIZE = 0)
    (hst : Stores sb i off ((bytes.drop tot).take m) (memView sb s.disk i ip) (memView sb t.disk i ip'))
    (hΔ : Δ ⊆ S) (hfills : Fills sb i Δ (memView sb s.disk i ip) (memView sb t.disk i ip'))
    (hsave : Saves (Noted sb i S (memView sb s.disk i ip) (memView sb t.disk i ip')) s t) :
    Stored sb i n bytes S ip' t (tot + m) (off + m) Q := by
  intro ip'' t'' Δ' k hk hst' hat' hroom' hΔ' hfills' hsave'
  have hlen : ((bytes.drop tot).take m).length = m := by
    rw [List.length_take, List.length_drop]
    omega
  rw [Nat.add_assoc tot, Nat.add_assoc off]
  refine h ip'' t'' (Δ ∪ Δ') (m + k) (by omega) ?_ ?_ (fun hr => ?_) (Finset.union_subset hΔ hΔ')
    (hfills.trans hfills') ?_
  · rw [List.take_add, List.drop_drop]
    refine hst.trans ?_
    rw [hlen]
    exact hst'
  · rcases hat' with hat' | ⟨rfl | hat', hfull⟩
    · exact .inl (by omega)
    · exact hat.imp id fun ha => ⟨.inr ha, hfull⟩
    · exact .inr ⟨.inr (by rwa [← Nat.add_assoc]), hfull⟩
  · have h1 := hfills.missing hΔ
    have h2 := hfills.free
    have := hroom' (by omega)
    omega
  · exact .trans (hsave.weaken fun c => .after hfills') (hsave'.weaken fun c => .before hfills)

end

theorem runs_writeiLoop_kernel (hg : Geometry sb) {n : Nat} {bytes : List UInt8} {S : Finset Slot}
    {Q : Dinode × Nat × Nat → Io → Prop} (htr : s.trans = true) (fuel tot off : Nat)
    (hfuel : n - tot ≤ fuel) (htot : tot ≤ n) (hn : n ≤ bytes.length)
    (hmax : off + (n - tot) ≤ MAXFILE * BSIZE) (ht : ip.type ≠ 0)
    (hbm : Bitmap sb (memView sb s.disk i ip))
    (hS : ∀ o, off ≤ o → o < off + (n - tot) → slotsFor (o / BSIZE) ⊆ S)
    (h : Stored sb i n bytes S ip s tot off Q) :
    Runs sb E (writeiLoop sb (.kernel bytes) n fuel ip tot off) Q s := by
  induction fuel generalizing tot off ip s with
  | zero => exact .pure (h.done (by omega) hbm)
  | succ fuel ih =>
    rw [writeiLoop]
    refine .ite (fun hlt => ?_) fun hge => .pure (h.done (by omega) hbm)
    have hmod : off % BSIZE < BSIZE := Nat.mod_lt _ (by decide)
    have hbn : off / BSIZE < MAXFILE := (Nat.div_lt_iff_lt_mul (by decide)).mpr (by omega)
    have hslots : slotsFor (off / BSIZE) ⊆ S := hS off le_rfl (by omega)
    refine .bind ?_
    refine runs_bmap hg hbm ht hbn htr ?_
    intro ip' t Δ hgrow hΔ hfills hcan hfull hsave
    have ht' : ip'.type ≠ 0 := by
      have := hgrow.type
      rw [memView_din, memView_din] at this
      rwa [this]
    have hnoted := hsave.weaken fun c => Noted.mono hslots
    change Runs sb E (if (memView sb t.disk i ip').fileBlock i (off / BSIZE) = 0 then _ else _) Q _
    refine .ite (fun h0 => .pure ?_) fun h0 => ?_
    · refine h.stop htot hgrow (hΔ.trans hslots) hfills hnoted (hfull h0) fun hroom => ?_
      exact hcan.mpr (canMap_of_missing (by rwa [memView_din]) hslots hroom) h0
    refine runs_bread ?_
    generalize hmin : min (n - tot) (BSIZE - off % BSIZE) = m
    refine runs_copyKernel hg hgrow.bitmap h0 (by omega) ?_
    intro t₁ hcopied huser hst hrefs hused
    have hfb : ∀ bn, (memView sb t₁.disk i ip').fileBlock i bn = (memView sb t.disk i ip').fileBlock i bn :=
      fun bn => congrFun hrefs (i, slotOf bn)
    have h0' : (memView sb t₁.disk i ip').fileBlock i (off / BSIZE) ≠ 0 := by rwa [hfb]
    rw [← hfb] at hcopied ⊢
    have htr₁ : t₁.trans = true :=
      (hcopied (fun _ => True) (fun _ => True) trivial).inTrans.trans (hsave.inTrans.trans htr)
    have hturn : Logs (Noted sb i S (memView sb s.disk i ip) (memView sb t₁.disk i ip'))
        (fun _ => False) s (t₁.record ((memView sb t₁.disk i ip').fileBlock i (off / BSIZE))) :=
      .record (.trans (hnoted.logs.weaken fun c => .after (Fills.refl.of_eq hrefs hused))
        (hcopied _ (fun c => c = _) rfl)) (.inr ⟨_, hslots (slotOf_mem_slotsFor _), h0', rfl⟩)
        fun c hc => hc
    refine .ite (fun _ => ?_) fun hf => absurd rfl hf
    refine runs_logWrite htr₁ (runs_brelse ?_)
    refine ih (s := t₁.record _) htr₁ (tot + m) (off + m) (by omega) (by omega) (by omega)
      ht' hst.bitmap (fun o ho ho' => hS o (by omega) (by omega)) ?_
    refine h.turn (by omega) hn ?_ (hgrow.trans_stores hst) (hΔ.trans hslots)
      (hfills.of_eq hrefs hused) ⟨hturn, huser.trans hsave.user⟩
    have hB : BSIZE = 1024 := rfl
    rw [hB] at hmin hmod ⊢
    omega

/-- A file after the bytes `bs` have been written to it at `off`. -/
def File.put (f : File) (off : Nat) (bs : List UInt8) : File :=
  { f with
    size := max f.size (off + bs.length)
    byte := fun o => if off ≤ o ∧ o < off + bs.length then bs.getD (o - off) 0 else f.byte o }

/-- From `V` to `V'` the bytes `bs` have been written to file `i` at `off`. -/
structure Puts (sb : Superblock) (i off : Nat) (bs : List UInt8) (V V' : View) : Prop where
  bitmap : Bitmap sb V'
  other : ∀ j ≠ i, V'.din j = V.din j
  file : V'.file = update V.file i ((V.file i).put off bs)
  keep : ∀ j bn, V.fileBlock j bn ≠ 0 → V'.fileBlock j bn = V.fileBlock j bn
  mapped : ∀ k < bs.length, V'.fileBlock i ((off + k) / BSIZE) ≠ 0

section

variable {V V' : View} {off : Nat} {bs : List UInt8}

theorem Stores.puts (h : Stores sb i off bs V V') :
    Puts sb i off bs V (V'.setDin i ((V'.din i).resize (max (V.din i).size (off + bs.length)))) := by
  obtain ⟨hbm, hrefs, hbyte⟩ := h.toWrites.resize (max (V.din i).size (off + bs.length))
  obtain ⟨as, hsame⟩ := h.same
  have hfb : ∀ j bn, (V'.setDin i ((V'.din i).resize (max (V.din i).size (off + bs.length)))).fileBlock
      j bn = V'.fileBlock j bn := fun j bn => congrFun hrefs (j, slotOf bn)
  constructor
  · exact hbm
  · exact fun j hj => (View.setDin_of_ne hj).trans (h.other j hj)
  · funext j
    by_cases hj : j = i
    · subst hj
      rw [update_self, View.file, hbyte, View.setDin_self, hsame]
      unfold File.put
      congr 1
      funext o
      split
      next ho =>
        have hs := h.stored (o - off) (by omega)
        rwa [show off + (o - off) = o by omega] at hs
      next ho => exact h.byte j o (by omega)
    · rw [update_of_ne hj, View.file, View.file, hbyte, View.setDin_of_ne hj, h.other j hj]
      congr 1
      funext o
      exact h.byte j o (.inl hj)
  · intro j bn hr
    rw [hfb]
    exact h.keep j bn hr
  · intro k hk
    rw [hfb]
    exact h.mapped k hk

theorem Puts.type (h : Puts sb i off bs V V') (j : Nat) : (V'.din j).type = (V.din j).type := by
  have hfile := congrArg File.type (congrFun h.file j)
  by_cases hj : j = i
  · subst hj
    rw [update_self] at hfile
    exact hfile
  · rw [update_of_ne hj] at hfile
    exact hfile

theorem Puts.size (h : Puts sb i off bs V V') :
    (V'.din i).size = max (V.din i).size (off + bs.length) := by
  have hfile := congrArg File.size (congrFun h.file i)
  rw [update_self] at hfile
  exact hfile

end

/-- `writei` of given bytes: nothing, all of them, or those up to a block that cannot be had. -/
theorem runs_writei_kernel (hg : Geometry sb) (hi : i < sb.ninodes) (htr : s.trans = true)
    (hbm : Bitmap sb (view sb s.disk)) (ht : ((view sb s.disk).din i).type ≠ 0) {off n : Nat}
    {bytes : List UInt8} {S : Finset Slot} {Q : Dinode × Int → Io → Prop} (hn : n ≤ bytes.length)
    (hS : ∀ o, off ≤ o → o < off + n → slotsFor (o / BSIZE) ⊆ S)
    (hbad : ((view sb s.disk).din i).size < off ∨ (off + n) % 2 ^ 32 < off ∨
      MAXFILE * BSIZE < off + n → Q ((view sb s.disk).din i, -1) s)
    (h : off ≤ ((view sb s.disk).din i).size → off + n ≤ MAXFILE * BSIZE → ∀ t Δ m, m ≤ n →
      Puts sb i off (bytes.take m) (view sb s.disk) (view sb t.disk) →
      (m = n ∨ (m = 0 ∨ (off + m) % BSIZE = 0) ∧ (view sb t.disk).free sb = 0) →
      ((view sb s.disk).missing i S ≤ (view sb s.disk).free sb → m = n) →
      Δ ⊆ S → Fills sb i Δ (view sb s.disk) (view sb t.disk) →
      Saves (fun c => c = IBLOCK sb i ∨ Noted sb i S (view sb s.disk) (view sb t.disk) c) s t →
      Q ((view sb t.disk).din i, m) t) :
    Runs sb E (writei sb i ((view sb s.disk).din i) (.kernel bytes) off n) Q s := by
  unfold writei
  refine .ite (fun h0 => .pure (hbad (h0.imp_right .inl))) fun h0 =>
    .ite (fun hmax => .pure (hbad (.inr (.inr hmax)))) fun hmax => ?_
  rw [not_or, Nat.not_lt, Nat.not_lt] at h0
  rw [Nat.not_lt] at hmax
  refine .bind ?_
  refine runs_writeiLoop_kernel hg htr n 0 off (by omega) (by omega) hn (by omega) ht
    (memView_self ▸ hbm) (fun o ho ho' => hS o ho (by omega)) ?_
  intro ip t Δ m hm hst hat hroom hΔ hfills hsave
  rw [memView_self] at hst hroom hfills hsave
  rw [List.drop_zero] at hst
  rw [Nat.zero_add] at hm hat hroom
  have hB : MAXFILE * BSIZE = 274432 := rfl
  have hlen : (bytes.take m).length = m := by
    rw [List.length_take]
    omega
  have hputs := hst.puts
  have hres := hst.toWrites.resize (max ((view sb s.disk).din i).size (off + m))
  obtain ⟨as, hsame⟩ := hst.same
  rw [memView_din] at hsame
  subst hsame
  rw [Nat.zero_add]
  refine runs_writeBack hg hi (hsave.inTrans.trans htr) hst.bitmap ht ⟨_, view_fits s.disk i⟩
    (by omega) fun t' hd' hsave' => ?_
  rw [memView_din, memView_setDin, hlen] at hputs
  rw [memView_din, memView_setDin] at hres
  have hview : view sb t'.disk = memView sb t.disk i (Dinode.resize
      { (view sb s.disk).din i with addrs := as } (max ((view sb s.disk).din i).size (off + m))) := hd'
  have hrefs : (view sb t'.disk).refs = _ := (congrArg View.refs hview).trans hres.2.1
  have hused : (view sb t'.disk).used = (memView sb t.disk i _).used := congrArg View.used hview
  have hfree : (view sb t'.disk).free sb = (memView sb t.disk i
      { (view sb s.disk).din i with addrs := as }).free sb := by
    unfold View.free
    rw [hused]
    rfl
  have hq := h h0.1 hmax t' Δ m hm (by rw [hview]; exact hputs) (by rwa [hfree]) hroom hΔ
    (hfills.of_eq hrefs hused) (.trans
      (hsave.weaken fun c hc => .inr (hc.after (Fills.refl.of_eq hrefs hused)))
      (hsave'.weaken fun _ => .inl))
  rw [hd', memView_din] at hq
  exact hq

end Xv6.Fs
