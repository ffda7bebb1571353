import Xv6.Fs.Exec
import Mathlib.Order.Bounds.Basic

/-!
# The search of the free map

`balloc` and `bfree` with the C types of their variables: `b` and `bi` are of type `int`, the fields
of the superblock and the block numbers of the buffer cache of type `uint`. The bits at or above
`sb.size` in the last bitmap block are part of the bitmap, and no run reads or changes them.
-/
namespace Xv6.Fs.Machine

set_option autoImplicit false

open Xv6.Lib Function

/-- The `int` that an operation on `int`s gives. -/
def int (n : Int) : Int := n.bmod 0x100000000

/-- The conversion to `uint`. -/
def uint (n : Int) : Nat := (n % 0x100000000).toNat

variable {H : Type} (sb : Superblock)

def BBLOCK (b : Int) : Nat := uint (b.tdiv BPB + sb.bmapstart)

/-- The inner loop of `balloc`, with `n` turns to go. -/
def search (x : Block) (b : Int) : Nat → Int → Option Int
  | 0, _ => none
  | n + 1, bi =>
    if bi < BPB ∧ uint (int (b + bi)) < sb.size then
      if getBit x bi.toNat = false then some bi else search x b n (int (bi + 1))
    else none

def ballocLoop : Nat → Int → Routine H Nat
  | 0, _ => pure 0
  | n + 1, b =>
    if uint b < sb.size then do
      let bp ← bread (BBLOCK sb b)
      let x ← load bp
      match search sb x b BPB 0 with
      | some bi =>
        store bp (setBit x bi.toNat)
        logWrite bp
        brelse bp
        bzero (uint (int (b + bi)))
        pure (uint (int (b + bi)))
      | none =>
        brelse bp
        ballocLoop n (int (b + BPB))
    else pure 0

/-- A turn passes `BPB` blocks, so that `sb.size` turns are enough. -/
def balloc : Routine H Nat := ballocLoop sb sb.size 0

def bfree (b : Nat) : Routine H Unit := do
  let bp ← bread (BBLOCK sb b)
  let x ← load bp
  if getBit x (b % BPB) = false then panic .freeingFreeBlock
  else
    store bp (clearBit x (b % BPB))
    logWrite bp
    brelse bp

/-- The bit of block `b`. -/
def bit (d : Disk) (b : Nat) : Bool := getBit (d (BBLOCK sb b)) (b % BPB)

/-- How many bits the bitmap blocks have. -/
def bits : Nat := BPB * ((sb.size + BPB - 1) / BPB)

variable {sb} {b c n : Nat}

theorem BPB_eq : BPB = 8192 := rfl

theorem int_eq (h : b < 2147483648) : int b = b := by
  unfold int
  rw [Int.bmod_def]
  omega

theorem uint_eq (h : b < 4294967296) : uint b = b := by
  unfold uint
  omega

theorem BBLOCK_eq (b : Nat) : BBLOCK sb b = (b / BPB + sb.bmapstart) % 4294967296 := by
  unfold BBLOCK uint
  rw [Int.tdiv_eq_ediv_of_nonneg (by omega), BPB_eq]
  omega

theorem lt_of_lt_bits (hsize : sb.size < 2147483648) (hb : b < bits sb) : b < 2147483648 := by
  rw [bits, BPB_eq] at hb
  omega

theorem lt_bits (hb : b < sb.size) : b < bits sb := by
  rw [bits, BPB_eq]
  omega

/-- Two blocks have their bits in one bitmap block only if the search meets them in one turn. -/
theorem BBLOCK_inj (hb : b < 2147483648) (hc : c < 2147483648) :
    BBLOCK sb b = BBLOCK sb c ↔ b / BPB = c / BPB := by
  rw [BBLOCK_eq, BBLOCK_eq, BPB_eq]
  omega

theorem BBLOCK_add (h : b < BPB) : BBLOCK sb (BPB * c + b : Nat) = BBLOCK sb (BPB * c : Nat) := by
  rw [BBLOCK_eq, BBLOCK_eq, BPB_eq] at *
  omega

theorem mod_add (h : b < BPB) : (BPB * c + b) % BPB = b := by
  rw [Nat.mul_add_mod, Nat.mod_eq_of_lt h]

/-! ## The inner loop -/

section

variable {x : Block} {i : Nat} (hsize : sb.size < 2147483648) (hb : b < sb.size)

include hsize hb

theorem search_succ (hi : i < BPB) :
    search sb x b (n + 1) i = if b + i < sb.size then
      if getBit x i = false then some (i : Int) else search sb x b n (i + 1 : Nat) else none := by
  have hP : BPB = 8192 := rfl
  have hnext : int ((i : Int) + 1) = (i + 1 : Nat) := int_eq (b := i + 1) (by omega)
  rw [search, Int.toNat_natCast, hnext]
  by_cases hs : b + i < sb.size
  · have hsum : uint (int ((b : Int) + i)) = b + i := by
      rw [← Nat.cast_add, int_eq (by omega), uint_eq (by omega)]
    rw [if_pos hs, if_pos ⟨by omega, by omega⟩]
  · have hbig : ¬uint (int ((b : Int) + i)) < sb.size := by
      unfold int uint
      rw [Int.bmod_def]
      omega
    rw [if_neg hs, if_neg fun h => hbig h.2]

/-- The first clear bit is the one that is found. -/
theorem search_some (hfree : getBit x i = false) (hi : b + i < sb.size) (n j : Nat) (hj : j ≤ i)
    (hset : ∀ k, j ≤ k → k < i → getBit x k = true) (hn : i < j + n) (hP : j + n ≤ BPB) :
    search sb x b n j = some (i : Int) := by
  induction n generalizing j with
  | zero => omega
  | succ n ih =>
    rw [search_succ hsize hb (by omega), if_pos (by omega)]
    by_cases he : j = i
    · rw [he, if_pos hfree]
    · rw [hset j (Nat.le_refl j) (by omega), if_neg (by decide)]
      exact ih (j + 1) (by omega) (fun k hk => hset k (by omega)) (by omega) (by omega)

theorem search_none (n j : Nat) (hset : ∀ k, j ≤ k → k < j + n → b + k < sb.size → getBit x k = true)
    (hP : j + n ≤ BPB) : search sb x b n j = none := by
  induction n generalizing j with
  | zero => rfl
  | succ n ih =>
    rw [search_succ hsize hb (by omega)]
    by_cases hs : b + j < sb.size
    · rw [if_pos hs, hset j (Nat.le_refl j) (by omega) hs, if_neg (by decide)]
      exact ih (j + 1) (fun k hk hlt => hset k (by omega) (by omega)) (by omega)
    · rw [if_neg hs]

end

/-! ## The outer loop -/

/-- What `balloc` does when it has found block `b`. -/
def taken (sb : Superblock) (b : Nat) (s : Io) : Io :=
  (((s.setBlock (BBLOCK sb b) (setBit (s.disk (BBLOCK sb b)) (b % BPB))).record
    (BBLOCK sb b)).setBlock b fun _ => 0).record b

section

variable {s : Io}

theorem exec_fetch {α : Type} (k : Nat → Block → Routine Nat α) :
    exec (bread b >>= fun bp => load bp >>= k bp) s = exec (k b (s.disk b)) s := rfl

theorem getBit_block {i : Nat} (hi : i < BPB) :
    getBit (s.disk (BBLOCK sb (BPB * c : Nat))) i = bit sb s.disk (BPB * c + i) := by
  rw [bit, BBLOCK_add hi, mod_add hi]

variable (hsize : sb.size < 2147483648)

include hsize

/-- A turn that meets only set bits. -/
theorem exec_pass (hc : BPB * c < sb.size)
    (hset : ∀ k < BPB, BPB * c + k < sb.size → bit sb s.disk (BPB * c + k) = true) :
    exec (ballocLoop sb (n + 1) (BPB * c : Nat)) s =
      exec (ballocLoop sb n (int ((BPB * c : Nat) + BPB))) s := by
  have hnone : search sb (s.disk (BBLOCK sb (BPB * c : Nat))) (BPB * c : Nat) BPB (0 : Nat) =
      none := by
    refine search_none hsize hc BPB 0 (fun k _ hk hs => ?_) (by omega)
    rw [getBit_block (by omega)]
    exact hset k (by omega) hs
  rw [ballocLoop, if_pos (by rwa [uint_eq (by omega)])]
  rw [exec_fetch, ← Int.natCast_zero, hnone]
  rfl

/-- The turn that finds block `BPB * c + i`. -/
theorem exec_find {i : Nat} (ht : s.trans = true) (hi : i < BPB) (hs : BPB * c + i < sb.size)
    (hfree : bit sb s.disk (BPB * c + i) = false)
    (hset : ∀ k < i, bit sb s.disk (BPB * c + k) = true) :
    exec (ballocLoop sb (n + 1) (BPB * c : Nat)) s =
      .ok (BPB * c + i, taken sb (BPB * c + i) s) := by
  have hsome : search sb (s.disk (BBLOCK sb (BPB * c : Nat))) (BPB * c : Nat) BPB (0 : Nat) =
      some (i : Int) := by
    refine search_some hsize (by omega) ?_ hs BPB 0 (by omega) (fun k _ hk => ?_) (by omega) (by omega)
    · rw [getBit_block hi]
      exact hfree
    · rw [getBit_block (by omega)]
      exact hset k hk
  have hsum : uint (int ((BPB * c : Nat) + (i : Int))) = BPB * c + i := by
    rw [← Nat.cast_add, int_eq (by omega), uint_eq (by omega)]
  rw [ballocLoop, if_pos (by rw [uint_eq (by omega)]; omega)]
  rw [exec_fetch, ← Int.natCast_zero, hsome]
  dsimp only
  rw [hsum, Int.toNat_natCast, taken, BBLOCK_add hi, mod_add hi]
  refine (exec_logWrite (s := s.setBlock _ _) _ ht).trans ?_
  exact exec_logWrite (s := ((s.setBlock _ _).record _).setBlock _ _) _ ht

/-- The loop stops past the last block; the addition that gets there may wrap. -/
theorem exec_end (hc : sb.size ≤ BPB * c) (hlast : BPB * c < sb.size + BPB) :
    exec (ballocLoop sb n (int (BPB * c : Nat))) s = .ok (0, s) := by
  have hbig : ¬uint (int (BPB * c : Nat)) < sb.size := by
    rw [BPB_eq] at *
    unfold int uint
    rw [Int.bmod_def]
    omega
  cases n with
  | zero => rfl
  | succ n =>
    rw [ballocLoop, if_neg hbig]
    rfl

/-- All bits from block `BPB * c` on are set. -/
theorem exec_full (hset : ∀ k < sb.size, bit sb s.disk k = true) (n c : Nat)
    (hc : BPB * c < sb.size + BPB) :
    exec (ballocLoop sb n (int (BPB * c : Nat))) s = .ok (0, s) := by
  induction n generalizing c with
  | zero => rfl
  | succ n ih =>
    by_cases hlt : BPB * c < sb.size
    · rw [int_eq (by omega), exec_pass hsize hlt fun k _ hk => hset _ hk]
      exact ih (c + 1) (by rw [Nat.mul_succ]; omega)
    · exact exec_end hsize (by omega) hc

theorem exec_least {f : Nat} (ht : s.trans = true) (hf : f < sb.size)
    (hfree : bit sb s.disk f = false) (hset : ∀ k < f, bit sb s.disk k = true) (n c : Nat)
    (hc : BPB * c ≤ f) (hn : f < BPB * (c + n)) :
    exec (ballocLoop sb n (int (BPB * c : Nat))) s = .ok (f, taken sb f s) := by
  induction n generalizing c with
  | zero => exact absurd hn (Nat.not_lt_of_le hc)
  | succ n ih =>
    rw [int_eq (by omega)]
    by_cases hlt : f < BPB * (c + 1)
    · obtain ⟨i, rfl⟩ := Nat.exists_eq_add_of_le hc
      rw [Nat.mul_succ] at hlt
      exact exec_find hsize ht (by omega) hf hfree fun k hk => hset _ (by omega)
    · rw [Nat.mul_succ] at hlt
      rw [exec_pass hsize (by omega) fun k hk _ => hset _ (by omega)]
      exact ih (c + 1) (by rw [Nat.mul_succ]; omega) (by rwa [Nat.add_right_comm, Nat.add_assoc])

end

/-! ## What a run leaves -/

theorem clearBit_setBit {x : Block} {i : Nat} (hi : i < BPB) (h : getBit x i = false) :
    clearBit (setBit x i) i = x := by
  funext j
  unfold clearBit setBit
  by_cases hj : j.val = i / 8
  · rw [if_pos hj, if_pos hj]
    unfold getBit at h
    rw [mem_eq (bit_byte_lt hi)] at h
    have hx : x j = x ⟨i / 8, bit_byte_lt hi⟩ := congrArg x (Fin.ext hj)
    apply UInt8.toNat.inj
    refine Nat.eq_of_testBit_eq fun k => ?_
    by_cases hk : k < 8
    · rw [testBit_and_not_shift _ (Nat.mod_lt _ (by decide)) hk,
        testBit_or_shift _ (Nat.mod_lt _ (by decide)) hk]
      by_cases hki : k = i % 8
      · simp [hki, hx, h]
      · simp [hki]
    · have hpow : 2 ^ 8 ≤ 2 ^ k := Nat.pow_le_pow_right (by decide) (by omega)
      rw [Nat.testBit_lt_two_pow ((UInt8.toNat_lt _).trans_le hpow),
        Nat.testBit_lt_two_pow ((UInt8.toNat_lt _).trans_le hpow)]
  · rw [if_neg hj, if_neg hj]

variable (sb) in
/-- `t` is `s` with the bit of block `b` set and that block zeroed. -/
structure Takes (b : Nat) (s t : Io) : Prop where
  bit : ∀ c < bits sb, bit sb t.disk c = (decide (c = b) || bit sb s.disk c)
  zeroed : t.disk b = fun _ => 0
  rest : ∀ c, c ≠ b → c ≠ BBLOCK sb b → t.disk c = s.disk c

variable (sb) in
/-- `t` is `s` with the bit of block `b` clear. -/
structure Frees (b : Nat) (s t : Io) : Prop where
  bit : ∀ c < bits sb, bit sb t.disk c = (!decide (c = b) && bit sb s.disk c)
  rest : ∀ c, c ≠ BBLOCK sb b → t.disk c = s.disk c

section

variable {s : Io} (hsize : sb.size < 2147483648)

include hsize

/-- How the bits look when the bitmap block of `b` is now `y`. -/
theorem bit_update {d : Disk} {y : Block} (hb : b < bits sb) (hc : c < bits sb) :
    bit sb (update d (BBLOCK sb b) y) c =
      if c / BPB = b / BPB then getBit y (c % BPB) else bit sb d c := by
  have hinj : BBLOCK sb c = BBLOCK sb b ↔ _ :=
    BBLOCK_inj (lt_of_lt_bits hsize hc) (lt_of_lt_bits hsize hb)
  rw [bit]
  by_cases h : c / BPB = b / BPB
  · rw [if_pos h, hinj.mpr h, update_self]
  · rw [if_neg h, update_of_ne fun he => h (hinj.mp he), bit]

/-- The new block is none of the bitmap, so that zeroing it leaves the bits alone. -/
theorem takes_taken (hb : b < bits sb) (hown : ∀ c < bits sb, BBLOCK sb c ≠ b) :
    Takes sb b s (taken sb b s) where
  bit c hc := by
    change Machine.bit sb (update (update s.disk (BBLOCK sb b) _) b _) c = _
    have hne : Machine.bit sb (update (update s.disk (BBLOCK sb b)
        (setBit (s.disk (BBLOCK sb b)) (b % BPB))) b fun _ => 0) c =
        Machine.bit sb (update s.disk (BBLOCK sb b)
          (setBit (s.disk (BBLOCK sb b)) (b % BPB))) c := by
      rw [Machine.bit, update_of_ne (hown c hc), Machine.bit]
    rw [hne, bit_update hsize hb hc, getBit_setBit _ (mod_lt_BPB c)]
    by_cases h : c / BPB = b / BPB
    · have hB : BBLOCK sb c = BBLOCK sb b :=
        (BBLOCK_inj (lt_of_lt_bits hsize hc) (lt_of_lt_bits hsize hb)).mpr h
      simp only [if_pos h, mod_eq_iff h, Machine.bit, hB]
    · have hcb : c ≠ b := fun he => h (by rw [he])
      simp only [if_neg h, hcb, decide_false, Bool.false_or]
  zeroed := update_self ..
  rest c hcb hcB := by
    change update (update s.disk (BBLOCK sb b) _) b _ c = _
    rw [update_of_ne hcb, update_of_ne hcB]

theorem exec_bfree (ht : s.trans = true) (hb : b < bits sb) (hset : bit sb s.disk b = true) :
    ∃ t, exec (bfree sb b) s = .ok ((), t) ∧ Frees sb b s t ∧
      t.disk (BBLOCK sb b) = clearBit (s.disk (BBLOCK sb b)) (b % BPB) := by
  refine ⟨(s.setBlock (BBLOCK sb b) (clearBit (s.disk (BBLOCK sb b)) (b % BPB))).record (BBLOCK sb b),
    ?_, ⟨fun c hc => ?_, fun c hc => update_of_ne hc ..⟩, update_self ..⟩
  · rw [bfree, exec_fetch, if_neg (by rw [← bit, hset]; decide)]
    exact exec_logWrite (s := s.setBlock _ _) _ ht
  · change bit sb (update s.disk (BBLOCK sb b) _) c = _
    rw [bit_update hsize hb hc, getBit_clearBit _ (mod_lt_BPB c)]
    by_cases h : c / BPB = b / BPB
    · have hB : BBLOCK sb c = BBLOCK sb b :=
        (BBLOCK_inj (lt_of_lt_bits hsize hc) (lt_of_lt_bits hsize hb)).mpr h
      simp only [if_pos h, mod_eq_iff h, bit, hB]
    · have hcb : c ≠ b := fun he => h (by rw [he])
      simp only [if_neg h, hcb, decide_false, Bool.not_false, Bool.true_and]

/-- `bfree` undoes what `balloc` did to the bitmap. -/
theorem exec_bfree_taken (ht : s.trans = true) (hb : b < bits sb)
    (hown : ∀ c < bits sb, BBLOCK sb c ≠ b) (hfree : bit sb s.disk b = false) :
    ∃ u, exec (bfree sb b) (taken sb b s) = .ok ((), u) ∧
      ∀ c < bits sb, u.disk (BBLOCK sb c) = s.disk (BBLOCK sb c) := by
  have htakes := takes_taken (s := s) hsize hb hown
  have hset : bit sb (taken sb b s).disk b = true := by
    rw [htakes.bit b hb]
    simp
  obtain ⟨u, hrun, hfrees, hB⟩ := exec_bfree hsize (s := taken sb b s) ht hb hset
  refine ⟨u, hrun, fun c hc => ?_⟩
  by_cases h : BBLOCK sb c = BBLOCK sb b
  · have hold : (taken sb b s).disk (BBLOCK sb b) =
        setBit (s.disk (BBLOCK sb b)) (b % BPB) := by
      change update (update s.disk (BBLOCK sb b) _) b _ _ = _
      rw [update_of_ne (hown b hb), update_self]
    rw [h, hB, hold]
    exact clearBit_setBit (mod_lt_BPB b) hfree
  · rw [hfrees.rest _ h]
    exact htakes.rest _ (hown c hc) h

end

/-- In a bitmap that has block 0 and its own blocks in use, `balloc` takes the first free block and
`bfree` gives it back. -/
theorem bitmap_search {sb : Superblock} (hsize : sb.size < 2147483648) {s : Io}
    (ht : s.trans = true) (hzero : bit sb s.disk 0 = true)
    (hown : ∀ c < bits sb, BBLOCK sb c < sb.size → bit sb s.disk (BBLOCK sb c) = true) :
    (∀ b, IsLeast {b | b < sb.size ∧ bit sb s.disk b = false} b →
      b ≠ 0 ∧ ∃ t, exec (balloc sb) s = .ok (b, t) ∧ Takes sb b s t ∧
        ∃ u, exec (bfree sb b) t = .ok ((), u) ∧
          ∀ c < bits sb, u.disk (BBLOCK sb c) = s.disk (BBLOCK sb c)) ∧
      ((∀ b < sb.size, bit sb s.disk b = true) → exec (balloc sb) s = .ok (0, s)) ∧
      ∀ b < bits sb, bit sb s.disk b = true →
        ∃ t, exec (bfree sb b) s = .ok ((), t) ∧ Frees sb b s t := by
  refine ⟨fun b hb => ?_, fun hfull => ?_, fun b hb hset => ?_⟩
  · obtain ⟨⟨hlt, hfree⟩, hleast⟩ := hb
    have hset : ∀ k < b, bit sb s.disk k = true := by
      intro k hk
      cases hbit : bit sb s.disk k with
      | true => rfl
      | false => exact absurd (hleast ⟨hk.trans hlt, hbit⟩) (Nat.not_le_of_lt hk)
    have hnot : ∀ c < bits sb, BBLOCK sb c ≠ b := by
      intro c hc he
      have := hown c hc (by rwa [he])
      rw [he, hfree] at this
      cases this
    have hne : b ≠ 0 := by
      intro he
      rw [he, hzero] at hfree
      cases hfree
    have hfuel : b < BPB * (0 + sb.size) := by
      rw [BPB_eq]
      omega
    have hrun := exec_least hsize ht hlt hfree hset sb.size 0 (Nat.zero_le b) hfuel
    exact ⟨hne, taken sb b s, hrun, takes_taken hsize (lt_bits hlt) hnot,
      exec_bfree_taken hsize ht (lt_bits hlt) hnot hfree⟩
  · exact exec_full hsize hfull sb.size 0 (by rw [BPB_eq]; omega)
  · obtain ⟨t, hrun, hfrees, -⟩ := exec_bfree hsize ht hb hset
    exact ⟨t, hrun, hfrees⟩

/-- Three blocks, of which block 1 is the bitmap. -/
def smallSb : Superblock := ⟨3, 1, 0, 0, 0, 0, 1⟩

/-- A transaction over that disk, with `x` as the first byte of the bitmap. -/
def smallDisk (x : UInt8) : Io := ⟨fun _ i => if i.val = 0 then x else 0, [], true, []⟩

theorem BBLOCK_small (hc : c < bits smallSb) : BBLOCK smallSb c = 1 := by
  have hbits : bits smallSb = 8192 := rfl
  rw [BBLOCK_eq, BPB_eq, Nat.div_eq_of_lt (by omega)]
  rfl

theorem bitmap_search_small : ∃ t, exec (balloc smallSb) (smallDisk 3) = .ok (2, t) ∧
    Takes smallSb 2 (smallDisk 3) t := by
  have hleast : IsLeast {b | b < smallSb.size ∧ bit smallSb (smallDisk 3).disk b = false} 2 := by
    refine ⟨⟨by decide, by decide⟩, fun b hb => ?_⟩
    by_contra hlt
    have hsmall : ∀ k < 2, bit smallSb (smallDisk 3).disk k = true := by decide
    exact absurd (hsmall b (Nat.lt_of_not_le hlt)) (by rw [hb.2]; decide)
  have hown : ∀ c < bits smallSb, BBLOCK smallSb c < smallSb.size →
      bit smallSb (smallDisk 3).disk (BBLOCK smallSb c) = true := by
    intro c hc _
    rw [BBLOCK_small hc]
    decide
  obtain ⟨-, t, hrun, htakes, -⟩ :=
    (bitmap_search (by decide) (s := smallDisk 3) rfl (by decide) hown).1 2 hleast
  exact ⟨t, hrun, htakes⟩

/-- With its own bit clear the bitmap block is taken and zeroed, and all bits with it. -/
theorem bitmap_takes_itself : bit smallSb (smallDisk 1).disk 0 = true ∧
    IsLeast {b | b < smallSb.size ∧ bit smallSb (smallDisk 1).disk b = false} 1 ∧
    ∃ t, exec (balloc smallSb) (smallDisk 1) = .ok (1, t) ∧
      bit smallSb t.disk 0 = false ∧ bit smallSb t.disk 1 = false := by
  have hfirst : bit smallSb (smallDisk 1).disk 0 = true := by decide
  have hset : ∀ k < 1, bit smallSb (smallDisk 1).disk k = true := by decide
  have hrun : exec (balloc smallSb) (smallDisk 1) = .ok (1, taken smallSb 1 (smallDisk 1)) :=
    exec_least (by decide) rfl (by decide) (by decide) hset 3 0 (by decide) (by decide)
  refine ⟨hfirst, ⟨⟨by decide, by decide⟩, fun b hb => ?_⟩, _, hrun, by decide, by decide⟩
  by_contra hlt
  have hb0 : b = 0 := by omega
  rw [hb0, Set.mem_ofPred_eq, hfirst] at hb
  cases hb.2

end Xv6.Fs.Machine
