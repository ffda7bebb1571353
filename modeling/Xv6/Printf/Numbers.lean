import Mathlib.Data.Nat.Digits.Lemmas

/-!
# Number formatting in `user/printf.c`

`printint`, `printptr` and `vprintf`, with the bytes that `putc` writes as their result. The array
`buf` of `printint` has room for 16 bytes, and a store outside it makes the result `none`; so does
a conversion without the argument that it needs. `va_arg` finds the arguments in 64-bit registers.
-/
namespace Xv6.Printf

set_option autoImplicit false

abbrev Str := List UInt8

/-- `"0123456789ABCDEF"`. -/
def digits : Str :=
  [0x30, 0x31, 0x32, 0x33, 0x34, 0x35, 0x36, 0x37, 0x38, 0x39, 0x41, 0x42, 0x43, 0x44, 0x45, 0x46]

def digit (k : Nat) : UInt8 := digits.getD k 0

def percent : UInt8 := 0x25
def minus : UInt8 := 0x2d
def zero : UInt8 := 0x30
def letterX : UInt8 := 0x78

/-- `sizeof buf`. -/
def BUFSIZE : Nat := 16

/-- The `do` loop of `printint`, with room for so many more bytes in `buf`. -/
def digitLoop (base : Nat) : Nat → Nat → Str → Option Str
  | 0, _, _ => none
  | room + 1, x, buf =>
    let buf := buf ++ [digit (x % base)]
    if x / base ≠ 0 then digitLoop base room (x / base) buf else some buf

/-- `buf[i++] = c`. -/
def push (buf : Str) (c : UInt8) : Option Str :=
  if buf.length < BUFSIZE then some (buf ++ [c]) else none

def printint (xx : BitVec 32) (base : Nat) (sgn : Bool) : Option Str :=
  let neg := sgn && xx.slt 0
  let x := if neg then -xx else xx
  (digitLoop base BUFSIZE x.toNat []).bind fun buf =>
    (if neg then push buf minus else some buf).map List.reverse

/-- The loop of `printptr`. -/
def ptrLoop : Nat → BitVec 64 → Str
  | 0, _ => []
  | k + 1, x => digit (x >>> 60).toNat :: ptrLoop k (x <<< 4)

def printptr (x : BitVec 64) : Str := zero :: letterX :: ptrLoop 16 x

/-- An argument: the contents of a register, or a `char *` with the string it points to. -/
inductive Arg where
  | word (v : BitVec 64)
  | str (s : Option Str)

/-- `"(null)"`. -/
def nullText : Str := [0x28, 0x6e, 0x75, 0x6c, 0x6c, 0x29]

/-- What the character `c` after a `%` makes of the arguments. -/
def convert (c : UInt8) (args : List Arg) : Option (Str × List Arg) :=
  if c = 0x64 then
    match args with
    | .word v :: args => (printint (v.setWidth 32) 10 true).map (·, args)
    | _ => none
  else if c = 0x6c then
    -- the `uint64` is converted to the `int` that `printint` takes
    match args with
    | .word v :: args => (printint (v.setWidth 32) 10 false).map (·, args)
    | _ => none
  else if c = 0x78 then
    match args with
    | .word v :: args => (printint (v.setWidth 32) 16 false).map (·, args)
    | _ => none
  else if c = 0x70 then
    match args with
    | .word v :: args => some (printptr v, args)
    | _ => none
  else if c = 0x73 then
    match args with
    | .str s :: args => some ((s.getD nullText).takeWhile (· ≠ 0), args)
    | _ => none
  else if c = 0x63 then
    match args with
    | .word v :: args => some ([UInt8.ofNat v.toNat], args)
    | _ => none
  else if c = percent then some ([c], args)
  else some ([percent, c], args)

/-- The loop of `vprintf`; the flag says that the last character was a `%`. -/
def vprintf : Bool → Str → List Arg → Option Str
  | _, [], _ => some []
  | false, c :: fmt, args =>
    if c = 0 then some []
    else if c = percent then vprintf true fmt args
    else (vprintf false fmt args).map (c :: ·)
  | true, c :: fmt, args =>
    if c = 0 then some []
    else (convert c args).bind fun r => (vprintf false fmt r.2).map (r.1 ++ ·)

/-! ## Numerals -/

/-- The digits of a number, the lowest first; those of 0 are `[0]`. -/
def places (base v : Nat) : List Nat := if v = 0 then [0] else Nat.digits base v

/-- The usual numeral. -/
def numeral (base v : Nat) : Str := (places base v).reverse.map digit

/-- The last `k` hexadecimal digits, the highest first. -/
def fixed : Nat → Nat → List Nat
  | 0, _ => []
  | k + 1, v => fixed k (v / 16) ++ [v % 16]

/-- The number that these characters stand for. -/
def parse (base : Nat) (s : Str) : Nat := Nat.ofDigits base (s.map digits.idxOf).reverse

theorem idxOf_digit {k : Nat} (h : k < 16) : digits.idxOf (digit k) = k := by
  have hall : ∀ j : Fin 16, digits.idxOf (digit j) = j := by decide
  exact hall ⟨k, h⟩

theorem idxOf_map_digit {ds : List Nat} (h : ∀ d ∈ ds, d < 16) :
    (ds.map digit).map digits.idxOf = ds := by
  calc (ds.map digit).map digits.idxOf = ds.map (digits.idxOf ∘ digit) := List.map_map
    _ = ds.map id := List.map_congr_left fun d hd => idxOf_digit (h d hd)
    _ = ds := List.map_id ds

theorem places_lt {base v : Nat} (hb : 1 < base) : ∀ d ∈ places base v, d < base := by
  unfold places
  split
  · intro d hd
    rw [List.mem_singleton.mp hd]
    omega
  · intro d hd
    exact Nat.digits_lt_base hb hd

theorem parse_numeral {base : Nat} (hb : 1 < base) (hle : base ≤ 16) (v : Nat) :
    parse base (numeral base v) = v := by
  have hdigit : ∀ d ∈ (places base v).reverse, d < 16 := fun d hd =>
    Nat.lt_of_lt_of_le (places_lt hb d (List.mem_reverse.mp hd)) hle
  rw [parse, numeral, idxOf_map_digit hdigit, List.reverse_reverse, places]
  split
  · rename_i h0
    rw [h0]
    rfl
  · exact Nat.ofDigits_digits base v

theorem fixed_lt (k v : Nat) : ∀ d ∈ fixed k v, d < 16 := by
  induction k generalizing v with
  | zero => exact fun d hd => absurd hd List.not_mem_nil
  | succ k ih =>
    intro d hd
    rcases List.mem_append.mp hd with h | h
    · exact ih _ d h
    · rw [List.mem_singleton.mp h]
      exact Nat.mod_lt _ (by decide)

theorem parse_fixed {k v : Nat} (h : v < 16 ^ k) : parse 16 ((fixed k v).map digit) = v := by
  rw [parse, idxOf_map_digit (fixed_lt k v)]
  induction k generalizing v with
  | zero =>
    have h0 : v = 0 := by omega
    rw [h0]
    rfl
  | succ k ih =>
    have hq : v / 16 < 16 ^ k := by omega
    rw [fixed, List.reverse_append, List.reverse_singleton, List.singleton_append, Nat.ofDigits_cons,
      ih hq]
    exact Nat.mod_add_div v 16

/-! ## `printint` -/

theorem places_step {base x : Nat} (hb : 1 < base) :
    places base x = x % base :: if x / base = 0 then [] else places base (x / base) := by
  by_cases h0 : x = 0
  · simp [places, h0]
  · rw [places, if_neg h0, Nat.digits_def' hb (Nat.pos_of_ne_zero h0)]
    by_cases hq : x / base = 0
    · rw [if_pos hq, hq, Nat.digits_zero]
    · rw [if_neg hq, places, if_neg hq]

/-- The loop stores the digits, the lowest first, if there is room for them. -/
theorem digitLoop_eq {base : Nat} (hb : 1 < base) {room x : Nat} (hx : x < base ^ room) (hr : room ≠ 0)
    (buf : Str) : digitLoop base room x buf = some (buf ++ (places base x).map digit) := by
  induction room generalizing x buf with
  | zero => exact absurd rfl hr
  | succ room ih =>
    rw [digitLoop, places_step hb]
    by_cases hq : x / base = 0
    · simp [hq]
    · have hlt : x / base < base ^ room := Nat.div_lt_of_lt_mul (by rwa [Nat.pow_succ'] at hx)
      have hr' : room ≠ 0 := by
        intro h0
        rw [h0, Nat.pow_zero] at hlt
        exact hq (Nat.lt_one_iff.mp hlt)
      simp [hq, ih hlt hr']

theorem length_places_le {base v k : Nat} (hb : 1 < base) (hk : 0 < k) (hv : v < base ^ k) :
    (places base v).length ≤ k := by
  unfold places
  split
  · exact hk
  · exact (Nat.digits_length_le_iff hb v).mpr hv

/-- `printint` never leaves its array, and prints the numeral of the 32-bit value it was given. -/
theorem printint_eq {base : Nat} (hb : 10 ≤ base) (xx : BitVec 32) (sgn : Bool) :
    printint xx base sgn =
      some (if sgn && xx.slt 0 then minus :: numeral base (-xx).toNat else numeral base xx.toNat) := by
  have hpow : (2 : Nat) ^ 32 < base ^ 10 :=
    Nat.lt_of_lt_of_le (by decide) (Nat.pow_le_pow_left hb 10)
  have hloop : ∀ x : BitVec 32,
      digitLoop base BUFSIZE x.toNat [] = some ((places base x.toNat).map digit) ∧
        ((places base x.toNat).map digit).length < BUFSIZE := by
    intro x
    have hlt : x.toNat < base ^ 10 := Nat.lt_trans x.isLt hpow
    have hlt' : x.toNat < base ^ BUFSIZE :=
      Nat.lt_of_lt_of_le hlt (Nat.pow_le_pow_right (by omega) (by decide))
    have hlen := length_places_le (by omega) (by decide) hlt
    refine ⟨digitLoop_eq (by omega) hlt' (by decide) [], ?_⟩
    rw [List.length_map]
    exact Nat.lt_of_le_of_lt hlen (by decide)
  unfold printint
  generalize (sgn && xx.slt 0) = neg
  cases neg with
  | true =>
    obtain ⟨h1, h2⟩ := hloop (-xx)
    simp only [if_true, h1, Option.bind_some, push, if_pos h2, numeral, List.map_reverse]
    simp
  | false =>
    obtain ⟨h1, -⟩ := hloop xx
    simp [h1, numeral]

/-! ## `printptr` -/

theorem fixed_succ_eq {k v : Nat} (h : v < 16 ^ (k + 1)) :
    fixed (k + 1) v = v / 16 ^ k :: fixed k (v % 16 ^ k) := by
  induction k generalizing v with
  | zero =>
    have : v % 16 = v := Nat.mod_eq_of_lt (by omega)
    simp [fixed, this]
  | succ k ih =>
    have hq : v / 16 < 16 ^ (k + 1) := by omega
    have hdiv : v / 16 / 16 ^ k = v / 16 ^ (k + 1) := by rw [Nat.div_div_eq_div_mul, Nat.pow_succ']
    have hmod : v % 16 ^ (k + 1) / 16 = v / 16 % 16 ^ k := by
      rw [Nat.pow_succ', Nat.mod_mul_right_div_self]
    have hlow : v % 16 ^ (k + 1) % 16 = v % 16 := by
      rw [Nat.pow_succ', Nat.mod_mul_right_mod]
    rw [fixed, ih hq, hdiv]
    rw [show fixed (k + 1) (v % 16 ^ (k + 1)) =
      fixed k (v % 16 ^ (k + 1) / 16) ++ [v % 16 ^ (k + 1) % 16] from rfl, hmod, hlow]
    rfl

/-- With `k` digits to go, the number they show stands in the top `4 * k` bits. -/
theorem ptrLoop_eq {k j v : Nat} {x : BitVec 64} (hkj : k + j = 16) (hv : v < 16 ^ k)
    (hx : x.toNat = v * 16 ^ j) : ptrLoop k x = (fixed k v).map digit := by
  induction k generalizing j v x with
  | zero => rfl
  | succ k ih =>
    have hpow : (16 : Nat) ^ k * 16 ^ j = 2 ^ 60 := by
      rw [← Nat.pow_add, show k + j = 15 by omega]
      rfl
    have htop : (x >>> 60).toNat = v / 16 ^ k := by
      have hj : 0 < (16 : Nat) ^ j := Nat.pow_pos (by decide)
      rw [BitVec.toNat_ushiftRight, Nat.shiftRight_eq_div_pow, hx, ← hpow,
        Nat.mul_div_mul_right _ _ hj]
    have hrest : (x <<< 4).toNat = (v % 16 ^ k) * 16 ^ (j + 1) := by
      have h64 : (2 : Nat) ^ 64 = 16 ^ k * 16 ^ (j + 1) := by
        calc (2 : Nat) ^ 64 = 2 ^ 60 * 16 := by decide
          _ = 16 ^ k * 16 ^ j * 16 := by rw [hpow]
          _ = 16 ^ k * 16 ^ (j + 1) := by rw [Nat.mul_assoc, ← Nat.pow_succ]
      rw [BitVec.toNat_shiftLeft, Nat.shiftLeft_eq, hx, h64, Nat.mul_assoc,
        show (16 : Nat) ^ j * 2 ^ 4 = 16 ^ (j + 1) from (Nat.pow_succ ..).symm]
      exact Nat.mul_mod_mul_right ..
    have hlt : v % 16 ^ k < 16 ^ k := Nat.mod_lt _ (Nat.pow_pos (by decide))
    rw [ptrLoop, fixed_succ_eq hv, htop, ih (by omega) hlt hrest, List.map_cons]

theorem printptr_eq (x : BitVec 64) :
    printptr x = zero :: letterX :: (fixed 16 x.toNat).map digit := by
  rw [printptr, ptrLoop_eq (j := 0) rfl x.isLt (Nat.mul_one _).symm]

/-! ## The conversions -/

inductive Conv where
  | d
  | l
  | x
  | p
  deriving DecidableEq

/-- The character after the `%`. -/
def Conv.char : Conv → UInt8
  | .d => 0x64
  | .l => 0x6c
  | .x => 0x78
  | .p => 0x70

/-- The value that the argument in a register stands for. -/
def Conv.value (v : BitVec 64) : Conv → Int
  | .d => (v.setWidth 32).toInt
  | .l => v.toNat
  | .x => (v.setWidth 32).toNat
  | .p => v.toNat

/-- The numeral that the conversion is for. -/
def Conv.standard (v : BitVec 64) : Conv → Str
  | .d =>
    let z := (v.setWidth 32).toInt
    if z < 0 then minus :: numeral 10 z.natAbs else numeral 10 z.natAbs
  | .l => numeral 10 v.toNat
  | .x => numeral 16 (v.setWidth 32).toNat
  | .p => zero :: letterX :: (fixed 16 v.toNat).map digit

/-- What a reader makes of the characters. -/
def Conv.read (s : Str) : Conv → Int
  | .d => if s.head? = some minus then -parse 10 s.tail else parse 10 s
  | .l => parse 10 s
  | .x => parse 16 s
  | .p => parse 16 (s.drop 2)

theorem minus_notMem_numeral {base v : Nat} (hb : 1 < base) (hle : base ≤ 16) :
    minus ∉ numeral base v := by
  have hall : ∀ j : Fin 16, digit j ≠ minus := by decide
  intro hm
  obtain ⟨d, hd, he⟩ := List.mem_map.mp hm
  exact hall ⟨d, Nat.lt_of_lt_of_le (places_lt hb d (List.mem_reverse.mp hd)) hle⟩ he

theorem read_signed (z : Int) :
    Conv.d.read (if z < 0 then minus :: numeral 10 z.natAbs else numeral 10 z.natAbs) = z := by
  have hp := @parse_numeral 10 (by decide) (by decide) z.natAbs
  by_cases hz : z < 0
  · rw [if_pos hz]
    simp only [Conv.read, List.head?_cons, List.tail_cons, if_true, hp]
    omega
  · have hhead : (numeral 10 z.natAbs).head? ≠ some minus := fun h =>
      minus_notMem_numeral (by decide) (by decide) (List.mem_of_head? h)
    rw [if_neg hz]
    simp only [Conv.read, if_neg hhead, hp]
    omega

theorem Conv.read_standard (conv : Conv) (v : BitVec 64) :
    conv.read (conv.standard v) = conv.value v := by
  cases conv with
  | d => exact read_signed _
  | l => exact congrArg Int.ofNat (parse_numeral (by decide) (by decide) _)
  | x => exact congrArg Int.ofNat (parse_numeral (by decide) (by decide) _)
  | p => exact congrArg Int.ofNat (parse_fixed v.isLt)

/-- What is printed for a conversion: with `%l`, the numeral of the low 32 bits. -/
def Conv.printed (v : BitVec 64) : Conv → Str
  | .l => numeral 10 (v.setWidth 32).toNat
  | conv => conv.standard v

theorem natAbs_toInt (xx : BitVec 32) :
    xx.toInt.natAbs = if xx.slt 0 then (-xx).toNat else xx.toNat := by
  have hi := BitVec.toInt_eq_toNat_cond xx
  have hlt := xx.isLt
  have hneg : (-xx).toNat = (2 ^ 32 - xx.toNat) % 2 ^ 32 := BitVec.toNat_neg xx
  have hs : xx.slt 0 = decide (xx.toInt < 0) := rfl
  rw [hs]
  by_cases h : xx.toInt < 0
  · rw [if_pos (decide_eq_true h), hneg]
    omega
  · rw [if_neg (by simpa using h)]
    omega

theorem convert_conv (conv : Conv) (v : BitVec 64) (args : List Arg) :
    convert conv.char (.word v :: args) = some (conv.printed v, args) := by
  cases conv with
  | d =>
    have hn := natAbs_toInt (v.setWidth 32)
    have hs : (v.setWidth 32).slt 0 = decide ((v.setWidth 32).toInt < 0) := rfl
    change (printint (v.setWidth 32) 10 true).map (·, args) = _
    rw [printint_eq (by decide), Bool.true_and]
    simp only [Conv.printed, Conv.standard, hn, hs, decide_eq_true_eq]
    split <;> rfl
  | l =>
    change (printint (v.setWidth 32) 10 false).map (·, args) = _
    rw [printint_eq (by decide)]
    rfl
  | x =>
    change (printint (v.setWidth 32) 16 false).map (·, args) = _
    rw [printint_eq (by decide)]
    rfl
  | p =>
    change some (printptr v, args) = _
    rw [printptr_eq]
    rfl

theorem Conv.char_ne_zero (conv : Conv) : conv.char ≠ 0 := by
  cases conv <;> decide

/-- A part of a format: a character that is printed as it is, or a conversion with its argument. -/
inductive Part where
  | lit (c : UInt8) (plain : c ≠ 0 ∧ c ≠ percent)
  | conv (k : Conv) (v : BitVec 64)

def Part.text : Part → Str
  | .lit c _ => [c]
  | .conv k _ => [percent, k.char]

def Part.args : Part → List Arg
  | .lit _ _ => []
  | .conv _ v => [.word v]

def Part.printed : Part → Str
  | .lit c _ => [c]
  | .conv k v => k.printed v

/-- `vprintf` prints the parts of its format one after the other. -/
theorem vprintf_parts (ps : List Part) (rest : List Arg) :
    vprintf false (ps.flatMap Part.text) (ps.flatMap Part.args ++ rest) =
      some (ps.flatMap Part.printed) := by
  induction ps with
  | nil => rfl
  | cons part ps ih =>
    cases part with
    | lit c plain =>
      change vprintf false (c :: ps.flatMap Part.text) (ps.flatMap Part.args ++ rest) = _
      rw [vprintf, if_neg plain.1, if_neg plain.2, ih]
      rfl
    | conv k v =>
      change vprintf false (percent :: k.char :: ps.flatMap Part.text)
        (.word v :: (ps.flatMap Part.args ++ rest)) = _
      rw [vprintf, if_neg (by decide), if_pos rfl, vprintf, if_neg k.char_ne_zero, convert_conv,
        Option.bind_some, ih]
      rfl

/-- The characters that `vprintf` emits for a conversion are the numeral of its argument, and reading
them gives the argument back, exactly if the argument of `%l` fits in 32 bits; and no conversion stores
outside the array. -/
theorem conversion_standard_iff (conv : Conv) (v : BitVec 64) :
    ∃ out, vprintf false [percent, conv.char] [.word v] = some out ∧
      ((out = conv.standard v ∧ conv.read out = conv.value v) ↔ (conv = .l → v.toNat < 2 ^ 32)) := by
  refine ⟨conv.printed v, ?_, ?_⟩
  · have h := vprintf_parts [.conv conv v] []
    simpa [Part.text, Part.args, Part.printed] using h
  by_cases hl : conv = .l
  · rw [hl]
    have hwidth : (v.setWidth 32).toNat = v.toNat % 2 ^ 32 := BitVec.toNat_setWidth ..
    constructor
    · intro h _
      have hparse := congrArg (parse 10) h.1
      change parse 10 (numeral 10 _) = parse 10 (numeral 10 _) at hparse
      rw [parse_numeral (by decide) (by decide), parse_numeral (by decide) (by decide), hwidth] at hparse
      omega
    · intro h
      have hfit : (v.setWidth 32).toNat = v.toNat := hwidth.trans (Nat.mod_eq_of_lt (h rfl))
      have hout : Conv.l.printed v = Conv.l.standard v := congrArg (numeral 10) hfit
      exact ⟨hout, hout ▸ Conv.read_standard .l v⟩
  · have hout : conv.printed v = conv.standard v := by
      cases conv with
      | l => exact absurd rfl hl
      | d => rfl
      | x => rfl
      | p => rfl
    exact ⟨fun _ h => absurd h hl, fun _ => ⟨hout, hout ▸ conv.read_standard v⟩⟩

/-- `%l` prints `2 ^ 32` as `0`. -/
theorem printf_long_truncated :
    vprintf false [percent, Conv.l.char] [.word (BitVec.ofNat 64 (2 ^ 32))] = some [zero] ∧
      Conv.l.value (BitVec.ofNat 64 (2 ^ 32)) = 2 ^ 32 := by
  decide +kernel

end Xv6.Printf
