import Xv6.Vm.Life
import Mathlib.Data.List.TakeWhile

/-!
# Access to user memory

`walkaddr` lends a user page of an address space, and nothing else: the trapframe and
the trampoline are not mapped for the user. So `copyout`, `copyin` and `loadseg`
leave the address space as it is, whatever the addresses and the bytes.
-/
namespace Xv6.Vm

open Lib.Bytes Lib.Sep Lib.Sep.Assn Function

set_option autoImplicit false

variable {L : Layout} {ok : Nat → Prop} {tf : Nat}

/-- The entry is mapped for the user. -/
def isUser (e : Nat) : Prop := e &&& PTE_U ≠ 0

/-- What `walkaddr` leaves behind when it returns `r`. -/
def walked (L : Layout) (ok : Nat → Prop) (tf p n va r : Nat) : Assn Nat Mem :=
  if r = 0 then fact ((∀ e, ok e → isUser e) → n ≤ va / PGSIZE) * spaceOf L ok tf p n
  else lent L ok tf p n r

theorem walked_zero (p n va : Nat) : walked L ok tf p n va 0 =
    fact ((∀ e, ok e → isUser e) → n ≤ va / PGSIZE) * spaceOf L ok tf p n := if_pos rfl

theorem walked_of_ne {r : Nat} (p n va : Nat) (h : r ≠ 0) :
    walked L ok tf p n va r = lent L ok tf p n r := if_neg h

theorem walked_le (p n va r : Nat) : walked L ok tf p n va r ≤ spaceOf L ok tf p n := by
  by_cases hr : r = 0
  · rw [hr, walked_zero]
    exact fact_mul_le fun _ => le_rfl
  · rw [walked_of_ne p n va hr]
    exact lent_le p n r

/-- Only the user pages are mapped for the user. -/
theorem Shape.lt_of_user {m : Nat → Nat} {n v : Nat} (h : Shape L ok tf m n) (hv : v < span 3)
    (hV : m v &&& PTE_V ≠ 0) (hU : m v &&& PTE_U ≠ 0) : v < n := by
  by_contra hn
  by_cases ht : v = tfPage
  · rw [ht, h.trapframe, Nat.or_assoc, or_and_flags _ _ (by decide)] at hU
    exact hU (by decide)
  by_cases hp : v = trampPage
  · rw [hp, h.trampoline, Nat.or_assoc, or_and_flags _ _ (by decide)] at hU
    exact hU (by decide)
  rw [h.rest v hv (by omega) ht hp] at hV
  exact hV rfl

theorem users_erase (m : Nat → Nat) {v n : Nat} (h : v < n) :
    users L m 0 n = own L (PTE2PA (m v)) *
      ∏ w ∈ (Finset.Ico 0 n).erase v, own L (PTE2PA (m w)) :=
  (Finset.mul_prod_erase (Finset.Ico 0 n) (fun w => own L (PTE2PA (m w)))
    (Finset.mem_Ico.mpr ⟨Nat.zero_le v, h⟩)).symm

theorem users_isPage (m : Nat → Nat) {v n : Nat} (h : v < n) :
    users L m 0 n ≤ fact (L.IsPage (PTE2PA (m v))) * users L m 0 n := by
  rw [users_erase m h, ← mul_assoc]
  exact mul_le_mul' (own_isPage _) le_rfl

theorem spec_walkaddr (p n va : Nat) :
    Spec L (spaceOf L ok tf p n) (walkaddr p va) (walked L ok tf p n va) := by
  rw [← mul_one (spaceOf L ok tf p n)]
  apply spec_of_space
  intro m hs
  have hb := hs.bound
  rw [tfPage_eq] at hb
  rw [mul_one, walkaddr]
  split
  case isTrue hva =>
    apply Triple.ret
    rw [walked_zero]
    refine le_fact_mul (fun _ => ?_) (le_spaceOf hs)
    unfold MAXVA at hva
    unfold PGSIZE
    omega
  case isFalse hva =>
    have hva := Nat.not_le.mp hva
    have hv3 := vpn_lt hva
    -- the cases in which the entry is of no use to the user
    have hnone : ((∀ e, ok e → isUser e) → n ≤ va / PGSIZE) →
        tree L 2 p m * users L m 0 n ≤ walked L ok tf p n va 0 := by
      intro h
      rw [walked_zero]
      exact le_fact_mul h (le_spaceOf hs)
    refine (spec_walk false 0 p m hva).call rfl fun r => ?_
    split
    case isTrue hr =>
      rw [hr, found_zero, mul_assoc]
      apply Triple.of_fact
      intro hz
      apply Triple.ret
      apply hnone
      intro _
      by_contra hlt
      exact (hs.user _ (Nat.not_le.mp hlt)).1.valid (by rw [hz.1 rfl, Nat.zero_and])
    case isFalse hr =>
      rw [found_of_ne _ _ _ _ _ _ hr]
      refine (spec_load_at hv3).call rfl fun e => ?_
      rw [mul_assoc]
      apply Triple.of_fact
      intro he
      subst he
      apply Triple.pre ?_ (mul_le_mul' (treeAt_le hv3) le_rfl)
      split
      case isTrue hV =>
        apply Triple.ret
        apply hnone
        intro _
        by_contra hlt
        exact (hs.user _ (Nat.not_le.mp hlt)).1.valid hV
      case isFalse hV =>
        split
        case isTrue hU =>
          apply Triple.ret
          apply hnone
          intro hok
          by_contra hlt
          exact hok _ (hs.user _ (Nat.not_le.mp hlt)).2 hU
        case isFalse hU =>
          have hlt := hs.lt_of_user hv3 hV hU
          apply Triple.ret
          refine le_trans (mul_le_mul' le_rfl (users_isPage m hlt)) ?_
          rw [mul_left_comm]
          apply fact_mul_le
          intro hp
          rw [walked_of_ne p n va (Nat.ne_of_gt hp.pos)]
          exact le_any m (le_fact_mul ⟨hs, _, hlt, rfl⟩ le_rfl)

/-! ## Copies -/

/-- The bytes of a page with a list of bytes written to the offset `o`. -/
def write (d : Mem) (o : Nat) (bytes : List UInt8) : Mem :=
  blit d o (fun i => bytes.getD i 0) 0 bytes.length

theorem spec_put_page {k q o : Nat} {d : Mem} {bytes : List UInt8} (h : o + bytes.length ≤ PGSIZE) :
    Uses L k k (page L q d) (put (q + o) bytes) fun _ => page L q (write d o bytes) := by
  apply spec_write (fun m => blit m (q + o) (fun i => bytes.getD i 0) 0 bytes.length) fun s => rfl
  · intro m x hx
    exact if_neg (by omega)
  · rintro m rfl
    funext i
    unfold pageAt write blit
    by_cases hi : i < PGSIZE
    · simp only [hi, if_true, Nat.add_assoc, Nat.add_le_add_iff_left, Nat.add_lt_add_iff_left,
        Nat.add_sub_add_left]
    · rw [if_neg hi, if_neg (by omega)]
      exact (if_neg hi).symm

/-- A lent page may be written, within its bounds. -/
theorem spec_put {k p n r : Nat} (off : Nat) {bytes : List UInt8}
    (h : off + bytes.length ≤ PGSIZE) :
    Uses L k k (lent L ok tf p n r) (put (r + off) bytes) fun _ => spaceOf L ok tf p n := by
  apply Triple.of_any
  intro m
  apply Triple.of_fact
  rintro ⟨hs, v, hv, rfl⟩
  have hput : Uses L k k (own L (PTE2PA (m v))) (put (PTE2PA (m v) + off) bytes) fun _ =>
      own L (PTE2PA (m v)) :=
    spec_blit (fun _ i => bytes.getD i 0) 0 (fun s => rfl) h
  rw [users_erase m hv, mul_left_comm]
  refine (hput.frame _).post fun _ => ?_
  rw [mul_left_comm, ← users_erase m hv]
  exact le_spaceOf hs

/-- Reading memory leaves everything as it is. -/
theorem spec_fetch {n : Nat} (P : Assn Nat Mem) (a k : Nat) :
    Uses L n n P (fetch a k) fun bytes => fact (bytes.length = k) * P := by
  intro R s hs
  refine ⟨_, s, rfl, ?_⟩
  apply Assn.mul_left ?_ hs
  refine le_fact_mul ?_ le_rfl
  rw [List.length_map, List.length_range]

theorem offset_lt (va : Nat) : va - PGROUNDDOWN va < PGSIZE := by
  unfold PGROUNDDOWN PGSIZE
  omega

theorem spec_copyout (p n dstva : Nat) (src : List UInt8) :
    Spec L (spaceOf L ok tf p n) (copyout p dstva src) fun _ => spaceOf L ok tf p n := by
  unfold copyout
  generalize src.length = fuel
  induction fuel generalizing dstva src with
  | zero => exact Triple.ret _ le_rfl
  | succ fuel ih =>
    rw [copyoutLoop]
    split
    case isTrue => exact Triple.ret _ le_rfl
    case isFalse =>
      refine (spec_walkaddr p n _).bind fun r => ?_
      split
      case isTrue => exact Triple.ret _ (walked_le _ _ _ _)
      case isFalse hr =>
        rw [walked_of_ne _ _ _ hr]
        have hoff := offset_lt dstva
        refine (spec_put _ ?_).bind fun _ => ih _ _
        rw [List.length_take]
        omega

theorem spec_copyinLoop (p n fuel srcva len : Nat) (dst : List UInt8) :
    Spec L (spaceOf L ok tf p n) (copyinLoop p fuel srcva len dst) fun _ =>
      spaceOf L ok tf p n := by
  induction fuel generalizing srcva len dst with
  | zero => exact Triple.ret _ le_rfl
  | succ fuel ih =>
    rw [copyinLoop]
    split
    case isTrue => exact Triple.ret _ le_rfl
    case isFalse =>
      refine (spec_walkaddr p n _).bind fun r => ?_
      apply Triple.pre ?_ (walked_le _ _ _ _)
      split
      case isTrue => exact Triple.ret _ le_rfl
      case isFalse =>
        refine (spec_fetch _ _ _).bind fun bytes => ?_
        exact Triple.of_fact fun _ => ih _ _ _

theorem takeWhile_lt {bytes : List UInt8} (h : 0 ∈ bytes) :
    (bytes.takeWhile (· ≠ 0)).length < bytes.length := by
  by_contra hn
  have he := (List.takeWhile_sublist (fun b : UInt8 => decide (b ≠ 0))).eq_of_length_le
    (Nat.not_lt.mp hn)
  rw [← he] at h
  exact absurd (List.mem_takeWhile_imp h) (by decide)

/-- `copyinstr` writes at most `max` bytes to its destination, with a zero if it found the end. -/
theorem spec_copyinstrLoop (p n fuel srcva max : Nat) (dst : List UInt8) :
    Spec L (spaceOf L ok tf p n) (copyinstrLoop p fuel srcva max dst) fun x =>
      fact (x.2.length ≤ dst.length + max ∧ (x.1 = true → 0 ∈ x.2)) * spaceOf L ok tf p n := by
  have hstop : ∀ max, dst.length ≤ dst.length + max ∧ (false = true → 0 ∈ dst) :=
    fun max => ⟨Nat.le_add_right _ _, fun h => by cases h⟩
  induction fuel generalizing srcva max dst with
  | zero => exact Triple.ret _ (le_fact_mul (hstop max) le_rfl)
  | succ fuel ih =>
    rw [copyinstrLoop]
    split
    case isTrue => exact Triple.ret _ (le_fact_mul (hstop max) le_rfl)
    case isFalse hmax =>
      refine (spec_walkaddr p n _).bind fun r => ?_
      apply Triple.pre ?_ (walked_le _ _ _ _)
      split
      case isTrue => exact Triple.ret _ (le_fact_mul (hstop max) le_rfl)
      case isFalse =>
        refine (spec_fetch _ _ _).bind fun bytes => ?_
        apply Triple.of_fact
        intro hlen
        have hoff := offset_lt srcva
        split
        case isTrue hz =>
          apply Triple.ret
          refine le_fact_mul ⟨?_, fun _ => List.mem_append_right _ List.mem_cons_self⟩ le_rfl
          have htake := takeWhile_lt hz
          simp only [List.length_append, List.length_singleton]
          omega
        case isFalse =>
          refine (ih _ _ _ fun max => ⟨Nat.le_add_right _ _, fun h => by cases h⟩).post fun x => ?_
          apply fact_mul_le
          intro hx
          refine le_fact_mul ⟨?_, hx.2⟩ le_rfl
          rw [List.length_append] at hx
          omega

/-! Copies from a process leave the memory as it is. -/

theorem reads_fetch (a n : Nat) : Reads (fetch a n) := by
  intro s c t h
  cases h
  rfl

theorem reads_walkaddr (p va : Nat) : Reads (walkaddr p va) := by
  unfold walkaddr
  split
  · exact Reads.pure _
  · refine (reads_walk _ _).bind fun pte => ?_
    split
    · exact Reads.pure _
    · refine (reads_load _ _).bind fun e => ?_
      split
      · exact Reads.pure _
      · split
        · exact Reads.pure _
        · exact Reads.pure _

theorem reads_copyinLoop (p fuel srcva len : Nat) (dst : List UInt8) :
    Reads (copyinLoop p fuel srcva len dst) := by
  induction fuel generalizing srcva len dst with
  | zero => exact Reads.pure _
  | succ fuel ih =>
    rw [copyinLoop]
    split
    · exact Reads.pure _
    · refine (reads_walkaddr _ _).bind fun pa => ?_
      split
      · exact Reads.pure _
      · exact (reads_fetch _ _).bind fun bytes => ih _ _ _

theorem reads_copyinstrLoop (p fuel srcva max : Nat) (dst : List UInt8) :
    Reads (copyinstrLoop p fuel srcva max dst) := by
  induction fuel generalizing srcva max dst with
  | zero => exact Reads.pure _
  | succ fuel ih =>
    rw [copyinstrLoop]
    split
    · exact Reads.pure _
    · refine (reads_walkaddr _ _).bind fun pa => ?_
      split
      · exact Reads.pure _
      · refine (reads_fetch _ _).bind fun bytes => ?_
        split
        · exact Reads.pure _
        · exact ih _ _ _

theorem keep_copyin {p n : Nat} {F T : Assn Nat Mem} (hF : F ≤ spaceOf L ok tf p n * T) (srcva len : Nat) :
    Spec L F (copyin p srcva len) fun _ => F := by
  refine (((spec_copyinLoop p n _ srcva len []).frame T).keep (φ := fun _ => True)
    (reads_copyinLoop _ _ _ _ _) hF fun _ => le_fact_mul trivial le_rfl).post fun _ => ?_
  exact fact_mul_le fun _ => le_rfl

theorem keep_copyinstr {p n : Nat} {F T : Assn Nat Mem} (hF : F ≤ spaceOf L ok tf p n * T) (srcva max : Nat) :
    Spec L F (copyinstr p srcva max) fun x => fact (x.2.length ≤ max ∧ (x.1 = true → 0 ∈ x.2)) * F := by
  refine (((spec_copyinstrLoop p n _ srcva max []).frame T).keep (reads_copyinstrLoop _ _ _ _ _) hF
    fun _ => le_of_eq (mul_assoc _ _ _)).post fun x => ?_
  rw [List.length_nil, Nat.zero_add]

/-! ## The stack guard -/

theorem clear_user_and {e k : Nat} (hk : (2 ^ 64 - 1 - PTE_U) &&& k = k) :
    (e &&& (2 ^ 64 - 1 - PTE_U)) &&& k = e &&& k := by
  rw [Nat.and_assoc, hk]

theorem PTE2PA_clear_user {e : Nat} (he : e < 256 ^ 8) :
    PTE2PA (e &&& (2 ^ 64 - 1 - PTE_U)) = PTE2PA e := by
  have h : e >>> 10 < 2 ^ 54 := by
    rw [Nat.shiftRight_eq_div_pow]
    omega
  unfold PTE2PA
  rw [Nat.shiftRight_and_distrib, show (2 ^ 64 - 1 - PTE_U) >>> 10 = 2 ^ 54 - 1 by decide,
    Nat.and_two_pow_sub_one_of_lt_two_pow h]

theorem Leaf.clear_user {e : Nat} (h : Leaf e) : Leaf (e &&& (2 ^ 64 - 1 - PTE_U)) := by
  constructor
  · exact lt_of_le_of_lt Nat.and_le_left h.lt
  · rw [clear_user_and (by decide)]
    exact h.valid
  · rw [clear_user_and (by decide)]
    exact h.readable

/-- Changing the entry of a user page to another leaf. -/
theorem Shape.replace {m : Nat → Nat} {n v e : Nat} (h : Shape L ok tf m n) (hv : v < n)
    (he : Leaf e) : Shape L (fun _ => True) tf (Function.update m v e) n := by
  have hb := h.bound
  have ht : tfPage ≠ v := by omega
  have hp : trampPage ≠ v := by
    rw [tfPage_eq] at hb
    rw [trampPage_eq]
    omega
  constructor
  · intro w hw
    by_cases hwv : w = v
    · rw [hwv, update_self]
      exact ⟨he, trivial⟩
    · rw [update_of_ne hwv]
      exact ⟨(h.user w hw).1, trivial⟩
  · exact hb
  · exact h.tf_lt
  · rw [update_of_ne ht]
    exact h.trapframe
  · rw [update_of_ne hp]
    exact h.trampoline
  · intro w h3 hw hwt hwp
    rw [update_of_ne (by omega)]
    exact h.rest w h3 hw hwt hwp

/-- The entry `e` without the flag that makes its page accessible to the user. -/
def clearUser (e : Nat) : Nat := e &&& (2 ^ 64 - 1 - PTE_U)

theorem spec_uvmclear_with {p n v : Nat} {m : Nat → Nat} {c : Nat → Mem} (hs : Shape L ok tf m n)
    (hv : v < n) :
    Spec L (spaceWith L p m c n) (uvmclear p (v * PGSIZE)) fun _ =>
      spaceWith L p (update m v (clearUser (m v))) c n := by
  have hb := hs.bound
  rw [tfPage_eq] at hb
  have hva : v * PGSIZE < MAXVA := by
    unfold PGSIZE MAXVA
    omega
  have hv3 : v < span 3 := by
    rw [span_three]
    omega
  have hl := (hs.user v hv).1
  rw [uvmclear]
  refine (spec_walk false 0 p m hva).call rfl fun r => ?_
  rw [pageno]
  split
  case isTrue hr =>
    rw [hr, found_zero, mul_assoc]
    apply Triple.of_fact
    intro hz
    exact absurd (by rw [hz.1 rfl, Nat.zero_and]) hl.valid
  case isFalse hr =>
    rw [found_of_ne _ _ _ _ _ _ hr]
    refine (spec_load_at hv3).call rfl fun e => ?_
    rw [mul_assoc]
    apply Triple.of_fact
    intro he
    subst he
    refine ((spec_store_at hv3 hl.clear_user.lt).frame _).post fun _ => ?_
    refine mul_le_mul' (treeAt_le hv3) (le_of_eq ?_)
    apply Finset.prod_congr rfl
    intro w _
    by_cases hw : w = v
    · rw [hw, update_self, clearUser, PTE2PA_clear_user hl.lt]
    · rw [update_of_ne hw]

theorem spec_uvmclear {p n v : Nat} (hv : v < n) :
    Spec L (spaceOf L ok tf p n) (uvmclear p (v * PGSIZE)) fun _ => space L tf p n := by
  apply Triple.pre ?_ (le_of_eq (one_mul _).symm)
  refine spec_of_bytes fun m c hs => ?_
  rw [one_mul]
  exact (spec_uvmclear_with hs hv).post fun _ => spaceWith_le (hs.replace hv (hs.user v hv).1.clear_user)

/-! ## Loading a segment -/

theorem Image.readiLoop_length (ip : Image) (fuel n off : Nat) (dst : List UInt8) :
    (ip.readiLoop fuel n off dst).length ≤ dst.length + n := by
  induction fuel generalizing n off dst with
  | zero => exact Nat.le_add_right _ _
  | succ fuel ih =>
    rw [readiLoop]
    split
    case isTrue => exact Nat.le_add_right _ _
    case isFalse =>
      split
      · exact Nat.le_add_right _ _
      · refine le_trans (ih _ _ _) ?_
        rw [List.length_append, List.length_map, List.length_range]
        omega

theorem Image.readi_length (ip : Image) (off n : Nat) : (ip.readi off n).length ≤ n := by
  unfold readi
  split
  case isTrue => exact Nat.zero_le n
  case isFalse h =>
    refine le_trans (ip.readiLoop_length _ _ _ _) ?_
    rw [List.length_nil, Nat.zero_add]
    split
    case isTrue hs => omega
    case isFalse => exact le_rfl

/-- `loadseg` finds the pages of the segment, when the address space reaches over it. -/
theorem spec_loadsegLoop (ip : Image) {p n va sz : Nat} (offset k i : Nat) (hn : va + sz ≤ n * PGSIZE)
    (hk : i + k * PGSIZE < sz + PGSIZE) :
    Spec L (spaceOf L isUser tf p n) (loadsegLoop p va ip offset sz k i) fun _ =>
      spaceOf L isUser tf p n := by
  apply Triple.pre ?_ (spaceOf_bound p n)
  apply Triple.of_fact
  intro hb
  rw [tfPage_eq] at hb
  induction k generalizing i with
  | zero => exact Triple.ret _ le_rfl
  | succ k ih =>
    rw [loadsegLoop]
    have hmod : (va + i) % 2 ^ 64 = va + i := by
      apply Nat.mod_eq_of_lt
      unfold PGSIZE at *
      omega
    have hlt : (va + i) / PGSIZE < n := by
      unfold PGSIZE at *
      omega
    rw [hmod]
    refine (spec_walkaddr p n (va + i)).bind fun r => ?_
    split
    case isTrue hr =>
      rw [hr, walked_zero]
      apply Triple.of_fact
      intro hz
      have hle := hz fun _ h => h
      exact absurd hlt (Nat.not_lt.mpr hle)
    case isFalse hr =>
      rw [walked_of_ne _ _ _ hr]
      have hle : (if sz - i < PGSIZE then sz - i else PGSIZE) ≤ PGSIZE := by
        split
        case isTrue h => exact Nat.le_of_lt h
        case isFalse => exact le_rfl
      generalize (if sz - i < PGSIZE then sz - i else PGSIZE) = len at hle
      have hput := ip.readi_length ((offset + i) % 2 ^ 32) len
      refine (spec_put 0 (Nat.zero_add _ ▸ le_trans hput hle)).bind fun _ => ?_
      split
      case isTrue => exact Triple.ret _ le_rfl
      case isFalse =>
        apply ih
        rw [Nat.add_mul, Nat.one_mul] at hk
        omega

end Xv6.Vm
