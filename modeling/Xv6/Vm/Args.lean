import Xv6.Vm.Outcomes

/-!
# The arguments of a new program

`exec` pushes the argument strings and then the array of pointers to them, downwards from
the end of the stack page, each at a multiple of 16. The layout is given here over the
integers, where nothing wraps; the triples of the loop show that the machine's stack pointer
follows it, and that the page holds what was pushed.
-/
namespace Xv6.Vm

open Lib.Bytes Lib.Sep Lib.Sep.Assn Function

set_option autoImplicit false

/-! ## The layout -/

/-- The multiple of 16 at or below `sp - n`. -/
def below (sp : Int) (n : Nat) : Int := (sp - n) / 16 * 16

/-- Where the strings are that were pushed from `sp` down. -/
def stringsAt (sp : Int) : List (List UInt8) → List Int
  | [] => []
  | t :: ts => below sp (t.length + 1) :: stringsAt (below sp (t.length + 1)) ts

/-- The stack pointer after the strings. -/
def bottom (sp : Int) : List (List UInt8) → Int
  | [] => sp
  | t :: ts => bottom (below sp (t.length + 1)) ts

/-- Where the array of pointers is. -/
def arrayAt (sp : Int) (ts : List (List UInt8)) : Int := below (bottom sp ts) ((ts.length + 1) * 8)

/-- The bytes at `a` are those of the list. -/
def Holds (m : Mem) (a : Nat) (bytes : List UInt8) : Prop :=
  ∀ o < bytes.length, m (a + o) = bytes.getD o 0

/-- The bytes of the stack page at `base` when the strings were pushed. -/
def pushed (base : Int) (d : Mem) (sp : Int) : List (List UInt8) → Mem
  | [] => d
  | t :: ts =>
    pushed base (write d (below sp (t.length + 1) - base).toNat (t ++ [0])) (below sp (t.length + 1)) ts

section Layout

variable {base sp : Int} {d : Mem}

theorem below_add_le (sp : Int) (n : Nat) : below sp n + n ≤ sp := by
  unfold below
  omega

theorem below_aligned (sp : Int) (n : Nat) : below sp n % 16 = 0 := by
  unfold below
  omega

theorem write_holds (o : Nat) (bytes : List UInt8) : Holds (write d o bytes) o bytes := by
  intro x hx
  unfold write blit
  rw [if_pos (by omega), Nat.zero_add, Nat.add_sub_cancel_left]

theorem write_outside {o x : Nat} {bytes : List UInt8} (h : x < o ∨ o + bytes.length ≤ x) :
    write d o bytes x = d x := if_neg (by omega)

theorem bottom_le (sp : Int) (ts : List (List UInt8)) : bottom sp ts ≤ sp := by
  induction ts generalizing sp with
  | nil => exact le_rfl
  | cons t ts ih =>
    have h1 := below_add_le sp (t.length + 1)
    have h2 := ih (below sp (t.length + 1))
    rw [bottom]
    omega

/-- The strings lie one below the other, between the stack pointer before and after. -/
theorem stringsAt_bounds (sp : Int) (ts : List (List UInt8)) :
    ∀ x ∈ (stringsAt sp ts).zip ts,
      x.1 % 16 = 0 ∧ bottom sp ts ≤ x.1 ∧ x.1 + (x.2.length + 1) ≤ sp := by
  induction ts generalizing sp with
  | nil =>
    intro x hx
    cases hx
  | cons t ts ih =>
    have h1 := below_add_le sp (t.length + 1)
    have h2 := bottom_le (below sp (t.length + 1)) ts
    intro x hx
    rw [bottom]
    rcases List.mem_cons.mp hx with rfl | hx
    · refine ⟨below_aligned _ _, h2, ?_⟩
      push_cast at h1
      exact h1
    · obtain ⟨h3, h4, h5⟩ := ih _ x hx
      exact ⟨h3, h4, by omega⟩

theorem stringsAt_pairwise (sp : Int) (ts : List (List UInt8)) :
    ((stringsAt sp ts).zip ts).Pairwise fun x y => y.1 + ((y.2.length : Int) + 1) ≤ x.1 := by
  induction ts generalizing sp with
  | nil => exact List.Pairwise.nil (R := fun x y : Int × List UInt8 => y.1 + ((y.2.length : Int) + 1) ≤ x.1)
  | cons t ts ih => exact List.Pairwise.cons (fun y hy => (stringsAt_bounds _ ts y hy).2.2) (ih _)

/-- What is above the stack pointer stays. -/
theorem pushed_above (ts : List (List UInt8)) (hb : base ≤ bottom sp ts) {x : Nat} (hx : sp ≤ base + x) :
    pushed base d sp ts x = d x := by
  induction ts generalizing sp d with
  | nil => rfl
  | cons t ts ih =>
    have h1 := below_add_le sp (t.length + 1)
    have h2 := bottom_le (below sp (t.length + 1)) ts
    rw [bottom] at hb
    rw [pushed, ih hb (by omega), write_outside]
    rw [List.length_append, List.length_singleton]
    omega

theorem pushed_strings (ts : List (List UInt8)) (hb : base ≤ bottom sp ts) :
    ∀ x ∈ (stringsAt sp ts).zip ts, Holds (pushed base d sp ts) (x.1 - base).toNat (x.2 ++ [0]) := by
  induction ts generalizing sp d with
  | nil =>
    intro x hx
    cases hx
  | cons t ts ih =>
    have h1 := below_add_le sp (t.length + 1)
    have h2 := bottom_le (below sp (t.length + 1)) ts
    rw [bottom] at hb
    intro x hx
    rw [pushed]
    rcases List.mem_cons.mp hx with rfl | hx
    · intro o ho
      rw [pushed_above ts hb (by omega)]
      exact write_holds _ _ o ho
    · exact ih hb x hx

end Layout

/-! ## Words -/

theorem wordBytes_getD (ws : List Nat) (j i : Nat) (hi : i < 8) :
    (wordBytes ws).getD (8 * j + i) 0 = UInt8.ofNat (ws.getD j 0 / 256 ^ i) := by
  induction ws generalizing j with
  | nil => simp [wordBytes]
  | cons w ws ih =>
    have hlen : ((List.range 8).map fun i => UInt8.ofNat (w / 256 ^ i)).length = 8 := by simp
    have hcons : wordBytes (w :: ws) = ((List.range 8).map fun i => UInt8.ofNat (w / 256 ^ i)) ++
      wordBytes ws := rfl
    rw [hcons]
    cases j with
    | zero =>
      rw [Nat.mul_zero, Nat.zero_add, List.getD_append _ _ _ _ (by omega), List.getD_eq_getElem _ _ (by omega)]
      simp
    | succ j =>
      rw [List.getD_append_right _ _ _ _ (by omega), hlen, show 8 * (j + 1) + i - 8 = 8 * j + i by omega, ih]
      rfl

theorem wordBytes_length (ws : List Nat) : (wordBytes ws).length = 8 * ws.length := by
  induction ws with
  | nil => rfl
  | cons w ws ih =>
    have hcons : wordBytes (w :: ws) = ((List.range 8).map fun i => UInt8.ofNat (w / 256 ^ i)) ++
      wordBytes ws := rfl
    rw [hcons, List.length_append, ih, List.length_map, List.length_range, List.length_cons]
    omega

/-! ## Writing to a user page -/

section Triples

variable {L : Layout} {ok : Nat → Prop} {tf p n v : Nat} {m : Nat → Nat} {c : Nat → Mem}

/-- The pointers that are pushed, with the zero at the end. -/
def pointers (sp : Int) (ts : List (List UInt8)) : List Nat := (stringsAt sp ts).map Int.toNat ++ [0]

/-- The stack page at `base`, which was `d`, with everything pushed to it. -/
def stackPage (base : Int) (d : Mem) (sp : Int) (ts : List (List UInt8)) : Mem :=
  write (pushed base d sp ts) (arrayAt sp ts - base).toNat (wordBytes (pointers sp ts))

theorem stringsAt_length (sp : Int) (ts : List (List UInt8)) : (stringsAt sp ts).length = ts.length := by
  induction ts generalizing sp with
  | nil => rfl
  | cons t ts ih => rw [stringsAt, List.length_cons, List.length_cons, ih]

/-- The registers say where the array of pointers is. -/
structure Started (ct : Mem) (sp : Nat) : Prop where
  a1 : getLE ct TF_A1 8 = sp
  sp : getLE ct TF_SP 8 = sp

section Commit

variable {old oldsz : Nat} {F A : Assn Nat Mem} (hF : F ≤ own L tf * space L tf old (pagesOf oldsz))

include hF

end Commit

end Triples

/-! ## What is in the stack page -/

section Stack

variable {base sp : Int} {d : Mem} {ts : List (List UInt8)}

theorem array_le_bottom (sp : Int) (ts : List (List UInt8)) :
    arrayAt sp ts + ((ts.length + 1) * 8 : Nat) ≤ bottom sp ts := below_add_le _ _

theorem pointers_length (sp : Int) (ts : List (List UInt8)) : (pointers sp ts).length = ts.length + 1 := by
  rw [pointers, List.length_append, List.length_map, stringsAt_length, List.length_singleton]

theorem stringsAt_le (sp : Int) (ts : List (List UInt8)) : ∀ x ∈ stringsAt sp ts, x ≤ sp := by
  induction ts generalizing sp with
  | nil =>
    intro x hx
    cases hx
  | cons t ts ih =>
    have h1 := below_add_le sp (t.length + 1)
    intro x hx
    rcases List.mem_cons.mp hx with rfl | hx
    · omega
    · have h2 := ih _ x hx
      omega

theorem pointers_lt (hsp : sp < 2 ^ 64) {w : Nat} (hw : w ∈ pointers sp ts) : w < 256 ^ 8 := by
  rcases List.mem_append.mp hw with hw | hw
  · obtain ⟨x, hx, rfl⟩ := List.mem_map.mp hw
    have hle := stringsAt_le sp ts x hx
    omega
  · rw [List.mem_singleton.mp hw]
    decide

theorem stackPage_strings (hb : base ≤ arrayAt sp ts) :
    ∀ x ∈ (stringsAt sp ts).zip ts, Holds (stackPage base d sp ts) (x.1 - base).toNat (x.2 ++ [0]) := by
  have harray := array_le_bottom sp ts
  intro x hx o ho
  have hbounds := (stringsAt_bounds sp ts x hx).2.1
  rw [← pushed_strings (d := d) ts (show base ≤ bottom sp ts by omega) x hx o ho]
  apply write_outside
  rw [wordBytes_length, pointers_length]
  omega

theorem stackPage_words (hsp : sp < 2 ^ 64) {j : Nat} (hj : j ≤ ts.length) :
    getLE (stackPage base d sp ts) ((arrayAt sp ts - base).toNat + 8 * j) 8 = (pointers sp ts).getD j 0 := by
  have hj : j < (pointers sp ts).length := by
    rw [pointers_length]
    omega
  have hlt : (pointers sp ts).getD j 0 < 256 ^ 8 := by
    apply pointers_lt hsp
    rw [List.getD_eq_getElem _ _ hj]
    exact List.getElem_mem hj
  rw [← Nat.mod_eq_of_lt hlt]
  refine getLE_digits fun i hi => ?_
  rw [← wordBytes_getD _ _ _ hi, Nat.add_assoc]
  apply write_holds
  rw [wordBytes_length]
  omega

end Stack

/-! ## The new address space -/

/-- The memory of a process, as it sees it through its page table. -/
def userMem (m : Mem) (pagetable : Nat) : Mem :=
  fun va => m (PTE2PA (lookup m 2 pagetable (va / PGSIZE)) + va % PGSIZE)

/-- The process `p` has the arguments `args` on its stack, the page below its size; `before` is the
memory before they were put there. -/
structure Passed (before after : Mem) (p : Proc) (args : List (List UInt8)) : Prop where
  a1 : (getLE after (p.trapframe + TF_A1) 8 : Int) = arrayAt p.sz args
  sp : (getLE after (p.trapframe + TF_SP) 8 : Int) = arrayAt p.sz args
  words : ∀ j ≤ args.length, getLE (userMem after p.pagetable) ((arrayAt p.sz args).toNat + 8 * j) 8 =
    ((stringsAt p.sz args).map Int.toNat ++ [0]).getD j 0
  strings : ∀ x ∈ (stringsAt p.sz args).zip args,
    Holds (userMem after p.pagetable) x.1.toNat (x.2 ++ [0])
  array : arrayAt p.sz args % 16 = 0 ∧ (p.sz - PGSIZE : Int) ≤ arrayAt p.sz args ∧
    arrayAt p.sz args + ((args.length + 1) * 8 : Nat) ≤ p.sz
  inside : ∀ x ∈ (stringsAt p.sz args).zip args, x.1 % 16 = 0 ∧
    arrayAt p.sz args + ((args.length + 1) * 8 : Nat) ≤ x.1 ∧ x.1 + (x.2.length + 1) ≤ p.sz
  apart : ((stringsAt p.sz args).zip args).Pairwise fun x y => y.1 + ((y.2.length : Int) + 1) ≤ x.1
  below : ∀ va, va + PGSIZE < p.sz → userMem after p.pagetable va = userMem before p.pagetable va

section Passing

variable {L : Layout}

theorem getLE_shift {m m' : Mem} {a b k : Nat} (h : ∀ i < k, m (a + i) = m' (b + i)) :
    getLE m a k = getLE m' b k := by
  induction k generalizing a b with
  | zero => rfl
  | succ k ih =>
    have h0 : m a = m' b := h 0 (Nat.succ_pos k)
    have hrest : getLE m (a + 1) k = getLE m' (b + 1) k := ih fun i hi => by
      rw [Nat.add_assoc, Nat.add_assoc, Nat.add_comm 1 i]
      exact h (i + 1) (by omega)
    rw [getLE, getLE, h0, hrest]

/-- User memory, page by page. -/
theorem userMem_page {s : Kmem} {p n v o : Nat} {m : Nat → Nat} {c : Nat → Mem} {R : Assn Nat Mem}
    (h : (spaceWith L p m c n * R) (view L s)) (hn : n ≤ 2 ^ 27) (hv : v < n) (ho : o < PGSIZE) :
    userMem s.mem p (v * PGSIZE + o) = c v o := by
  obtain ⟨hm, hc⟩ := spaceWith_bytes h
  have hdiv : (v * PGSIZE + o) / PGSIZE = v := by
    unfold PGSIZE at *
    omega
  have hmod : (v * PGSIZE + o) % PGSIZE = o := by
    unfold PGSIZE at *
    omega
  unfold userMem
  rw [hdiv, hmod, hm v (by omega), ← hc v hv, pageAt_lt ho]

theorem passed {k2 k3 : Kmem} {p : Proc} {ts : List (List UInt8)} {N : Nat} {m m' : Nat → Nat}
    {c : Nat → Mem} {ct : Mem} {R R' T : Assn Nat Mem} (hN : N + 2 ≤ tfPage)
    (hsz : p.sz = (N + 2) * PGSIZE) (hfit : (((N + 1) * PGSIZE : Nat) : Int) ≤ arrayAt p.sz ts)
    (hbefore : (spaceWith L p.pagetable m c (N + 2) * R) (view L k2))
    (hafter : (spaceWith L p.pagetable m' (update c (N + 1)
      (stackPage ((N + 1) * PGSIZE : Nat) (c (N + 1)) p.sz ts)) (N + 2) * R') (view L k3))
    (htf : (page L p.trapframe ct * T) (view L k3)) (hct : Started ct (arrayAt p.sz ts).toNat) :
    Passed k2.mem k3.mem p ts := by
  rw [tfPage_eq] at hN
  have htop : p.sz = (N + 1) * PGSIZE + PGSIZE := by
    rw [hsz]
    unfold PGSIZE
    omega
  have hlt : (p.sz : Int) < 2 ^ 64 := by
    rw [hsz]
    unfold PGSIZE
    omega
  have harray := array_le_bottom p.sz ts
  have hbottom := bottom_le p.sz ts
  -- the stack page, seen by the process
  have hstack : ∀ o < PGSIZE, userMem k3.mem p.pagetable ((N + 1) * PGSIZE + o) =
      stackPage ((N + 1) * PGSIZE : Nat) (c (N + 1)) p.sz ts o := by
    intro o ho
    rw [userMem_page hafter (by omega) (by omega) ho, update_self]
  have hreg : ∀ o, o + 8 ≤ PGSIZE → getLE k3.mem (p.trapframe + o) 8 = getLE ct o 8 := by
    intro o ho
    rw [pageAt_field ho, ← content_eq htf]
  constructor
  · rw [hreg _ (by decide), hct.a1]
    omega
  · rw [hreg _ (by decide), hct.sp]
    omega
  · intro j hj
    rw [← pointers, ← stackPage_words (d := c (N + 1)) hlt hj]
    refine getLE_shift fun x hx => ?_
    rw [← hstack _ (by omega)]
    congr 1
    omega
  · intro x hx o ho
    obtain ⟨-, h1, h2⟩ := stringsAt_bounds p.sz ts x hx
    have hlen : (x.2 ++ [0]).length = x.2.length + 1 := by
      rw [List.length_append, List.length_singleton]
    rw [← stackPage_strings (d := c (N + 1)) hfit x hx o ho, ← hstack _ (by omega)]
    congr 1
    omega
  · exact ⟨below_aligned _ _, by omega, by omega⟩
  · intro x hx
    obtain ⟨h0, h1, h2⟩ := stringsAt_bounds p.sz ts x hx
    exact ⟨h0, by omega, h2⟩
  · exact stringsAt_pairwise _ _
  · intro va hva
    have hv : va / PGSIZE < N + 1 := by
      unfold PGSIZE at *
      omega
    have ho : va % PGSIZE < PGSIZE := Nat.mod_lt _ (by decide)
    rw [← Nat.div_add_mod va PGSIZE, Nat.mul_comm, userMem_page hafter (by omega) (by omega) ho,
      userMem_page hbefore (by omega) (by omega) ho, update_of_ne (by omega)]

end Passing

end Xv6.Vm
