import Xv6.Vm.Access

/-!
# `exec` and the pages it uses

Whatever the program headers say, every address space that `exec` builds holds the
pages below its size: `uvmalloc` has grown it over a segment before `loadseg` looks for
the segment's pages. On failure the new address space is given back and the old one is
as it was; on success it is the other way round.
-/
namespace Xv6.Vm

open Lib.Bytes Lib.Sep Lib.Sep.Assn

set_option autoImplicit false

variable {L : Layout} {ok : Nat → Prop} {tf : Nat}

/-! ## Loading the segments -/

theorem isUser_pte (q f : Nat) :
    isUser (PA2PTE q ||| (PTE_R ||| PTE_U ||| f) ||| PTE_V) := by
  unfold isUser
  rw [Nat.or_assoc, or_and_flags q _ (by decide), Nat.and_or_distrib_right, Nat.and_or_distrib_right]
  intro hz
  have hz := (Nat.or_eq_zero_iff.mp (Nat.or_eq_zero_iff.mp hz).1).1
  exact absurd hz (by decide)

theorem flags2perm_lt (flags : Nat) : flags2perm flags < 1024 := by
  unfold flags2perm
  split <;> split <;> decide

theorem le_pagesOf_mul (sz : Nat) : sz ≤ pagesOf sz * PGSIZE := by
  unfold pagesOf pagesBetween PGSIZE
  omega

theorem spec_loadseg (ip : Image) {p n va sz : Nat} (offset : Nat) (h : va + sz ≤ n * PGSIZE) :
    Spec L (spaceOf L isUser tf p n) (loadseg p va ip offset sz) fun _ =>
      spaceOf L isUser tf p n := by
  apply spec_loadsegLoop ip offset _ 0 h
  unfold pagesBetween PGSIZE
  omega

/-- The address space holds the pages below the size that the loop has reached. -/
theorem spec_loadLoop (hN : L.npages < tfPage) (ip : Image) {p : Nat} (k off sz : Nat) :
    Spec L (spaceOf L isUser tf p (pagesOf sz)) (loadLoop L p ip k off sz) fun r =>
      spaceOf L isUser tf p (pagesOf r.2) := by
  induction k generalizing off sz with
  | zero => exact Triple.ret _ le_rfl
  | succ k ih =>
    rw [loadLoop]
    split
    case isTrue => exact Triple.ret _ le_rfl
    split
    case isTrue => exact ih _ _
    split
    case isTrue => exact Triple.ret _ le_rfl
    split
    case isTrue => exact Triple.ret _ le_rfl
    split
    case isTrue => exact Triple.ret _ le_rfl
    rename_i hmem hwrap _
    have hlt : field (ip.readi (off % 2 ^ 32) PROGHDR) 40 8 < 256 ^ 8 := getLE_lt _ _ _
    generalize field (ip.readi (off % 2 ^ 32) PROGHDR) 16 8 = vaddr at *
    generalize field (ip.readi (off % 2 ^ 32) PROGHDR) 32 8 = filesz at *
    generalize field (ip.readi (off % 2 ^ 32) PROGHDR) 40 8 = memsz at *
    refine (spec_uvmalloc hN (flags2perm_lt _) fun q => isUser_pte q _).bind
      fun sz1 => ?_
    apply Triple.of_either
    · apply Triple.of_fact
      intro hsz
      split
      case isTrue hz =>
        have hsz0 : sz = sz1 := by omega
        rw [hsz0]
        exact Triple.ret _ le_rfl
      case isFalse =>
        have hseg : vaddr + filesz % 2 ^ 32 ≤ pagesOf sz1 * PGSIZE := by
          have h1 : filesz % 2 ^ 32 ≤ filesz := Nat.mod_le _ _
          have h2 : vaddr + memsz ≤ sz1 := by omega
          exact le_trans (by omega) (le_pagesOf_mul sz1)
        refine (spec_loadseg ip _ hseg).bind fun r => ?_
        split
        case isTrue => exact Triple.ret _ le_rfl
        case isFalse => exact ih _ _
    · apply Triple.of_fact
      intro hz
      rw [if_pos hz]
      exact Triple.ret _ le_rfl

/-! ## The arguments on the stack -/

theorem spec_pushArgs (p n stackbase sp : Nat) (argv ustack : List Nat) :
    Spec L (spaceOf L ok tf p n) (pushArgs p stackbase argv sp ustack) fun _ =>
      spaceOf L ok tf p n := by
  induction argv generalizing sp ustack with
  | nil => exact Triple.ret _ le_rfl
  | cons arg argv ih =>
    rw [pushArgs]
    split
    case isTrue => exact Triple.ret _ le_rfl
    case isFalse =>
      have hstrlen : Spec L (spaceOf L ok tf p n) (strlen arg) fun _ => spaceOf L ok tf p n :=
        (spec_fetch _ _ _).bind fun _ => Triple.of_fact fun _ => Triple.ret _ le_rfl
      refine hstrlen.bind fun len => ?_
      refine (spec_fetch _ _ _).bind fun bytes => ?_
      apply Triple.of_fact
      intro _
      show Spec L _ (ite _ _ _) _
      split
      case isTrue => exact Triple.ret _ le_rfl
      case isFalse =>
        refine (spec_copyout p n _ _).bind fun r => ?_
        split
        case isTrue => exact Triple.ret _ le_rfl
        case isFalse => exact ih _ _

/-! ## `exec` -/

/-- What is owned after `exec` has returned `r`, where `F` was the address space of the process
with its trapframe before. -/
def replaced (L : Layout) (tf : Nat) (F : Assn Nat Mem) : Option (Nat × Nat × Nat) → Assn Nat Mem
  | none => F
  | some (pagetable, sz, _) => own L tf * space L tf pagetable (pagesOf sz)

/-- The new address space is given back, the old one stays. -/
theorem spec_execBad (p sz : Nat) (F : Assn Nat Mem) :
    Spec L (spaceOf L ok tf p (pagesOf sz) * F) (execBad L p sz) fun r => replaced L tf F r := by
  refine (spec_proc_freepagetable.frame F).bind fun _ => Triple.ret _ ?_
  rw [one_mul, replaced]

theorem spec_store_own {n p : Nat} (off k v : Nat) (h : off + k ≤ PGSIZE) :
    Uses L n n (own L p) (store (p + off) k v) fun _ => own L p := by
  apply Triple.of_any
  intro c
  exact (spec_store h).post fun _ => page_le_own _ _

section Old

variable {old oldsz : Nat} {F : Assn Nat Mem}

theorem spec_execCommit (hF : F ≤ own L tf * space L tf old (pagesOf oldsz)) (entry sp argc p sz : Nat) :
    Spec L (space L tf p (pagesOf sz) * F)
      (do
        store (tf + TF_A1) 8 sp
        store (tf + TF_EPC) 8 entry
        store (tf + TF_SP) 8 sp
        proc_freepagetable L old oldsz
        pure (some (p, sz, argc)))
      fun r => replaced L tf F r := by
  apply Triple.pre ?_ (mul_le_mul' le_rfl hF)
  apply Triple.pre ?_ (le_of_eq (mul_left_comm _ _ _))
  refine (spec_store_own TF_A1 8 sp (by decide)).call rfl fun _ => ?_
  refine (spec_store_own TF_EPC 8 entry (by decide)).call rfl fun _ => ?_
  refine (spec_store_own TF_SP 8 sp (by decide)).call rfl fun _ => ?_
  have hfree : Spec L (space L tf old (pagesOf oldsz)) (proc_freepagetable L old oldsz) fun _ => 1 :=
    spec_proc_freepagetable
  refine hfree.call (F := own L tf * space L tf p (pagesOf sz)) (by ac_rfl) fun _ => ?_
  apply Triple.ret
  rw [one_mul, replaced]

theorem pagesOf_add (sz k : Nat) : pagesOf (sz + k * PGSIZE) = pagesOf sz + k := by
  unfold pagesOf pagesBetween PGSIZE
  omega

theorem spec_execStack (hN : L.npages < tfPage) (hF : F ≤ own L tf * space L tf old (pagesOf oldsz))
    (entry : Nat) (argv : List Nat) {p n : Nat} :
    Spec L (spaceOf L isUser tf p n * F) (execStack L tf old oldsz entry argv p (n * PGSIZE))
      fun r => replaced L tf F r := by
  apply Triple.pre ?_ (mul_le_mul' (spaceOf_bound p n) le_rfl)
  rw [mul_assoc]
  apply Triple.of_fact
  intro hb
  rw [tfPage_eq] at hb
  have hmod : (n * PGSIZE + 2 * PGSIZE) % 2 ^ 64 = n * PGSIZE + 2 * PGSIZE := by
    apply Nat.mod_eq_of_lt
    unfold PGSIZE
    omega
  have halloc : Spec L (spaceOf L isUser tf p (pagesOf (n * PGSIZE)))
      (uvmalloc L p (n * PGSIZE) (n * PGSIZE + 2 * PGSIZE) PTE_W) _ :=
    spec_uvmalloc hN (by decide) fun q => isUser_pte q _
  rw [pagesOf_mul] at halloc
  rw [execStack, hmod]
  refine halloc.call rfl fun sz1 => ?_
  rw [either_mul]
  apply Triple.of_either
  · rw [mul_assoc]
    apply Triple.of_fact
    intro hsz
    have hsz : sz1 = n * PGSIZE + 2 * PGSIZE := by omega
    have hsub : sz1 - 2 * PGSIZE = n * PGSIZE := by omega
    have hn : n < pagesOf sz1 := by
      rw [hsz, pagesOf_add, pagesOf_mul]
      omega
    rw [if_neg (by rw [hsz]; unfold PGSIZE; omega), hsub]
    refine (spec_uvmclear hn).call rfl fun _ => ?_
    refine (spec_pushArgs p _ _ _ _ _).call rfl fun args => ?_
    split
    case h_1 => exact spec_execBad p sz1 F
    case h_2 sp ustack =>
      show Spec L _ (ite _ _ _) _
      split
      case isTrue => exact spec_execBad p sz1 F
      case isFalse =>
        refine (spec_copyout p _ _ _).call rfl fun r => ?_
        split
        case isTrue => exact spec_execBad p sz1 F
        case isFalse => exact spec_execCommit hF entry _ _ p sz1
  · rw [mul_assoc]
    apply Triple.of_fact
    intro hz
    rw [if_pos hz]
    apply (spec_execBad p (n * PGSIZE) F).pre
    rw [pagesOf_mul]

end Old

/-- The page table that `execFile` leaves with its result, if there is one. -/
def loaded (L : Layout) (tf : Nat) (x : Bool × Nat × Nat × Nat) : Assn Nat Mem :=
  if x.2.1 = 0 then fact (x.1 = false) else spaceOf L isUser tf x.2.1 (pagesOf x.2.2.1)

theorem loaded_none (entry : Nat) (sz : Nat) : loaded L tf (false, 0, sz, entry) = 1 :=
  (if_pos rfl).trans (fact_true rfl)

theorem loaded_of_ne {x : Bool × Nat × Nat × Nat} (h : x.2.1 ≠ 0) :
    loaded L tf x = spaceOf L isUser tf x.2.1 (pagesOf x.2.2.1) := if_neg h

theorem spec_execFile (hN : L.npages < tfPage) (htf : tf < 2 ^ 56) (ip : Image) :
    Spec L 1 (execFile L tf ip) (loaded L tf) := by
  unfold execFile
  show Spec L _ (ite _ _ _) _
  split
  case isTrue => exact Triple.ret _ (le_of_eq (loaded_none _ _).symm)
  split
  case isTrue => exact Triple.ret _ (le_of_eq (loaded_none _ _).symm)
  have hpt : Spec L 1 (proc_pagetable L tf) (made L isUser tf 0) := spec_proc_pagetable 0 htf
  refine hpt.bind fun p => ?_
  split
  case isTrue hp =>
    rw [hp, made_zero (by decide)]
    exact Triple.ret _ (le_of_eq (loaded_none _ _).symm)
  case isFalse hp =>
    rw [made_of_ne hp]
    refine (spec_loadLoop hN ip _ _ 0).bind fun x => ?_
    exact Triple.ret _ (le_of_eq (loaded_of_ne (x := (x.1, p, x.2, _)) hp).symm)

/-- The end of `exec` when the file could not be loaded. -/
theorem spec_unload (x : Bool × Nat × Nat × Nat) :
    Spec L (loaded L tf x) (ifDo (x.2.1 ≠ 0) (proc_freepagetable L x.2.1 x.2.2.1)) fun _ => 1 := by
  apply spec_ifDo
  · intro hp
    rw [loaded_of_ne hp]
    exact spec_proc_freepagetable
  · intro hp
    rw [loaded, if_pos (not_not.mp hp)]
    intro h hh
    exact hh.2

/-! ## The arguments of `sys_exec` -/

/-- A list of pages, all of them owned. -/
def owns (L : Layout) (argv : List Nat) : Assn Nat Mem := (argv.map (own L)).prod

theorem owns_append (argv : List Nat) (page : Nat) :
    owns L (argv ++ [page]) = own L page * owns L argv := by
  unfold owns
  rw [List.map_append, List.prod_append, List.map_singleton, List.prod_singleton, mul_comm]

/-- The string in a page, without its zero. -/
def text (d : Mem) : List UInt8 := ((List.range PGSIZE).map d).takeWhile (· ≠ 0)

/-- A page with a string. -/
def ownText (L : Layout) (a : Nat) : Assn Nat Mem :=
  any fun c => fact ((text c).length < PGSIZE) * page L a c

/-- A list of pages with strings. -/
def texts (L : Layout) (argv : List Nat) : Assn Nat Mem := (argv.map (ownText L)).prod

theorem ownText_le (a : Nat) : ownText L a ≤ own L a :=
  any_le fun c => fact_mul_le fun _ => page_le_own a c

theorem texts_le (argv : List Nat) : texts L argv ≤ owns L argv := by
  induction argv with
  | nil => exact le_rfl
  | cons a argv ih =>
    have h1 : texts L (a :: argv) = ownText L a * texts L argv := List.prod_cons
    have h2 : owns L (a :: argv) = own L a * owns L argv := List.prod_cons
    rw [h1, h2]
    exact mul_le_mul' (ownText_le a) ih

theorem texts_append (argv : List Nat) (page : Nat) :
    texts L (argv ++ [page]) = ownText L page * texts L argv := by
  unfold texts
  rw [List.map_append, List.prod_append, List.map_singleton, List.prod_singleton, mul_comm]

theorem text_write (c : Mem) {bytes : List UInt8} (h : bytes.length ≤ PGSIZE) (hz : 0 ∈ bytes) :
    (text (write c 0 bytes)).length < PGSIZE := by
  obtain ⟨j, hj, hb⟩ := List.mem_iff_getElem.mp hz
  have hmem : 0 ∈ (List.range PGSIZE).map (write c 0 bytes) := by
    refine List.mem_map.mpr ⟨j, List.mem_range.mpr (by omega), ?_⟩
    unfold write blit
    rw [if_pos (by omega), Nat.zero_add, Nat.sub_zero]
    exact (List.getD_eq_getElem _ _ hj).trans hb
  have hlt := takeWhile_lt hmem
  rw [List.length_map, List.length_range] at hlt
  exact hlt

section Arguments

variable {p n : Nat} {F T : Assn Nat Mem} (hF : F ≤ spaceOf L ok tf p n * T)

include hF

theorem keep_fetchaddr (sz addr : Nat) : Spec L F (fetchaddr p sz addr) fun _ => F := by
  unfold fetchaddr
  split
  case isTrue => exact Triple.ret _ le_rfl
  case isFalse => exact (keep_copyin hF _ _).bind fun _ => Triple.ret _ le_rfl

/-- The loop ends with a page for every argument, each with a string; or it fails. -/
theorem spec_argvLoop (sz uargv k : Nat) (argv : List Nat) :
    Spec L (F * texts L argv) (argvLoop p sz uargv k argv) fun x =>
      either (fact (x.1 = true ∧ x.2.length < argv.length + k) * (F * texts L x.2))
        (fact (x.1 = false) * (F * owns L x.2)) := by
  have hfail : ∀ (P : Assn Nat Mem) xs, F * owns L xs ≤ either P (fact (false = false) * (F * owns L xs)) :=
    fun _ xs => le_trans (le_fact_mul rfl le_rfl) (le_either_right _ _)
  induction k generalizing argv with
  | zero => exact Triple.ret _ (le_trans (mul_le_mul' le_rfl (texts_le argv)) (hfail _ argv))
  | succ k ih =>
    rw [argvLoop]
    refine (keep_fetchaddr hF _ _).call rfl fun uarg => ?_
    split
    case h_1 => exact Triple.ret _ (le_trans (mul_le_mul' le_rfl (texts_le argv)) (hfail _ argv))
    case h_2 =>
      exact Triple.ret _ (le_trans (le_fact_mul ⟨rfl, Nat.lt_add_of_pos_right (Nat.succ_pos k)⟩ le_rfl)
        (le_either_left _ _))
    case h_3 uarg =>
      refine (spec_kalloc 0).call (one_mul _).symm fun page => ?_
      split
      case isTrue hp =>
        rw [hp, given_none, one_mul]
        exact Triple.ret _ (le_trans (mul_le_mul' le_rfl (texts_le argv)) (hfail _ argv))
      case isFalse hp =>
        rw [given_of_ne hp]
        refine (keep_copyinstr hF _ _).call (mul_left_comm _ _ _) fun x => ?_
        obtain ⟨ended, bytes⟩ := x
        rw [mul_assoc]
        apply Triple.of_fact
        rintro ⟨hlen, hzero⟩
        have hlen : bytes.length ≤ PGSIZE := hlen
        rw [mul_left_comm, own, any_mul]
        refine Triple.of_any fun c => ?_
        refine (spec_put_page (o := 0) (by omega)).call rfl fun _ => ?_
        rw [mul_left_comm]
        show Spec L _ (ite _ _ _) _
        split
        case isTrue =>
          refine Triple.ret _ (le_trans (mul_le_mul' le_rfl ?_) (hfail _ _))
          rw [owns_append]
          exact mul_le_mul' (page_le_own _ _) (texts_le argv)
        case isFalse hended =>
          have hend : ended = true := Bool.eq_true_of_not_eq_false hended
          have hrec := ih (argv ++ [page])
          rw [texts_append, List.length_append, List.length_singleton, Nat.add_assoc, Nat.add_comm 1] at hrec
          refine hrec.pre (mul_le_mul' le_rfl (mul_le_mul' ?_ le_rfl))
          exact le_any _ (le_fact_mul (text_write c hlen (hzero hend)) le_rfl)

theorem spec_argv (sz uargv : Nat) :
    Spec L F (argvLoop p sz uargv MAXARG []) fun x => F * owns L x.2 := by
  have h := spec_argvLoop hF sz uargv MAXARG []
  rw [texts, List.map_nil, List.prod_nil, mul_one] at h
  refine h.post fun x => either_le (fact_mul_le fun _ => ?_) (fact_mul_le fun _ => le_rfl)
  exact mul_le_mul' le_rfl (texts_le _)

end Arguments

theorem spec_freeArgs (argv : List Nat) :
    Spec L (owns L argv) (freeArgs L argv) fun _ => 1 := by
  induction argv with
  | nil => exact Triple.ret _ le_rfl
  | cons arg argv ih =>
    refine (spec_kfree 0 arg).call (List.prod_cons) fun _ => ?_
    rw [one_mul]
    exact ih

end Xv6.Vm
