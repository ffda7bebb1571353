import Xv6.Vm.Space
import Xv6.Vm.Exec

/-!
# Making, copying and freeing address spaces

`proc_pagetable` makes an address space without user pages, `uvmcopy` fills one with
copies of another's pages, and `proc_freepagetable` gives every page of one back.
-/
namespace Xv6.Vm

open Lib.Bytes Lib.Sep Lib.Sep.Assn Function

set_option autoImplicit false

variable {L : Layout} {ok : Nat → Prop} {tf : Nat}

theorem spec_ifDo {n : Nat} {c : Prop} [Decidable c] {f : M Unit} {P : Assn Nat Mem}
    {Q : Unit → Assn Nat Mem} (h : c → Uses L n n P f Q) (h' : ¬c → P ≤ Q ()) :
    Uses L n n P (ifDo c f) Q := by
  unfold ifDo
  split
  case isTrue hc => exact h hc
  case isFalse hc => exact Triple.ret () (h' hc)

/-! ## Freeing -/

/-- `uvmunmap` without freeing: the pages belong to someone else. -/
theorem spec_uvmunmap_keep {p v n : Nat} {m : Nat → Nat}
    (hleaf : ∀ w, v ≤ w → w < v + n → Leaf (m w)) (hb : v + n ≤ trampPage + 1) :
    Spec L (tree L 2 p m) (uvmunmap L p (v * PGSIZE) n false) fun _ =>
      tree L 2 p (cleared m v n) := by
  apply (spec_uvmunmap false (fun w h1 h2 => (hleaf w h1 h2).mapped) hb).pre
  have hone : ∏ w ∈ Finset.Ico v (v + n), payload L false (m w) = 1 := Finset.prod_const_one
  rw [hone, mul_one]

theorem spec_uvmfree {p sz : Nat} {m : Nat → Nat} (hsz : pagesOf sz ≤ tfPage)
    (huser : ∀ v < pagesOf sz, Leaf (m v)) (hrest : ∀ v < span 3, pagesOf sz ≤ v → m v = 0) :
    Spec L (tree L 2 p m * users L m 0 (pagesOf sz)) (uvmfree L p sz) fun _ => 1 := by
  have hlt := lt_of_pagesOf_le hsz
  have hcount : PGROUNDUP sz / PGSIZE = pagesOf sz := by
    rw [PGROUNDUP_eq (by omega)]
    exact pageno
  have hun : Spec L (tree L 2 p m * users L m 0 (pagesOf sz))
      (ifDo (0 < sz) (uvmunmap L p 0 (PGROUNDUP sz / PGSIZE) true)) fun _ =>
        tree L 2 p (cleared m 0 (pagesOf sz)) := by
    apply spec_ifDo
    · intro _
      have h := spec_uvmunmap (L := L) (p := p) (v := 0) (n := pagesOf sz) (m := m) true
        (fun w _ h2 => (huser w (by omega)).mapped) (by rw [tfPage_eq] at hsz; rw [trampPage_eq]; omega)
      rw [Nat.zero_mul, Nat.zero_add] at h
      rw [hcount]
      exact h
    · intro hz
      have h0 : pagesOf sz = 0 := by
        rw [show sz = 0 by omega]
        rfl
      rw [h0, cleared_zero, users, Finset.Ico_self, Finset.prod_empty, mul_one]
  refine hun.bind fun _ => ?_
  apply spec_freewalk
  intro v hv
  unfold cleared
  split
  case isTrue => rfl
  case isFalse h => exact hrest v hv (by omega)

theorem trampoline_eq : TRAMPOLINE = trampPage * PGSIZE := rfl

theorem trapframe_eq : TRAPFRAME = tfPage * PGSIZE := rfl

theorem Shape.leaf_trapframe {m : Nat → Nat} {n : Nat} (h : Shape L ok tf m n) : Leaf (m tfPage) := by
  rw [h.trapframe]
  exact leaf_pte h.tf_lt (by decide) (by decide)

theorem Shape.leaf_trampoline {m : Nat → Nat} {n : Nat} (h : Shape L ok tf m n) :
    Leaf (m trampPage) := by
  rw [h.trampoline]
  exact leaf_pte L.trampoline_lt (by decide) (by decide)

theorem spec_proc_freepagetable {p sz : Nat} :
    Spec L (spaceOf L ok tf p (pagesOf sz)) (proc_freepagetable L p sz) fun _ => 1 := by
  rw [← mul_one (spaceOf L ok tf p _)]
  apply spec_of_space
  intro m hs
  have hb := hs.bound
  rw [tfPage_eq] at hb
  rw [mul_one, proc_freepagetable, trampoline_eq, trapframe_eq]
  have h1 := spec_uvmunmap_keep (L := L) (p := p) (v := trampPage) (n := 1) (m := m)
    (fun w hw1 hw2 => by rw [show w = trampPage by omega]; exact hs.leaf_trampoline) le_rfl
  refine h1.call rfl fun _ => ?_
  have h2 := spec_uvmunmap_keep (L := L) (p := p) (v := tfPage) (n := 1)
    (m := cleared m trampPage 1)
    (fun w hw1 hw2 => by
      rw [show w = tfPage by omega, cleared, if_neg (by rw [tfPage_eq, trampPage_eq]; omega)]
      exact hs.leaf_trapframe) (by decide)
  refine h2.call rfl fun _ => ?_
  have hsame : ∀ v < pagesOf sz, cleared (cleared m trampPage 1) tfPage 1 v = m v := by
    intro v hv
    unfold cleared
    rw [tfPage_eq, trampPage_eq, if_neg (by omega), if_neg (by omega)]
  rw [users_congr fun v _ hv => (hsame v hv).symm]
  apply spec_uvmfree hs.bound
  · intro v hv
    rw [hsame v hv]
    exact (hs.user v hv).1
  · intro v h3 hv
    unfold cleared
    by_cases ht : v = tfPage
    · exact if_pos ⟨by omega, by omega⟩
    · rw [if_neg (by omega)]
      by_cases hp : v = trampPage
      · exact if_pos ⟨by omega, by omega⟩
      · rw [if_neg (by omega)]
        exact hs.rest v h3 hv ht hp

/-! ## Making -/

/-- A table that maps nothing is freed whole. -/
theorem spec_uvmfree_empty {p : Nat} {m : Nat → Nat} (h : ∀ v < span 3, m v = 0) :
    Spec L (tree L 2 p m) (uvmfree L p 0) fun _ => 1 := by
  have hf : Spec L (tree L 2 p m * users L m 0 (pagesOf 0)) (uvmfree L p 0) fun _ => 1 :=
    spec_uvmfree (Nat.zero_le _) (fun v hv => absurd hv (Nat.not_lt_zero v)) fun v hv _ => h v hv
  apply hf.pre
  rw [show pagesOf 0 = 0 from rfl, users, Finset.Ico_self, Finset.prod_empty, mul_one]

/-- The map of an address space without user pages. -/
def bare (L : Layout) (tf : Nat) : Nat → Nat :=
  update (update (fun _ => 0) trampPage
    (PA2PTE L.trampoline ||| (PTE_R ||| PTE_X) ||| PTE_V)) tfPage
    (PA2PTE tf ||| (PTE_R ||| PTE_W) ||| PTE_V)

theorem shape_bare (h : tf < 2 ^ 56) : Shape L ok tf (bare L tf) 0 := by
  constructor
  · exact fun v hv => absurd hv (Nat.not_lt_zero v)
  · exact Nat.zero_le _
  · exact h
  · exact update_self ..
  · rw [bare, update_of_ne (by decide)]
    exact update_self ..
  · intro v _ _ ht hp
    rw [bare, update_of_ne ht, update_of_ne hp]

/-- What `proc_pagetable` has made when it returns `r`; with five pages promised it does
not fail. -/
def made (L : Layout) (ok : Nat → Prop) (tf n r : Nat) : Assn Nat Mem :=
  if r = 0 then fact (n < 5) else spaceOf L ok tf r 0

theorem made_zero {n : Nat} (h : n < 5) : made L ok tf n 0 = 1 := (if_pos rfl).trans (fact_true h)

theorem made_of_ne {n r : Nat} (h : r ≠ 0) : made L ok tf n r = spaceOf L ok tf r 0 := if_neg h

theorem spec_uvmcreate (n : Nat) :
    Uses L n (n - 1) 1 uvmcreate fun r =>
      if r = 0 then fact (n = 0) else tree L 2 r fun _ => 0 := by
  refine (spec_kalloc n).bind fun r => ?_
  split
  case isTrue hr =>
    apply Triple.ret
    rw [hr, given_zero, if_pos rfl]
  case isFalse hr =>
    rw [given_of_ne hr]
    refine (spec_memset r 0).bind fun _ => ?_
    apply Triple.ret
    rw [if_neg hr]
    exact filled_le_tree fun _ _ => rfl

/-- The calls of `uvmfree` by which `proc_pagetable` gives up. -/
theorem spec_give_up {n p : Nat} {m : Nat → Nat} (h : ∀ v < span 3, m v = 0) (hn : n < 5) :
    Spec L (tree L 2 p m) (uvmfree L p 0 >>= fun _ => pure 0) (made L ok tf n) := by
  refine (spec_uvmfree_empty h).bind fun _ => ?_
  apply Triple.ret
  rw [made_zero hn]

theorem spec_proc_pagetable (n : Nat) (htf : tf < 2 ^ 56) :
    Uses L n (n - 5) 1 (proc_pagetable L tf) (made L ok tf n) := by
  rw [proc_pagetable, trampoline_eq, trapframe_eq]
  refine (spec_uvmcreate n).bind fun p => ?_
  split
  case isTrue hp =>
    rw [← mul_one (fact _)]
    apply Triple.of_fact
    intro hn
    apply (Triple.ret _ ?_).weaken (free_mono (by omega))
    rw [made_zero (by omega)]
  case isFalse hp =>
    refine (spec_mappages (Nat.lt_succ_self _) rfl
      (leaf_pte L.trampoline_lt (by decide) (by decide)).lt).bind fun r => ?_
    apply Triple.of_either
    · apply Triple.of_fact
      intro hr
      rw [if_neg (by omega)]
      refine (spec_mappages (by decide) (by rw [update_of_ne (by decide)]; rfl)
        (leaf_pte htf (by decide) (by decide)).lt).bind fun r => ?_
      apply Triple.of_either
      · apply Triple.of_fact
        intro hr
        rw [if_neg (by omega)]
        apply (Triple.ret _ ?_).weaken (free_mono (by omega))
        rw [made_of_ne hp]
        refine le_trans ?_ (le_spaceOf (shape_bare htf))
        rw [users, Finset.Ico_self, Finset.prod_empty, mul_one]
        exact le_rfl
      · apply Triple.of_fact
        intro hr
        rw [if_pos hr.1, show n - 1 - 2 - 2 = 0 by omega, show n - 5 = 0 by omega]
        have hun := spec_uvmunmap_keep (L := L) (p := p) (v := trampPage) (n := 1)
          (m := update (fun _ => 0) trampPage
            (PA2PTE L.trampoline ||| (PTE_R ||| PTE_X) ||| PTE_V))
          (fun w h1 h2 => by
            rw [show w = trampPage by omega, update_self]
            exact leaf_pte L.trampoline_lt (by decide) (by decide)) le_rfl
        refine hun.bind fun _ => ?_
        apply spec_give_up
        · intro v _
          unfold cleared
          split
          case isTrue => rfl
          case isFalse hv => exact update_of_ne (by omega) _ _
        · omega
    · apply Triple.of_fact
      intro hr
      rw [if_pos hr.1, show n - 1 - 2 = 0 by omega, show n - 5 = 0 by omega]
      exact spec_give_up (fun _ _ => rfl) (by omega)

/-! ## Copying -/

/-- Look an entry up that is there. Whatever is owned stays as it is. -/
theorem spec_entry {γ : Type} {p v : Nat} {m : Nat → Nat} {F G T : Assn Nat Mem} {Q : γ → Assn Nat Mem}
    (e : Panic) {k : Nat → M γ} (hF : F ≤ tree L 2 p m * T) (hv : v < tfPage) (hl : Leaf (m v))
    (hk : Spec L (F * G) (k (m v)) Q) :
    Spec L (F * G)
      (walk p (v * PGSIZE) false >>= fun pte => if pte = 0 then panic e else load pte 8 >>= k) Q := by
  have hva : v * PGSIZE < MAXVA := by
    rw [tfPage_eq] at hv
    unfold PGSIZE MAXVA
    omega
  have hv3 : v < span 3 := by
    rw [tfPage_eq] at hv
    rw [span_three]
    omega
  have hfound : Spec L (tree L 2 p m)
      (walk p (v * PGSIZE) false >>= fun pte => if pte = 0 then panic e else load pte 8)
      fun x => fact (x = m v) * tree L 2 p m := by
    refine (spec_walk false 0 p m hva).bind fun r => ?_
    rw [pageno]
    split
    case isTrue hr =>
      rw [hr, found_zero]
      apply Triple.of_fact
      intro hz
      exact absurd (by rw [hz.1 rfl, Nat.zero_and]) hl.valid
    case isFalse hr =>
      rw [found_of_ne _ _ _ _ _ _ hr]
      exact (spec_load_at hv3).post fun x => mul_le_mul' le_rfl (treeAt_le hv3)
  have hreads : Reads (walk p (v * PGSIZE) false >>= fun pte => if pte = 0 then panic e else load pte 8) := by
    refine (reads_walk _ _).bind fun pte => ?_
    split
    · exact reads_panic _
    · exact reads_load _ _
  have hprog : (walk p (v * PGSIZE) false >>= fun pte => if pte = 0 then panic e else load pte 8 >>= k) =
      (walk p (v * PGSIZE) false >>= fun pte => if pte = 0 then panic e else load pte 8) >>= k := by
    rw [bind_assoc]
    congr 1
    funext pte
    split
    · rfl
    · rfl
  rw [hprog]
  refine (((hfound.frame T).keep hreads hF fun x => le_of_eq (mul_assoc _ _ _)).frame G).bind fun x => ?_
  rw [mul_assoc]
  apply Triple.of_fact
  rintro rfl
  exact hk

/-- The error exit of `uvmcopy`. -/
theorem spec_uvmcopy_err {p v : Nat} {m : Nat → Nat} {c : Nat → Mem} (hs : Shape L ok tf m v) :
    Spec L (spaceWith L p m c v) (uvmunmap L p 0 v true >>= fun _ => pure (-1))
      fun (r : Int) => fact (r < 0) * spaceOf L ok tf p 0 := by
  have hs0 : Shape L ok tf m (0 + v) := by rwa [Nat.zero_add]
  have h := spec_uvmunmap_top (p := p) (c := c) hs0
  rw [Nat.zero_mul, Nat.zero_add] at h
  exact h.bind fun _ => Triple.ret _ (le_fact_mul (by decide) (spaceWith_le hs0.cleared))

/-- The outcome of `uvmcopy` for the new address space: all `n` pages with the same flags and the
same bytes, or none. -/
def copied (L : Layout) (tf : Nat) (m : Nat → Nat) (c : Nat → Mem) (new n : Nat) (r : Int) : Assn Nat Mem :=
  either
    (any fun m' => fact (r = 0 ∧ Shape L (fun _ => True) tf m' n ∧
      ∀ v < n, PTE_FLAGS (m' v) = PTE_FLAGS (m v)) * spaceWith L new m' c n)
    (fact (r < 0) * space L tf new 0)

theorem Leaf.flags_copied {e q : Nat} (h : Leaf e) : PTE_FLAGS (PA2PTE q ||| PTE_FLAGS e ||| PTE_V) = PTE_FLAGS e := by
  have hV : PTE_FLAGS e ||| PTE_V = PTE_FLAGS e := by
    have hmask : PTE_FLAGS e &&& PTE_V = PTE_V := by
      have h1 : PTE_FLAGS e &&& PTE_V = e &&& PTE_V := by
        unfold PTE_FLAGS
        rw [Nat.and_assoc]
        rfl
      have h2 : e &&& PTE_V ≤ 1 := Nat.and_le_right
      have h3 := h.valid
      unfold PTE_V at *
      omega
    apply Nat.eq_of_testBit_eq
    intro i
    rw [Nat.testBit_or]
    have hbit := congrArg (fun x => x.testBit i) hmask
    rw [Nat.testBit_and] at hbit
    cases hi : PTE_V.testBit i with
    | false => rw [Bool.or_false]
    | true =>
      rw [hi, Bool.and_true] at hbit
      rw [hbit, Bool.or_true]
  rw [Nat.or_assoc, hV, PTE_FLAGS_or q (PTE_FLAGS_lt e)]

theorem spec_uvmcopyLoop (hN : L.npages < tfPage) (new : Nat) {old v n : Nat} {m m' : Nat → Nat} {c : Nat → Mem}
    {F T : Assn Nat Mem} (k : Nat) (hn : v + k = n) (hF : F ≤ spaceWith L old m c n * T)
    (huser : ∀ w < n, Leaf (m w)) (hb : n ≤ tfPage) (hs : Shape L (fun _ => True) tf m' v)
    (hflags : ∀ w < v, PTE_FLAGS (m' w) = PTE_FLAGS (m w)) :
    Spec L (F * spaceWith L new m' c v) (uvmcopyLoop L old new k (v * PGSIZE)) fun r =>
      F * copied L tf m c new n r := by
  induction k generalizing v m' with
  | zero =>
    apply Triple.ret
    obtain rfl : v = n := by omega
    refine mul_le_mul' le_rfl (le_trans ?_ (le_either_left _ _))
    exact le_any m' (le_fact_mul ⟨rfl, hs, hflags⟩ le_rfl)
  | succ k ih =>
    have hl := huser v (by omega)
    have herr : Spec L (F * spaceWith L new m' c v) (uvmunmap L new 0 v true >>= fun _ => pure (-1))
        fun r => F * copied L tf m c new n r := by
      rw [mul_comm]
      refine ((spec_uvmcopy_err hs).frame F).post fun r => ?_
      rw [mul_comm]
      exact mul_le_mul' le_rfl (le_either_right _ _)
    rw [uvmcopyLoop]
    refine spec_entry _ (T := data L m c 0 n * T) ?_ (by omega) hl ?_
    · rw [← mul_assoc]
      exact hF
    rw [if_neg hl.valid]
    refine (spec_kalloc 0).call (one_mul _).symm fun q => ?_
    split
    case isTrue hq =>
      rw [hq, given_none, one_mul, pageno]
      exact herr
    case isFalse hq =>
      rw [given_of_ne hq, ← mul_assoc]
      have hsrc : F ≤ page L (PTE2PA (m v)) (c v) *
          (tree L 2 old m * (data L m c 0 v * (data L m c (v + 1) n * T))) := by
        refine le_trans hF (le_of_eq ?_)
        rw [spaceWith, data_split m c (Nat.zero_le v) (show v ≤ n by omega),
          data_split m c (show v ≤ v + 1 by omega) (show v + 1 ≤ n by omega)]
        rw [show data L m c v (v + 1) = page L (PTE2PA (m v)) (c v) by
          rw [data, Nat.Ico_succ_singleton, Finset.prod_singleton]]
        ac_rfl
      refine (spec_copy_page hsrc).call rfl fun _ => ?_
      have hmap := spec_mappages_with (p := new) (c := c) (d := c v) hN 0 hs (PTE_FLAGS_lt (m v))
        hl.flags_readable (q := q) trivial
      refine hmap.call (F := F) (by ac_rfl) fun r => ?_
      rw [either_mul]
      apply Triple.of_either
      · rw [mul_assoc]
        apply Triple.of_fact
        intro hr
        rw [if_neg fun h => h hr.1, mul_comm, update_eq_self]
        have hrec := ih (by omega) hr.2.2 fun w hw => by
          by_cases hwv : w = v
          · rw [hwv, update_self, hl.flags_copied]
          · rw [update_of_ne hwv]
            exact hflags w (by omega)
        rw [Nat.add_mul, Nat.one_mul] at hrec
        exact hrec
      · rw [mul_assoc]
        apply Triple.of_fact
        intro hr
        rw [if_pos (by omega), mul_assoc]
        apply Triple.pre ?_ (mul_le_mul' (page_le_own q _) le_rfl)
        refine (spec_kfree 0 q).call rfl fun _ => ?_
        rw [one_mul, mul_comm, pageno]
        exact herr

/-- `uvmcopy` of an address space that `F` owns; it stays as it is. -/
theorem spec_uvmcopy (hN : L.npages < tfPage) {tf' old sz : Nat} (new : Nat) {m : Nat → Nat} {c : Nat → Mem}
    {F T : Assn Nat Mem} (hs : Shape L ok tf m (pagesOf sz)) (hF : F ≤ spaceWith L old m c (pagesOf sz) * T) :
    Spec L (F * space L tf' new 0) (uvmcopy L old new sz) fun r =>
      F * copied L tf' m c new (pagesOf sz) r := by
  refine spec_of_bytes fun m' c' hs' => ?_
  have hempty : spaceWith L new m' c' 0 = spaceWith L new m' c 0 := by
    rw [spaceWith, spaceWith, data_zero, data_zero]
  have h := spec_uvmcopyLoop hN new (pagesOf sz) (Nat.zero_add _) hF
    (fun w hw => (hs.user w hw).1) hs.bound hs' fun w hw => absurd hw (Nat.not_lt_zero w)
  rw [Nat.zero_mul] at h
  rw [hempty]
  exact h

end Xv6.Vm
