import Xv6.Vm.Tree

/-!
# Address spaces

`space tf p n` owns a page table rooted at `p` and the user pages it maps: exactly the
page numbers below `n` as leaves, and above them only the trapframe page `tf` and the
trampoline, which it does not own. The functions of `vm.c` keep this shape; that no
page number reaches the trapframe's is a matter of counting the pages there are.
-/
namespace Xv6.Vm

open Lib.Bytes Lib.Sep Lib.Sep.Assn Function

set_option autoImplicit false

variable (L : Layout)

/-- The page numbers of `TRAPFRAME` and `TRAMPOLINE`. -/
def tfPage : Nat := TRAPFRAME / PGSIZE
def trampPage : Nat := TRAMPOLINE / PGSIZE

/-- A valid entry that maps a readable page. -/
structure Leaf (e : Nat) : Prop where
  lt : e < 256 ^ 8
  valid : e &&& PTE_V ≠ 0
  readable : e &&& PTE_R ≠ 0

/-- The map of an address space of `n` user pages; `ok` is what more is known of their
entries. -/
structure Shape (ok : Nat → Prop) (tf : Nat) (m : Nat → Nat) (n : Nat) : Prop where
  user : ∀ v < n, Leaf (m v) ∧ ok (m v)
  bound : n ≤ tfPage
  tf_lt : tf < 2 ^ 56
  trapframe : m tfPage = PA2PTE tf ||| (PTE_R ||| PTE_W) ||| PTE_V
  trampoline : m trampPage = PA2PTE L.trampoline ||| (PTE_R ||| PTE_X) ||| PTE_V
  rest : ∀ v < span 3, n ≤ v → v ≠ tfPage → v ≠ trampPage → m v = 0

/-- The user pages with numbers from `a` up to `b`. -/
def users (m : Nat → Nat) (a b : Nat) : Assn Nat Mem := ∏ v ∈ Finset.Ico a b, own L (PTE2PA (m v))

/-- The same pages, with their bytes. -/
def data (m : Nat → Nat) (c : Nat → Mem) (a b : Nat) : Assn Nat Mem :=
  ∏ v ∈ Finset.Ico a b, page L (PTE2PA (m v)) (c v)

/-- The address space with the map `m` and the bytes `c` in its `n` user pages. -/
def spaceWith (p : Nat) (m : Nat → Nat) (c : Nat → Mem) (n : Nat) : Assn Nat Mem :=
  tree L 2 p m * data L m c 0 n

def spaceOf (ok : Nat → Prop) (tf p n : Nat) : Assn Nat Mem :=
  any fun m => fact (Shape L ok tf m n) * (tree L 2 p m * users L m 0 n)

def space (tf p n : Nat) : Assn Nat Mem := spaceOf L (fun _ => True) tf p n

variable {L}

theorem tfPage_eq : tfPage = 67108862 := rfl

theorem trampPage_eq : trampPage = 67108863 := rfl

theorem span_three : span 3 = 134217728 := rfl

/-! ## Leaves -/

theorem leaf_pte {p f : Nat} (hp : p < 2 ^ 56) (hf : f < 1024) (hR : f &&& PTE_R ≠ 0) :
    Leaf (PA2PTE p ||| f ||| PTE_V) := by
  rw [Nat.or_assoc]
  have hlt : f ||| PTE_V < 1024 := Nat.or_lt_two_pow (n := 10) hf (by decide)
  constructor
  · exact pte_lt hp hlt
  · rw [or_and_flags p _ (by decide), Nat.and_or_distrib_right, Nat.and_self]
    exact fun h => absurd (Nat.or_eq_zero_iff.mp h).2 (by decide)
  · rw [or_and_flags p _ (by decide), Nat.and_or_distrib_right]
    exact fun h => hR (Nat.or_eq_zero_iff.mp h).1

theorem Leaf.flags_ne {e : Nat} (h : Leaf e) : PTE_FLAGS e ≠ PTE_V := by
  intro hf
  apply h.readable
  have hmask : (0x3FF : Nat) &&& PTE_R = PTE_R := by decide
  rw [← hmask, ← Nat.and_assoc, show e &&& 0x3FF = PTE_V from hf]
  decide

theorem Leaf.mapped {e : Nat} (h : Leaf e) : e &&& PTE_V ≠ 0 ∧ PTE_FLAGS e ≠ PTE_V :=
  ⟨h.valid, h.flags_ne⟩

theorem Leaf.flags_readable {e : Nat} (h : Leaf e) : PTE_FLAGS e &&& PTE_R ≠ 0 := by
  unfold PTE_FLAGS
  rw [Nat.and_assoc]
  exact h.readable

theorem PTE_FLAGS_lt (e : Nat) : PTE_FLAGS e < 1024 :=
  lt_of_le_of_lt Nat.and_le_right (by decide)

/-! ## `mappages`, one page at a time -/

theorem pageno {v : Nat} : v * PGSIZE / PGSIZE = v := Nat.mul_div_cancel v (by decide)

/-- One round of the loop of `mappages`: the entry is written and the loop goes on with
`next`, or no table for it could be had. -/
theorem spec_mapRound {n n' p v pa perm : Nat} {m : Nat → Nat} {next : M Int} {Q : Int → Assn Nat Mem}
    (hv : v < trampPage + 1) (hm : m v &&& PTE_V = 0) (he : PA2PTE pa ||| perm ||| PTE_V < 256 ^ 8)
    (hn : n' ≤ n - 2) (hfail : n < 2 → tree L 2 p m ≤ Q (-1))
    (hnext : Uses L (n - 2) n' (tree L 2 p (update m v (PA2PTE pa ||| perm ||| PTE_V))) next Q) :
    Uses L n n' (tree L 2 p m)
      (walk p (v * PGSIZE) true >>= fun pte => if pte = 0 then pure (-1) else do
        let e ← load pte 8
        if e &&& PTE_V ≠ 0 then panic .remap
        else do
          store pte 8 (PA2PTE pa ||| perm ||| PTE_V)
          next) Q := by
  have hva : v * PGSIZE < MAXVA := by
    rw [trampPage_eq] at hv
    unfold PGSIZE MAXVA
    omega
  have hv3 : v < span 3 := by
    rw [trampPage_eq] at hv
    rw [span_three]
    omega
  refine (spec_walk true n p m hva).bind fun r => ?_
  rw [pageno]
  split
  case isTrue hr =>
    rw [hr, found_zero]
    apply Triple.of_fact
    intro hz
    exact (Triple.ret _ (hfail (hz.2 rfl))).weaken (free_mono hn)
  case isFalse hr =>
    rw [found_of_ne _ _ _ _ _ _ hr]
    refine (spec_load_at hv3).bind fun e => ?_
    apply Triple.of_fact
    intro hload
    rw [if_neg (by rw [hload, hm]; exact fun h => h rfl)]
    refine (spec_store_at hv3 he).bind fun _ => ?_
    exact hnext.pre (treeAt_le hv3)

/-- The calls of `mappages` for one page. -/
theorem spec_mappages {n p v pa perm : Nat} {m : Nat → Nat} (hv : v < trampPage + 1)
    (hm : m v &&& PTE_V = 0) (he : PA2PTE pa ||| perm ||| PTE_V < 256 ^ 8) :
    Uses L n (n - 2) (tree L 2 p m) (mappages p (v * PGSIZE) PGSIZE pa perm) fun r =>
      either (fact (r = 0) * tree L 2 p (update m v (PA2PTE pa ||| perm ||| PTE_V)))
        (fact (r < 0 ∧ n < 2) * tree L 2 p m) := by
  have hcount : (PGROUNDDOWN (v * PGSIZE + PGSIZE - 1) - PGROUNDDOWN (v * PGSIZE)) / PGSIZE = 0 := by
    unfold PGROUNDDOWN PGSIZE
    omega
  rw [mappages, if_neg (by decide), hcount, PGROUNDDOWN_mul, mappagesLoop]
  apply spec_mapRound hv hm he le_rfl
  · intro hn
    exact le_trans (le_fact_mul ⟨by decide, hn⟩ le_rfl) (le_either_right _ _)
  · exact Triple.ret _ (le_trans (le_fact_mul rfl le_rfl) (le_either_left _ _))

/-! ## `uvmunmap` -/

/-- The map without the `n` entries from `a` on. -/
def cleared (m : Nat → Nat) (a n : Nat) : Nat → Nat := fun v => if a ≤ v ∧ v < a + n then 0 else m v

theorem cleared_zero (m : Nat → Nat) (a : Nat) : cleared m a 0 = m := by
  funext v
  exact if_neg (by omega)

theorem cleared_update (m : Nat → Nat) (a n : Nat) :
    cleared (update m a 0) (a + 1) n = cleared m a (n + 1) := by
  funext v
  unfold cleared
  by_cases hv : v = a
  · rw [hv, if_neg (by omega), update_self, if_pos (by omega)]
  · rw [update_of_ne hv]
    congr 1
    rw [eq_iff_iff]
    omega

/-- The page of an entry, if it is to be freed. -/
def payload (L : Layout) (do_free : Bool) (e : Nat) : Assn Nat Mem :=
  if do_free then own L (PTE2PA e) else 1

theorem spec_free_payload (do_free : Bool) (e : Nat) :
    Spec L (payload L do_free e) (ifDo do_free (kfree L (PTE2PA e))) fun _ => 1 := by
  unfold payload ifDo
  split
  · exact spec_kfree 0 _
  · exact Triple.ret () le_rfl

theorem spec_uvmunmapLoop {p v n : Nat} {m : Nat → Nat} (do_free : Bool)
    (hleaf : ∀ w, v ≤ w → w < v + n → m w &&& PTE_V ≠ 0 ∧ PTE_FLAGS (m w) ≠ PTE_V) (hb : v + n ≤ trampPage + 1) :
    Spec L (tree L 2 p m * ∏ w ∈ Finset.Ico v (v + n), payload L do_free (m w))
      (uvmunmapLoop L p do_free n (v * PGSIZE)) fun _ => tree L 2 p (cleared m v n) := by
  induction n generalizing v m with
  | zero =>
    apply Triple.ret
    rw [cleared_zero, Nat.add_zero, Finset.Ico_self, Finset.prod_empty, mul_one]
  | succ n ih =>
    have hva : v * PGSIZE < MAXVA := by
      rw [trampPage_eq] at hb
      unfold PGSIZE MAXVA
      omega
    have hv3 : v < span 3 := by
      rw [trampPage_eq] at hb
      rw [span_three]
      omega
    have hl := hleaf v le_rfl (by omega)
    rw [uvmunmapLoop, Finset.prod_eq_prod_Ico_succ_bot (by omega)]
    refine (spec_walk false 0 p m hva).call rfl fun r => ?_
    rw [pageno]
    split
    case isTrue hr =>
      rw [hr, found_zero, mul_assoc]
      apply Triple.of_fact
      intro hz
      exact absurd (by rw [hz.1 rfl, Nat.zero_and]) hl.1
    case isFalse hr =>
      rw [found_of_ne _ _ _ _ _ _ hr]
      refine (spec_load_at hv3).call rfl fun e => ?_
      rw [mul_assoc]
      apply Triple.of_fact
      intro he
      subst he
      rw [if_neg hl.1, if_neg hl.2]
      refine (spec_free_payload do_free (m v)).call (mul_left_comm _ _ _) fun _ => ?_
      rw [one_mul]
      refine (spec_store_at hv3 (by decide)).call rfl fun _ => ?_
      have hstep : v * PGSIZE + PGSIZE = (v + 1) * PGSIZE := by rw [Nat.add_mul, Nat.one_mul]
      have hrest : ∏ w ∈ Finset.Ico (v + 1) (v + (n + 1)), payload L do_free (m w) =
          ∏ w ∈ Finset.Ico (v + 1) (v + 1 + n), payload L do_free (update m v 0 w) := by
        rw [show v + (n + 1) = v + 1 + n by omega]
        apply Finset.prod_congr rfl
        intro w hw
        have hw := Finset.mem_Ico.mp hw
        rw [update_of_ne (by omega)]
      rw [hstep, hrest, ← cleared_update]
      refine (ih ?_ (by omega)).pre (mul_le_mul' (treeAt_le hv3) le_rfl)
      intro w h1 h2
      rw [update_of_ne (by omega)]
      exact hleaf w (by omega) (by omega)

theorem spec_uvmunmap {p v n : Nat} {m : Nat → Nat} (do_free : Bool)
    (hleaf : ∀ w, v ≤ w → w < v + n → m w &&& PTE_V ≠ 0 ∧ PTE_FLAGS (m w) ≠ PTE_V) (hb : v + n ≤ trampPage + 1) :
    Spec L (tree L 2 p m * ∏ w ∈ Finset.Ico v (v + n), payload L do_free (m w))
      (uvmunmap L p (v * PGSIZE) n do_free) fun _ => tree L 2 p (cleared m v n) := by
  rw [uvmunmap, if_neg (by rw [Nat.mul_mod_left]; exact fun h => h rfl)]
  exact spec_uvmunmapLoop do_free hleaf hb

theorem users_congr {m m' : Nat → Nat} {a b : Nat} (h : ∀ v, a ≤ v → v < b → m v = m' v) :
    users L m a b = users L m' a b := by
  apply Finset.prod_congr rfl
  intro v hv
  have hv := Finset.mem_Ico.mp hv
  rw [h v hv.1 hv.2]

theorem data_congr {m m' : Nat → Nat} {c c' : Nat → Mem} {a b : Nat}
    (h : ∀ v, a ≤ v → v < b → m v = m' v ∧ c v = c' v) : data L m c a b = data L m' c' a b := by
  apply Finset.prod_congr rfl
  intro v hv
  have hv := Finset.mem_Ico.mp hv
  obtain ⟨hm, hc⟩ := h v hv.1 hv.2
  rw [hm, hc]

theorem data_split (m : Nat → Nat) (c : Nat → Mem) {a b d : Nat} (h1 : a ≤ b) (h2 : b ≤ d) :
    data L m c a d = data L m c a b * data L m c b d := (Finset.prod_Ico_consecutive _ h1 h2).symm

theorem data_succ (m : Nat → Nat) (c : Nat → Mem) (v : Nat) :
    data L m c 0 (v + 1) = data L m c 0 v * page L (PTE2PA (m v)) (c v) :=
  Finset.prod_Ico_succ_top (Nat.zero_le v) _

theorem data_zero (m : Nat → Nat) (c : Nat → Mem) : data L m c 0 0 = 1 := by
  rw [data, Finset.Ico_self, Finset.prod_empty]

theorem exact_data (m : Nat → Nat) (c : Nat → Mem) (a b : Nat) : Exact (data L m c a b) :=
  Exact.prod (fun v => (exact_cell (PTE2PA (m v)) (c v)).of_fact) _

theorem data_le_users (m : Nat → Nat) (c : Nat → Mem) (a b : Nat) :
    data L m c a b ≤ users L m a b := Finset.prod_le_prod' fun _ _ => page_le_own _ _

theorem users_le_data (m : Nat → Nat) (a b : Nat) :
    users L m a b ≤ any fun c => data L m c a b := prod_any_le _

variable {ok : Nat → Prop} {tf : Nat}

/-- Open an address space at its map, with `F` beside. -/
theorem spec_of_space {γ : Type} {i j p n : Nat} {F : Assn Nat Mem} {f : M γ}
    {Q : γ → Assn Nat Mem}
    (h : ∀ m, Shape L ok tf m n → Uses L i j (tree L 2 p m * users L m 0 n * F) f Q) :
    Uses L i j (spaceOf L ok tf p n * F) f Q := by
  unfold spaceOf
  rw [any_mul]
  apply Triple.of_any
  intro m
  rw [mul_assoc]
  exact Triple.of_fact (h m)

theorem le_spaceOf {p n : Nat} {m : Nat → Nat} (hs : Shape L ok tf m n) :
    tree L 2 p m * users L m 0 n ≤ spaceOf L ok tf p n := le_any m (le_fact_mul hs le_rfl)

theorem spaceWith_le {p n : Nat} {m : Nat → Nat} {c : Nat → Mem} (hs : Shape L ok tf m n) :
    spaceWith L p m c n ≤ spaceOf L ok tf p n :=
  le_trans (mul_le_mul' le_rfl (data_le_users m c 0 n)) (le_spaceOf hs)

/-- Every address space has a map and bytes. -/
theorem spaceOf_le_with (p n : Nat) : spaceOf L ok tf p n ≤
    any fun m => any fun c => fact (Shape L ok tf m n) * spaceWith L p m c n := by
  refine any_le fun m => fact_mul_le fun hs => le_any m ?_
  refine le_trans (mul_le_mul' le_rfl (users_le_data m 0 n)) ?_
  rw [mul_comm, any_mul]
  refine any_le fun c => le_any c (le_fact_mul hs ?_)
  rw [mul_comm, spaceWith]

/-- Open an address space at its map and its bytes. -/
theorem spec_of_bytes {γ : Type} {i j p n : Nat} {F : Assn Nat Mem} {f : M γ} {Q : γ → Assn Nat Mem}
    (h : ∀ m c, Shape L ok tf m n → Uses L i j (F * spaceWith L p m c n) f Q) :
    Uses L i j (F * spaceOf L ok tf p n) f Q := by
  apply Triple.pre ?_ (mul_le_mul' le_rfl (spaceOf_le_with p n))
  rw [mul_comm, any_mul]
  refine Triple.of_any fun m => ?_
  rw [any_mul]
  refine Triple.of_any fun c => ?_
  rw [mul_assoc]
  refine Triple.of_fact fun hs => ?_
  rw [mul_comm]
  exact h m c hs

/-- An address space, of which `r` is a user page. -/
def lent (L : Layout) (ok : Nat → Prop) (tf p n r : Nat) : Assn Nat Mem :=
  any fun m => fact (Shape L ok tf m n ∧ ∃ v < n, r = PTE2PA (m v)) *
    (tree L 2 p m * users L m 0 n)

theorem lent_le (p n r : Nat) : lent L ok tf p n r ≤ spaceOf L ok tf p n :=
  any_le fun m => fact_mul_le fun h => le_any m (le_fact_mul h.1 le_rfl)

theorem Shape.cleared {m : Nat → Nat} {v n : Nat} (h : Shape L ok tf m (v + n)) :
    Shape L ok tf (cleared m v n) v := by
  have hb := h.bound
  have hout : ∀ w, v + n ≤ w → Vm.cleared m v n w = m w := fun w hw => if_neg (by omega)
  constructor
  · intro w hw
    rw [show Vm.cleared m v n w = m w from if_neg (by omega)]
    exact h.user w (by omega)
  · omega
  · exact h.tf_lt
  · rw [hout _ hb]
    exact h.trapframe
  · rw [hout _ (by rw [trampPage_eq]; rw [tfPage_eq] at hb; omega)]
    exact h.trampoline
  · intro w h3 hw ht hp
    by_cases hin : w < v + n
    · exact if_pos ⟨hw, hin⟩
    · rw [hout w (by omega)]
      exact h.rest w h3 (by omega) ht hp

/-- `uvmunmap` of the topmost pages. -/
theorem spec_uvmunmap_top {p v n : Nat} {m : Nat → Nat} {c : Nat → Mem}
    (hs : Shape L ok tf m (v + n)) :
    Spec L (spaceWith L p m c (v + n)) (uvmunmap L p (v * PGSIZE) n true) fun _ =>
      spaceWith L p (cleared m v n) c v := by
  have hb := hs.bound
  rw [tfPage_eq] at hb
  have hun := spec_uvmunmap (L := L) (p := p) (v := v) (n := n) (m := m) true
    (fun w h1 h2 => (hs.user w h2).1.mapped) (by rw [trampPage_eq]; omega)
  unfold spaceWith
  rw [data_split m c (Nat.zero_le v) (Nat.le_add_right v n), ← mul_assoc, mul_right_comm]
  have hkeep : data L m c 0 v = data L (cleared m v n) c 0 v :=
    data_congr fun w _ hw => ⟨(if_neg (by omega)).symm, rfl⟩
  rw [hkeep]
  exact (hun.frame _).pre (mul_le_mul' (mul_le_mul' le_rfl (data_le_users m c v (v + n))) le_rfl)

/-! ## `uvmdealloc` and `uvmalloc` -/

/-- How many pages hold `sz` bytes. -/
abbrev pagesOf (sz : Nat) : Nat := pagesBetween 0 sz

theorem pagesOf_mul (n : Nat) : pagesOf (n * PGSIZE) = n := by
  unfold pagesOf pagesBetween PGSIZE
  omega

theorem pagesOf_mono {a b : Nat} (h : a ≤ b) : pagesOf a ≤ pagesOf b := by
  unfold pagesOf pagesBetween PGSIZE
  omega

theorem lt_of_pagesOf_le {sz : Nat} (h : pagesOf sz ≤ tfPage) : sz < 2 ^ 38 := by
  rw [tfPage_eq] at h
  unfold pagesOf pagesBetween PGSIZE at h
  omega

theorem spaceOf_bound (p n : Nat) :
    spaceOf L ok tf p n ≤ fact (n ≤ tfPage) * spaceOf L ok tf p n := by
  intro h hs
  refine fact_mul.mpr ⟨?_, hs⟩
  obtain ⟨m, hm⟩ := hs
  exact (fact_mul.mp hm).1.bound

/-- The pages of the smaller size stay as they are, the others are given back. -/
theorem spec_uvmdealloc_with {p oldsz newsz : Nat} {m : Nat → Nat} {c : Nat → Mem}
    (hs : Shape L ok tf m (pagesOf oldsz)) :
    Spec L (spaceWith L p m c (pagesOf oldsz)) (uvmdealloc L p oldsz newsz) fun r =>
      fact (r = min oldsz newsz) *
        spaceWith L p (cleared m (pagesOf r) (pagesOf oldsz - pagesOf r)) c (pagesOf r) := by
  have hb := hs.bound
  have hold := lt_of_pagesOf_le hb
  rw [uvmdealloc]
  split
  case isTrue h =>
    apply Triple.ret
    rw [Nat.sub_self, cleared_zero]
    exact le_fact_mul (by omega) le_rfl
  case isFalse h =>
    have hmono := pagesOf_mono (show newsz ≤ oldsz by omega)
    have hmin : newsz = min oldsz newsz := by omega
    rw [PGROUNDUP_eq (by omega), PGROUNDUP_eq (by omega)]
    split
    case isTrue hlt =>
      have hcount : ofInt32 ((pagesOf oldsz * PGSIZE - pagesOf newsz * PGSIZE) / PGSIZE) =
          pagesOf oldsz - pagesOf newsz := by
        rw [← Nat.sub_mul, pageno]
        rw [tfPage_eq] at hb
        unfold ofInt32
        rw [if_pos (by omega)]
        omega
      have hsum : pagesOf oldsz = pagesOf newsz + (pagesOf oldsz - pagesOf newsz) := by omega
      rw [hcount]
      have htop : Spec L (spaceWith L p m c (pagesOf newsz + (pagesOf oldsz - pagesOf newsz)))
          (uvmunmap L p (pagesOf newsz * PGSIZE) (pagesOf oldsz - pagesOf newsz) true) fun _ =>
            spaceWith L p (cleared m (pagesOf newsz) (pagesOf oldsz - pagesOf newsz)) c
              (pagesOf newsz) := spec_uvmunmap_top (hsum ▸ hs)
      rw [← hsum] at htop
      exact htop.bind fun _ => Triple.ret _ (le_fact_mul hmin le_rfl)
    case isFalse hge =>
      apply Triple.ret
      have heq : pagesOf oldsz = pagesOf newsz := by
        have hle : pagesOf oldsz ≤ pagesOf newsz :=
          Nat.le_of_mul_le_mul_right (Nat.not_lt.mp hge) (by decide)
        omega
      rw [heq, Nat.sub_self, cleared_zero]
      exact le_fact_mul hmin le_rfl

theorem Shape.update {m : Nat → Nat} {v e : Nat} (h : Shape L ok tf m v) (hv : v < tfPage)
    (hl : Leaf e) (he : ok e) : Shape L ok tf (update m v e) (v + 1) := by
  have hne : v ≠ trampPage := by
    rw [tfPage_eq] at hv
    rw [trampPage_eq]
    omega
  constructor
  · intro w hw
    by_cases hwv : w = v
    · rw [hwv, update_self]
      exact ⟨hl, he⟩
    · rw [update_of_ne hwv]
      exact h.user w (by omega)
  · exact hv
  · exact h.tf_lt
  · rw [update_of_ne (by omega)]
    exact h.trapframe
  · rw [update_of_ne (Ne.symm hne)]
    exact h.trampoline
  · intro w h3 hw ht hp
    rw [update_of_ne (by omega)]
    exact h.rest w h3 (by omega) ht hp

/-- With fewer pages than page numbers below the trapframe, an address space and one page
more leave a page number free. -/
theorem spec_room {γ : Type} (hN : L.npages < tfPage) {i j p v q : Nat} {m : Nat → Nat}
    {c : Nat → Mem} {d : Mem} {f : M γ} {Q : γ → Assn Nat Mem}
    (h : v < tfPage → Uses L i j (page L q d * spaceWith L p m c v) f Q) :
    Uses L i j (page L q d * spaceWith L p m c v) f Q := by
  refine spec_of_card (n := v + 1) (q := update (fun w => PTE2PA (m w)) v q)
    (F := tree L 2 p m) ?_ fun hcard => h (by omega)
  unfold spaceWith
  rw [Finset.prod_range_succ, update_self, mul_left_comm, mul_comm _ (tree L 2 p m),
    mul_comm _ (own L q)]
  refine mul_le_mul' le_rfl (mul_le_mul' (page_le_own q d) ?_)
  refine le_trans (data_le_users m c 0 v) (le_of_eq ?_)
  rw [users, ← Finset.range_eq_Ico]
  apply Finset.prod_congr rfl
  intro w hw
  rw [update_of_ne (Nat.ne_of_lt (Finset.mem_range.mp hw))]

/-- Map one page more at the top. -/
theorem spec_mappages_with (hN : L.npages < tfPage) (n : Nat) {p v q perm : Nat} {m : Nat → Nat}
    {c : Nat → Mem} {d : Mem} (hs : Shape L ok tf m v) (hperm : perm < 1024)
    (hR : perm &&& PTE_R ≠ 0) (hok : ok (PA2PTE q ||| perm ||| PTE_V)) :
    Uses L n (n - 2) (page L q d * spaceWith L p m c v) (mappages p (v * PGSIZE) PGSIZE q perm) fun r =>
      either (fact (r = 0 ∧ PTE2PA (PA2PTE q ||| perm ||| PTE_V) = q ∧
            Shape L ok tf (update m v (PA2PTE q ||| perm ||| PTE_V)) (v + 1)) *
          spaceWith L p (update m v (PA2PTE q ||| perm ||| PTE_V)) (update c v d)
            (v + 1))
        (fact (r < 0 ∧ n < 2) * (page L q d * spaceWith L p m c v)) := by
  apply spec_room hN
  intro hv
  apply Triple.pre ?_ (mul_le_mul' (page_isPage q d) le_rfl)
  rw [mul_assoc]
  apply Triple.of_fact
  intro hq
  have hleaf := leaf_pte hq.lt hperm hR
  have hm : m v = 0 := by
    rw [tfPage_eq] at hv
    exact hs.rest v (by rw [span_three]; omega) le_rfl (by rw [tfPage_eq]; omega)
      (by rw [trampPage_eq]; omega)
  have hmap : Uses L n (n - 2) (tree L 2 p m) (mappages p (v * PGSIZE) PGSIZE q perm) _ :=
    spec_mappages (by rw [trampPage_eq]; rw [tfPage_eq] at hv; omega) (by rw [hm, Nat.zero_and])
      hleaf.lt
  unfold spaceWith
  rw [mul_left_comm]
  refine (hmap.frame (page L q d * data L m c 0 v)).post fun r => ?_
  rw [either_mul]
  apply either_le
  · rw [mul_assoc]
    apply fact_mul_le
    intro hr
    have hpa : PTE2PA (PA2PTE q ||| perm ||| PTE_V) = q := by
      rw [Nat.or_assoc]
      exact PTE2PA_or hq.1 (Nat.or_lt_two_pow (n := 10) hperm (by decide))
    refine le_trans (le_fact_mul ⟨hr, hpa, hs.update hv hleaf hok⟩ (le_of_eq ?_)) (le_either_left _ _)
    have hold : data L (update m v (PA2PTE q ||| perm ||| PTE_V)) (update c v d) 0 v =
        data L m c 0 v :=
      data_congr fun w _ hw => ⟨update_of_ne (by omega) _ _, update_of_ne (by omega) _ _⟩
    rw [data_succ, hold, update_self, update_self, hpa, mul_comm (data L m c 0 v)]
  · rw [mul_assoc]
    apply fact_mul_le
    intro hr
    refine le_trans (le_fact_mul hr (le_of_eq ?_)) (le_either_right _ _)
    rw [mul_left_comm (tree L 2 p m)]

/-- The same for an address space whose map and bytes are not known. -/
theorem spec_mappages_top (hN : L.npages < tfPage) (n : Nat) {p v q perm : Nat}
    (hperm : perm < 1024) (hR : perm &&& PTE_R ≠ 0) (hok : ok (PA2PTE q ||| perm ||| PTE_V)) :
    Uses L n (n - 2) (own L q * spaceOf L ok tf p v) (mappages p (v * PGSIZE) PGSIZE q perm) fun r =>
      either (fact (r = 0) * lent L ok tf p (v + 1) q)
        (fact (r < 0 ∧ n < 2) * (own L q * spaceOf L ok tf p v)) := by
  refine spec_of_bytes fun m c hs => ?_
  rw [own, any_mul]
  refine Triple.of_any fun d => ?_
  refine (spec_mappages_with hN n hs hperm hR hok).post fun r => either_le ?_ ?_
  · refine fact_mul_le fun hr => le_trans (le_fact_mul hr.1 ?_) (le_either_left _ _)
    refine le_any _ (le_fact_mul ⟨hr.2.2, v, Nat.lt_succ_self v, ?_⟩ ?_)
    · rw [update_self, hr.2.1]
    · exact mul_le_mul' le_rfl (data_le_users _ _ _ _)
  · refine fact_mul_le fun hr => le_trans (le_fact_mul hr ?_) (le_either_right _ _)
    exact mul_le_mul' (page_le_own q d) (spaceWith_le hs)

/-- The map `m'` with the bytes `c'` has zeroed pages from `n` up to `v` besides what `m` and `c`
have. -/
structure Grown (m : Nat → Nat) (c : Nat → Mem) (n : Nat) (m' : Nat → Nat) (c' : Nat → Mem) (v : Nat) :
    Prop where
  le : n ≤ v
  map : ∀ w, w < n ∨ v ≤ w → m' w = m w
  bytes : ∀ w < n, c' w = c w
  zero : ∀ w, n ≤ w → w < v → c' w = filled 0

section Grown

variable {m m' : Nat → Nat} {c c' : Nat → Mem} {n v : Nat}

theorem Grown.refl (m : Nat → Nat) (c : Nat → Mem) (n : Nat) : Grown m c n m c n :=
  ⟨le_rfl, fun _ _ => rfl, fun _ _ => rfl, fun _ h1 h2 => absurd h1 (Nat.not_le.mpr h2)⟩

theorem Grown.next (h : Grown m c n m' c' v) (e : Nat) :
    Grown m c n (update m' v e) (update c' v (filled 0)) (v + 1) := by
  have hle := h.le
  refine ⟨by omega, fun w hw => ?_, fun w hw => ?_, fun w h1 h2 => ?_⟩
  · rw [update_of_ne (by omega)]
    exact h.map w (by omega)
  · rw [update_of_ne (by omega)]
    exact h.bytes w hw
  · by_cases hwv : w = v
    · rw [hwv, update_self]
    · rw [update_of_ne hwv]
      exact h.zero w h1 (by omega)

/-- Without the new pages it is the old address space. -/
theorem Grown.undo (h : Grown m c n m' c' v) (hs : Shape L ok tf m n) (hs' : Shape L ok tf m' v) {p : Nat} :
    spaceWith L p (cleared m' n (v - n)) c' n = spaceWith L p m c n := by
  have hle := h.le
  have hb := hs'.bound
  rw [tfPage_eq] at hb
  have hmap : ∀ w < span 3, cleared m' n (v - n) w = m w := by
    intro w hw
    unfold cleared
    split
    next hin =>
      exact (hs.rest w hw hin.1 (by rw [tfPage_eq]; omega) (by rw [trampPage_eq]; omega)).symm
    next hout => exact h.map w (by omega)
  unfold spaceWith
  rw [tree_congr hmap, data_congr fun w _ hw => ⟨hmap w (by rw [span_three]; omega), h.bytes w hw⟩]

end Grown

/-- An address space of `n` pages has become one of `n'` pages: what is below both numbers is as it
was, and the new pages are zeroed. -/
structure Resized (m : Nat → Nat) (c : Nat → Mem) (n : Nat) (m' : Nat → Nat) (c' : Nat → Mem)
    (n' : Nat) : Prop where
  kept : ∀ v, v < n → v < n' → m' v = m v ∧ c' v = c v
  zero : ∀ v, n ≤ v → v < n' → c' v = filled 0

theorem Resized.refl (m : Nat → Nat) (c : Nat → Mem) (n : Nat) : Resized m c n m c n :=
  ⟨fun _ _ _ => ⟨rfl, rfl⟩, fun _ h1 h2 => absurd h1 (Nat.not_le.mpr h2)⟩

theorem Grown.resized {m m' : Nat → Nat} {c c' : Nat → Mem} {n v : Nat} (h : Grown m c n m' c' v) :
    Resized m c n m' c' v :=
  ⟨fun w hw _ => ⟨h.map w (Or.inl hw), h.bytes w hw⟩, h.zero⟩

theorem resized_cleared (m : Nat → Nat) (c : Nat → Mem) {v n : Nat} (h : v ≤ n) :
    Resized m c n (cleared m v (n - v)) c v :=
  ⟨fun w _ hw => ⟨if_neg (by omega), rfl⟩, fun w h1 h2 => absurd h1 (by omega)⟩

/-- What `uvmalloc` makes of an address space: it has `v` pages. -/
def grown (L : Layout) (ok : Nat → Prop) (tf p : Nat) (m : Nat → Nat) (c : Nat → Mem) (n v : Nat) :
    Assn Nat Mem :=
  any fun m' => any fun c' => fact (Shape L ok tf m' v ∧ Grown m c n m' c' v) * spaceWith L p m' c' v

/-- `uvmdealloc` back to a page boundary, as `uvmalloc` calls it to undo its work. -/
theorem spec_undo {p v n : Nat} {m m' : Nat → Nat} {c c' : Nat → Mem} (hs : Shape L ok tf m n)
    (hs' : Shape L ok tf m' v) (h : Grown m c n m' c' v) :
    Spec L (spaceWith L p m' c' v)
      (do let _ ← uvmdealloc L p (v * PGSIZE) (n * PGSIZE); pure 0)
      fun (r : Nat) => fact (r = 0) * spaceWith L p m c n := by
  have hde : Spec L (spaceWith L p m' c' (pagesOf (v * PGSIZE)))
      (uvmdealloc L p (v * PGSIZE) (n * PGSIZE)) _ :=
    spec_uvmdealloc_with (by rw [pagesOf_mul]; exact hs')
  rw [pagesOf_mul] at hde
  refine hde.bind fun r => ?_
  apply Triple.of_fact
  intro hr
  have hmin : min (v * PGSIZE) (n * PGSIZE) = n * PGSIZE :=
    Nat.min_eq_right (Nat.mul_le_mul_right _ h.le)
  rw [hr, hmin, pagesOf_mul, h.undo hs hs']
  exact Triple.ret _ (le_fact_mul rfl le_rfl)

theorem spec_uvmallocLoop (hN : L.npages < tfPage) {p n v newsz xperm : Nat} {m m' : Nat → Nat}
    {c c' : Nat → Mem} (k : Nat) (hx : xperm < 1024)
    (hok : ∀ q, ok (PA2PTE q ||| (PTE_R ||| PTE_U ||| xperm) ||| PTE_V))
    (hs : Shape L ok tf m n) (hs' : Shape L ok tf m' v) (h : Grown m c n m' c' v) :
    Spec L (spaceWith L p m' c' v) (uvmallocLoop L p (n * PGSIZE) newsz xperm k (v * PGSIZE)) fun r =>
      either (fact (r = newsz) * grown L ok tf p m c n (v + k)) (fact (r = 0) * spaceWith L p m c n) := by
  induction k generalizing v m' c' with
  | zero =>
    apply Triple.ret
    refine le_trans (le_fact_mul rfl ?_) (le_either_left _ _)
    exact le_any m' (le_any c' (le_fact_mul ⟨hs', h⟩ le_rfl))
  | succ k ih =>
    have hlt : PTE_R ||| PTE_U ||| xperm < 1024 := Nat.or_lt_two_pow (n := 10) (by decide) hx
    have hR : (PTE_R ||| PTE_U ||| xperm) &&& PTE_R ≠ 0 := by
      rw [Nat.and_or_distrib_right]
      exact fun h => absurd (Nat.or_eq_zero_iff.mp h).1 (by decide)
    rw [uvmallocLoop]
    refine (spec_kalloc 0).call (one_mul _).symm fun q => ?_
    split
    case isTrue hq =>
      rw [hq, given_none, one_mul]
      exact (spec_undo hs hs' h).post fun r => le_either_right _ _
    case isFalse hq =>
      rw [given_of_ne hq]
      refine (spec_memset q 0).call rfl fun _ => ?_
      refine (spec_mappages_with hN 0 hs' hlt hR (hok q)).bind fun r => ?_
      apply Triple.of_either
      · apply Triple.of_fact
        intro hr
        have hrec := ih hr.2.2 (h.next _)
        rw [Nat.add_mul, Nat.one_mul, show v + 1 + k = v + (k + 1) by omega] at hrec
        rw [if_neg fun hne => hne hr.1]
        exact hrec
      · apply Triple.of_fact
        intro hr
        rw [if_pos (by omega)]
        apply Triple.pre ?_ (mul_le_mul' (page_le_own q _) le_rfl)
        refine (spec_kfree 0 q).call rfl fun _ => ?_
        rw [one_mul]
        exact (spec_undo hs hs' h).post fun r => le_either_right _ _

/-- `uvmalloc` adds zeroed pages at the top, or leaves the address space as it was. -/
theorem spec_uvmalloc_with (hN : L.npages < tfPage) {p oldsz newsz xperm : Nat} {m : Nat → Nat}
    {c : Nat → Mem} (hx : xperm < 1024)
    (hok : ∀ q, ok (PA2PTE q ||| (PTE_R ||| PTE_U ||| xperm) ||| PTE_V))
    (hs : Shape L ok tf m (pagesOf oldsz)) :
    Spec L (spaceWith L p m c (pagesOf oldsz)) (uvmalloc L p oldsz newsz xperm) fun r =>
      either (fact (r = max oldsz newsz) * grown L ok tf p m c (pagesOf oldsz) (pagesOf r))
        (fact (r = 0) * spaceWith L p m c (pagesOf oldsz)) := by
  have hold := lt_of_pagesOf_le hs.bound
  rw [uvmalloc]
  split
  case isTrue h =>
    apply Triple.ret
    refine le_trans (le_fact_mul (by omega) ?_) (le_either_left _ _)
    exact le_any m (le_any c (le_fact_mul ⟨hs, Grown.refl m c _⟩ le_rfl))
  case isFalse h =>
    have hcount : pagesOf oldsz + pagesBetween (pagesOf oldsz * PGSIZE) newsz = pagesOf newsz := by
      unfold pagesOf pagesBetween PGSIZE
      omega
    rw [PGROUNDUP_eq (by omega)]
    refine (spec_uvmallocLoop hN _ hx hok hs hs (Grown.refl m c _)).post fun r => ?_
    apply either_le
    · apply fact_mul_le
      intro hr
      refine le_trans (le_fact_mul (by omega) ?_) (le_either_left _ _)
      rw [hcount, hr]
    · exact le_either_right _ _

theorem grown_le {p n v : Nat} {m : Nat → Nat} {c : Nat → Mem} :
    grown L ok tf p m c n v ≤ spaceOf L ok tf p v :=
  any_le fun _ => any_le fun _ => fact_mul_le fun h => spaceWith_le h.1

theorem spec_uvmalloc (hN : L.npages < tfPage) {p oldsz newsz xperm : Nat} (hx : xperm < 1024)
    (hok : ∀ q, ok (PA2PTE q ||| (PTE_R ||| PTE_U ||| xperm) ||| PTE_V)) :
    Spec L (spaceOf L ok tf p (pagesOf oldsz)) (uvmalloc L p oldsz newsz xperm) fun r =>
      either (fact (r = max oldsz newsz) * spaceOf L ok tf p (pagesOf r))
        (fact (r = 0) * spaceOf L ok tf p (pagesOf oldsz)) := by
  apply Triple.pre ?_ (le_of_eq (one_mul _).symm)
  refine spec_of_bytes fun m c hs => ?_
  rw [one_mul]
  refine (spec_uvmalloc_with hN hx hok hs).post fun r => either_le ?_ ?_
  · exact le_trans (mul_le_mul' le_rfl grown_le) (le_either_left _ _)
  · exact le_trans (mul_le_mul' le_rfl (spaceWith_le hs)) (le_either_right _ _)

end Xv6.Vm
