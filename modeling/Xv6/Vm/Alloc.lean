import Xv6.Lib.Sep
import Xv6.Vm.Pte

/-!
# Owning pages

The cells of the separation logic are the pages that `kinit` hands out, with their
bytes. `own` is a page somebody holds, `free` the pages on the free list, linked
through their first words. In a triple of this development `free` is the invariant,
so that `kalloc` turns nothing into a page and `kfree` a page into nothing. For the
code that runs at boot the invariant also counts: with `n` pages on the list, the next
`n` calls of `kalloc` succeed.
-/
namespace Xv6.Vm

open Lib.Bytes Lib.Sep Lib.Sep.Assn

set_option autoImplicit false

variable (L : Layout)

/-- One of the pages that `freerange` frees at boot. -/
def Layout.IsPage (p : Nat) : Prop :=
  p % PGSIZE = 0 ∧ PGROUNDUP L.kend ≤ p ∧ p + PGSIZE ≤ L.phystop

instance (p : Nat) : Decidable (L.IsPage p) := by
  unfold Layout.IsPage
  infer_instance

variable {L} in
theorem Layout.IsPage.kend_le {p : Nat} (h : L.IsPage p) : L.kend ≤ p := by
  have h1 := h.2.1
  have h2 := L.kend_le
  have h3 := L.phystop_le
  unfold PGROUNDUP PGSIZE at h1
  omega

variable {L} in
theorem Layout.IsPage.pos {p : Nat} (h : L.IsPage p) : 0 < p := by
  have h1 := h.kend_le
  have h2 := L.kernbase_le
  unfold KERNBASE at h2
  omega

variable {L} in
theorem Layout.IsPage.lt {p : Nat} (h : L.IsPage p) : p < 2 ^ 56 := by
  have h1 := h.2.2
  have h2 := L.phystop_le
  unfold PGSIZE at h1
  omega

/-- The bytes of the page at `p`. -/
def pageAt (m : Mem) (p : Nat) : Mem := fun i => if i < PGSIZE then m (p + i) else 0

theorem pageAt_lt {m : Mem} {p i : Nat} (h : i < PGSIZE) : pageAt m p i = m (p + i) := if_pos h

theorem pageAt_ge {m : Mem} {p i : Nat} (h : PGSIZE ≤ i) : pageAt m p i = 0 :=
  if_neg (Nat.not_lt.mpr h)

/-- The pages of the memory. -/
def view (s : Kmem) : Heap Nat Mem := fun p => if L.IsPage p then some (pageAt s.mem p) else none

/-- The page `p`, with its bytes. -/
def page (p : Nat) (c : Mem) : Assn Nat Mem := fact (L.IsPage p) * cell p c

/-- The page `p`, whatever is in it. -/
def own (p : Nat) : Assn Nat Mem := any fun c => page L p c

/-- The free list from `r` on: its pages, linked through their first words. -/
def chain : Nat → List Nat → Assn Nat Mem
  | r, [] => fact (r = 0)
  | r, p :: ps => fact (r = p) * any fun c => page L p c * chain (getLE c 0 8) ps

/-- The free list. There are `n` pages on it at least, and where that matters `kalloc`
finds them. -/
def free (n : Nat) (s : Kmem) : Assn Nat Mem :=
  any fun ps => fact (n ≤ ps.length ∧ (0 < n → s.oom = [])) * chain L s.freelist ps

/-- The triples of this development: of `n` pages that are left, `n'` are left after. -/
abbrev Uses {γ : Type} (n n' : Nat) (P : Assn Nat Mem) (f : M γ) (Q : γ → Assn Nat Mem) : Prop :=
  Triple (view L) (free L n) (free L n') P f Q

/-- A triple that counts on no page. -/
abbrev Spec {γ : Type} (P : Assn Nat Mem) (f : M γ) (Q : γ → Assn Nat Mem) : Prop :=
  Uses L 0 0 P f Q

variable {L}

theorem free_mono {n n' : Nat} (h : n' ≤ n) (s : Kmem) : free L n s ≤ free L n' s := by
  apply any_le
  intro ps
  apply fact_mul_le
  intro hn
  exact le_any ps (le_fact_mul ⟨by omega, fun h0 => hn.2 (by omega)⟩ le_rfl)

theorem view_of_isPage {s : Kmem} {p : Nat} (h : L.IsPage p) : view L s p = some (pageAt s.mem p) :=
  if_pos h

theorem page_mul_iff {p : Nat} {c : Mem} {P : Assn Nat Mem} {h : Heap Nat Mem} :
    (page L p c * P) h ↔ L.IsPage p ∧ (cell p c * P : Assn Nat Mem) h := by
  unfold page
  rw [mul_assoc]
  exact fact_mul

theorem page_isPage (p : Nat) (c : Mem) : page L p c ≤ fact (L.IsPage p) * page L p c :=
  fun _ h => fact_mul.mpr ⟨(fact_mul.mp h).1, h⟩

theorem own_isPage (p : Nat) : own L p ≤ fact (L.IsPage p) * own L p := by
  rintro h ⟨c, hc⟩
  exact fact_mul.mpr ⟨(fact_mul.mp hc).1, c, hc⟩

theorem page_le_own (p : Nat) (c : Mem) : page L p c ≤ own L p := le_any c le_rfl

/-! ## Reading and writing an owned page -/

/-- A change of memory that touches the page `p` only. -/
def Only (p : Nat) (m m' : Mem) : Prop := ∀ x, x < p ∨ p + PGSIZE ≤ x → m' x = m x

theorem pageAt_of_only {p q : Nat} {m m' : Mem} (hp : p % PGSIZE = 0) (hq : q % PGSIZE = 0)
    (hne : q ≠ p) (h : Only p m m') : pageAt m' q = pageAt m q := by
  funext i
  unfold pageAt
  split
  case isTrue hi =>
    apply h
    unfold PGSIZE at *
    omega
  case isFalse => rfl

theorem view_of_only {s t : Kmem} {p : Nat} (hp : L.IsPage p) (h : Only p s.mem t.mem) :
    view L t = (view L s).set p (pageAt t.mem p) := by
  funext q
  by_cases hq : q = p
  · rw [hq, Heap.set_self, view_of_isPage hp]
  · rw [Heap.set_ne _ _ hq]
    unfold view
    split
    case isTrue hpage => rw [pageAt_of_only hp.1 hpage.1 hq h]
    case isFalse => rfl

/-- Overwrite an owned page, in a state where the rest of what is owned is `P`. -/
theorem write_page {s t : Kmem} {p : Nat} {c : Mem} {P : Assn Nat Mem}
    (hs : (page L p c * P) (view L s)) (h : Only p s.mem t.mem) :
    (page L p (pageAt t.mem p) * P) (view L t) := by
  have hs := page_mul_iff.mp hs
  rw [view_of_only hs.1 h]
  exact page_mul_iff.mpr ⟨hs.1, cell_mul_set _ hs.2⟩

theorem content_eq {s : Kmem} {p : Nat} {c : Mem} {P : Assn Nat Mem}
    (hs : (page L p c * P) (view L s)) : c = pageAt s.mem p := by
  have hs := page_mul_iff.mp hs
  have h := cell_mul_get hs.2
  rw [view_of_isPage hs.1] at h
  exact (Option.some.inj h).symm

/-- A program that only looks at the memory. -/
theorem spec_read {γ : Type} {n p : Nat} {c : Mem} {f : M γ} (r : Mem → γ)
    (hf : ∀ s, f s = .ok (r s.mem, s)) :
    Uses L n n (page L p c) f fun v => any fun m => fact (pageAt m p = c ∧ v = r m) * page L p c := by
  intro R s hs
  refine ⟨r s.mem, s, hf s, ?_⟩
  apply Assn.mul_left ?_ hs
  exact le_any s.mem (le_fact_mul ⟨(content_eq hs).symm, rfl⟩ le_rfl)

/-- A program that changes the memory, and of it only the page it owns. -/
theorem spec_write {n p : Nat} {c c' : Mem} {f : M Unit} (r : Mem → Mem)
    (hf : ∀ s, f s = .ok ((), { s with mem := r s.mem })) (ho : ∀ m, Only p m (r m))
    (hc : ∀ m, pageAt m p = c → pageAt (r m) p = c') :
    Uses L n n (page L p c) f fun _ => page L p c' := by
  intro R s hs
  refine ⟨(), _, hf s, ?_⟩
  rw [← hc s.mem (content_eq hs).symm]
  exact write_page (t := { s with mem := r s.mem }) hs (ho s.mem)

theorem pageAt_field {m : Mem} {p o k : Nat} (h : o + k ≤ PGSIZE) :
    getLE m (p + o) k = getLE (pageAt m p) o k := by
  induction k generalizing o with
  | zero => rfl
  | succ k ih =>
    rw [getLE, getLE, Nat.add_assoc p o 1, ih (by omega), pageAt_lt (by omega)]

theorem spec_load {n p o k : Nat} {c : Mem} (h : o + k ≤ PGSIZE) :
    Uses L n n (page L p c) (load (p + o) k) fun v => fact (v = getLE c o k) * page L p c := by
  apply (spec_read (fun m => getLE m (p + o) k) fun s => rfl).post
  intro v
  apply any_le
  intro m
  apply fact_mul_le
  intro hm
  refine le_fact_mul ?_ le_rfl
  rw [hm.2, pageAt_field h, hm.1]

theorem reads_load (a k : Nat) : Reads (load a k) := by
  intro s c t h
  cases h
  rfl

theorem reads_panic {γ : Type} (e : Panic) : Reads (panic e : M γ) := by
  intro s c t h
  cases h

theorem pageAt_putLE {m : Mem} {p o k v : Nat} (h : o + k ≤ PGSIZE) :
    pageAt (putLE m (p + o) k v) p = putLE (pageAt m p) o k v := by
  funext i
  by_cases hi : i < PGSIZE
  · rw [pageAt_lt hi]
    unfold putLE
    simp only [pageAt_lt hi, Nat.add_sub_add_left, Nat.add_assoc, Nat.add_le_add_iff_left,
      Nat.add_lt_add_iff_left]
  · rw [pageAt_ge (by omega), putLE_outside (by omega), pageAt_ge (by omega)]

theorem spec_store {n p o k v : Nat} {c : Mem} (h : o + k ≤ PGSIZE) :
    Uses L n n (page L p c) (store (p + o) k v) fun _ => page L p (putLE c o k v) := by
  apply spec_write (fun m => putLE m (p + o) k v) fun s => rfl
  · intro m x hx
    exact putLE_outside (by omega)
  · intro m hm
    rw [pageAt_putLE h, hm]

/-- The bytes of a page filled with `v`. -/
def filled (v : Nat) : Mem := fun i => if i < PGSIZE then UInt8.ofNat v else 0

theorem spec_memset {n : Nat} (p v : Nat) :
    Uses L n n (own L p) (memset p v PGSIZE) fun _ => page L p (filled v) := by
  apply Triple.of_any
  intro c
  apply spec_write (fun m x => if p ≤ x ∧ x < p + PGSIZE then UInt8.ofNat v else m x) fun s => rfl
  · intro m x hx
    exact if_neg (by omega)
  · intro m hm
    funext i
    unfold pageAt filled
    split
    case isTrue hi => exact if_pos (by omega)
    case isFalse => rfl

/-- Copying into an owned page, within its bounds. -/
theorem spec_blit {n' p o n : Nat} {f : M Unit} (src : Mem → Mem) (b : Nat)
    (hf : ∀ s, f s = .ok ((), { s with mem := blit s.mem (p + o) (src s.mem) b n }))
    (h : o + n ≤ PGSIZE) : Uses L n' n' (own L p) f fun _ => own L p := by
  apply Triple.of_any
  intro c R s hs
  refine ⟨(), _, hf s, ?_⟩
  have ho : Only p s.mem (blit s.mem (p + o) (src s.mem) b n) := by
    intro x hx
    exact if_neg (by omega)
  exact Assn.mul_left (page_le_own _ _)
    (write_page (t := { s with mem := blit s.mem (p + o) (src s.mem) b n }) hs ho)

/-- Copying from the start of a page that `F` owns to the start of another one. -/
theorem spec_memmove {n q src k : Nat} {c d : Mem} {F T : Assn Nat Mem} (hk : k ≤ PGSIZE)
    (hF : F ≤ page L src c * T) :
    Uses L n n (page L q d * F) (memmove q src k) fun _ =>
      fact (∀ i, PGSIZE ≤ i → d i = c i) * (page L q (fun i => if i < k then c i else d i) * F) := by
  intro R s hs
  rw [mul_assoc] at hs
  have hsrc : c = pageAt s.mem src := by
    rw [mul_left_comm] at hs
    have h := Assn.mul_left hF hs
    rw [mul_assoc] at h
    exact content_eq h
  have hdst := content_eq hs
  have ho : Only q s.mem (blit s.mem q s.mem src k) := fun x hx => if_neg (by omega)
  have ht := write_page (t := { s with mem := blit s.mem q s.mem src k }) hs ho
  have hcopy : pageAt (blit s.mem q s.mem src k) q = fun i => if i < k then c i else d i := by
    rw [hsrc, hdst]
    funext i
    unfold pageAt blit
    by_cases hi : i < PGSIZE
    · rw [if_pos hi, if_pos hi, if_pos hi, Nat.add_sub_cancel_left]
      congr 1
      rw [eq_iff_iff]
      omega
    · rw [if_neg hi, if_neg hi, if_neg hi, ite_self]
  refine ⟨(), _, rfl, ?_⟩
  rw [mul_assoc, mul_assoc]
  refine fact_mul.mpr ⟨fun i hi => ?_, ?_⟩
  · rw [hsrc, hdst, pageAt_ge hi, pageAt_ge hi]
  · rw [← hcopy]
    exact ht

/-- Copying a whole page to an owned one. -/
theorem spec_copy_page {n q src : Nat} {c : Mem} {F T : Assn Nat Mem} (hF : F ≤ page L src c * T) :
    Uses L n n (own L q * F) (memmove q src PGSIZE) fun _ => page L q c * F := by
  rw [own, any_mul]
  refine Triple.of_any fun d => (spec_memmove le_rfl hF).post fun _ => ?_
  refine fact_mul_le fun hend => le_of_eq ?_
  have hc : (fun i => if i < PGSIZE then c i else d i) = c := by
    funext i
    split
    next => rfl
    next hi => exact hend i (Nat.not_lt.mp hi)
  rw [hc]

/-! ## Counting pages -/

/-- The pages that `freerange` frees. -/
def Layout.pages (L : Layout) : Finset Nat :=
  (Finset.range L.npages).image fun i => PGROUNDUP L.kend + i * PGSIZE

theorem isPage_iff_mem {p : Nat} : L.IsPage p ↔ p ∈ L.pages := by
  have hal : PGROUNDUP L.kend % PGSIZE = 0 := Nat.mul_mod_left _ _
  unfold Layout.pages Layout.npages Layout.IsPage
  rw [Finset.mem_image]
  constructor
  · intro h
    refine ⟨(p - PGROUNDUP L.kend) / PGSIZE, Finset.mem_range.mpr ?_, ?_⟩
    · unfold PGSIZE at *
      omega
    · unfold PGSIZE at *
      omega
  · rintro ⟨i, hi, rfl⟩
    have hi := Finset.mem_range.mp hi
    unfold PGSIZE at *
    omega

theorem own_nonempty {p : Nat} {h : Heap Nat Mem} (ho : own L p h) : ∃ a, h a ≠ none := by
  obtain ⟨c, hc⟩ := ho
  obtain ⟨-, rfl⟩ := fact_mul.mp hc
  exact ⟨p, by rw [Heap.single_self]; exact Option.some_ne_none c⟩

/-- Whoever owns `n` pages may use that there are as many. -/
theorem spec_of_card {γ : Type} {i j n : Nat} {q : Nat → Nat} {P F : Assn Nat Mem} {f : M γ}
    {Q : γ → Assn Nat Mem} (hP : P ≤ (∏ w ∈ Finset.range n, own L (q w)) * F)
    (h : n ≤ L.npages → Uses L i j P f Q) : Uses L i j P f Q := by
  intro R s hs
  refine h ?_ R s hs
  have hp := Assn.mul_left hP hs
  rw [mul_assoc] at hp
  obtain ⟨g, k, -, hgk, hg, -⟩ := hp
  obtain ⟨t, ht, hmem⟩ := prod_card (Finset.range n) (fun i _ h ho => own_nonempty ho) hg
  have hsub : t ⊆ L.pages := by
    intro a ha
    rw [← isPage_iff_mem]
    by_contra hn
    have hv : view L s a = none := if_neg hn
    rw [hgk, Heap.union_eq_none] at hv
    exact hmem a ha hv.1
  calc n = t.card := by rw [ht, Finset.card_range]
    _ ≤ L.pages.card := Finset.card_le_card hsub
    _ ≤ L.npages := le_of_le_of_eq Finset.card_image_le (Finset.card_range _)

/-! ## `kalloc` and `kfree` -/

/-- What `kalloc` has handed over when it returns `r` and `n` pages were promised. -/
def given (L : Layout) (n r : Nat) : Assn Nat Mem := if r = 0 then fact (n = 0) else own L r

theorem given_zero (n : Nat) : given L n 0 = fact (n = 0) := if_pos rfl

theorem given_none : given L 0 0 = 1 := (given_zero 0).trans (fact_true rfl)

theorem given_of_ne {n r : Nat} (h : r ≠ 0) : given L n r = own L r := if_neg h

/-- A nonempty free list starts with an owned page that holds the rest of it. -/
theorem chain_of_ne {r : Nat} {ps : List Nat} (hr : r ≠ 0) :
    chain L r ps ≤ any fun c => page L r c * chain L (getLE c 0 8) ps.tail := by
  cases ps with
  | nil =>
    intro h hc
    exact absurd hc.1 hr
  | cons p ps =>
    apply fact_mul_le
    intro hp
    apply any_le
    intro c
    rw [hp]
    exact le_any c le_rfl

/-- With a page on the list its head is not null. -/
theorem chain_pos {r : Nat} {ps : List Nat} {h : Heap Nat Mem} (hc : chain L r ps h)
    (hp : 0 < ps.length) : r ≠ 0 := by
  cases ps with
  | nil => exact absurd hp (Nat.lt_irrefl 0)
  | cons p ps =>
    obtain ⟨hr, c, hpg⟩ := fact_mul.mp hc
    rw [hr]
    exact Nat.ne_of_gt (page_mul_iff.mp hpg).1.pos

theorem free_open {n : Nat} {s : Kmem} {P : Assn Nat Mem} {h : Heap Nat Mem}
    (hf : (free L n s * P) h) : ∃ ps : List Nat,
      (n ≤ ps.length ∧ (0 < n → s.oom = [])) ∧ (chain L s.freelist ps * P) h := by
  unfold free at hf
  rw [any_mul] at hf
  obtain ⟨ps, hps⟩ := hf
  rw [mul_assoc] at hps
  exact ⟨ps, fact_mul.mp hps⟩

theorem only_memset (p v : Nat) (m : Mem) :
    Only p m fun x => if p ≤ x ∧ x < p + PGSIZE then UInt8.ofNat v else m x := by
  intro x hx
  exact if_neg (by omega)

theorem kalloc_none {s : Kmem} (h : s.oom.headD false ∨ s.freelist = 0) :
    kalloc s = .ok (0, { s with oom := s.oom.tail }) := by
  show (ite _ _ _ : M Nat) _ = _
  rw [if_pos h]
  rfl

/-- The state after `kalloc` has taken the first page of the list. -/
def popped (s : Kmem) : Kmem where
  mem := fun x => if s.freelist ≤ x ∧ x < s.freelist + PGSIZE then UInt8.ofNat 5 else s.mem x
  freelist := getLE s.mem s.freelist 8
  oom := s.oom.tail

theorem kalloc_some {s : Kmem} (h : ¬(s.oom.headD false ∨ s.freelist = 0)) :
    kalloc s = .ok (s.freelist, popped s) := by
  show (ite _ _ _ : M Nat) _ = _
  rw [if_neg h]
  rfl

theorem spec_kalloc (n : Nat) : Uses L n (n - 1) 1 kalloc (given L n) := by
  intro R s hs
  rw [one_mul] at hs
  obtain ⟨ps, hn, hs⟩ := free_open hs
  by_cases hz : s.oom.headD false ∨ s.freelist = 0
  · have hn0 : n = 0 := by
      by_contra hne
      obtain ⟨g, k, -, -, hg, -⟩ := hs
      have hne0 := chain_pos hg (by omega)
      rw [hn.2 (by omega)] at hz
      exact hz.elim Bool.false_ne_true hne0
    refine ⟨0, _, kalloc_none hz, ?_⟩
    rw [given_zero, fact_true hn0, one_mul]
    apply Assn.mul_left ?_ hs
    exact le_any ps (le_fact_mul ⟨by omega, by omega⟩ le_rfl)
  · refine ⟨s.freelist, _, kalloc_some hz, ?_⟩
    have hr : s.freelist ≠ 0 := fun h => hz (Or.inr h)
    obtain ⟨c, hc⟩ :
        ∃ c, (page L s.freelist c * chain L (getLE c 0 8) ps.tail * R) (view L s) := by
      have h := Assn.mul_left (chain_of_ne hr) hs
      rw [any_mul] at h
      exact h
    rw [mul_assoc] at hc
    have hlink : getLE s.mem s.freelist 8 = getLE c 0 8 := by
      rw [content_eq hc]
      exact pageAt_field (o := 0) (by decide)
    rw [given_of_ne hr]
    apply Assn.mul_left (page_le_own _ _)
    rw [← hlink] at hc
    have ht := write_page (t := popped s) hc (only_memset s.freelist 5 s.mem)
    refine Assn.mul_right (mul_le_mul' ?_ le_rfl) ht
    apply le_any ps.tail
    refine le_fact_mul ⟨?_, fun h => ?_⟩ le_rfl
    · rw [List.length_tail]
      omega
    · show s.oom.tail = []
      rw [hn.2 (by omega), List.tail_nil]

/-- The head of the list fits in the word that links to it. -/
theorem chain_lt (r : Nat) (ps : List Nat) : chain L r ps ≤ fact (r < 256 ^ 8) * chain L r ps := by
  cases ps with
  | nil =>
    intro h hc
    exact fact_mul.mpr ⟨by rw [hc.1]; decide, hc⟩
  | cons p ps =>
    intro h hc
    refine fact_mul.mpr ⟨?_, hc⟩
    obtain ⟨hr, c, hp⟩ := fact_mul.mp hc
    have hlt := (page_mul_iff.mp hp).1.lt
    omega

/-- The memory after `kfree` of `p`, with `r` on the free list before. -/
def freed (m : Mem) (p r : Nat) : Mem :=
  putLE (fun x => if p ≤ x ∧ x < p + PGSIZE then UInt8.ofNat 1 else m x) p 8 r

theorem only_freed (m : Mem) (p r : Nat) : Only p m (freed m p r) := by
  intro x hx
  rw [← only_memset p 1 m x hx]
  apply putLE_outside
  unfold PGSIZE at hx
  omega

theorem kfree_ok {s : Kmem} {p : Nat} (hp : L.IsPage p) :
    kfree L p s = .ok ((), { s with mem := freed s.mem p s.freelist, freelist := p }) := by
  have hok : ¬(p % PGSIZE ≠ 0 ∨ p < L.kend ∨ L.phystop ≤ p) := by
    have h1 := hp.kend_le
    have h2 := hp.1
    have h3 := hp.2.2
    unfold PGSIZE at h3
    omega
  rw [kfree, if_neg hok]
  rfl

/-- A page that links to a list makes a longer one. -/
theorem page_mul_chain_le {p r : Nat} {c : Mem} (ps : List Nat) (h : getLE c 0 8 = r) :
    page L p c * chain L r ps ≤ chain L p (p :: ps) := by
  rw [← h]
  exact le_fact_mul rfl (le_any c le_rfl)

/-- `kfree` puts a page at the front of the list `ps`. -/
theorem kfree_push {s : Kmem} {p : Nat} {c : Mem} {ps : List Nat} {R : Assn Nat Mem}
    (hs : (page L p c * (chain L s.freelist ps * R)) (view L s)) :
    ∃ t : Kmem, kfree L p s = .ok ((), t) ∧ t.oom = s.oom ∧
      (chain L t.freelist (p :: ps) * R) (view L t) := by
  refine ⟨_, kfree_ok (page_mul_iff.mp hs).1, rfl, ?_⟩
  rw [mul_left_comm] at hs
  have hlt := (fact_mul.mp (by rw [← mul_assoc]; exact Assn.mul_left (chain_lt _ _) hs)).1
  rw [mul_left_comm] at hs
  have hlink : getLE (pageAt (freed s.mem p s.freelist) p) 0 8 = s.freelist := by
    rw [← pageAt_field (o := 0) (by decide)]
    exact getLE_putLE_of_lt hlt
  have ht := write_page (t := { s with mem := freed s.mem p s.freelist, freelist := p }) hs
    (only_freed _ _ _)
  rw [← mul_assoc] at ht
  exact Assn.mul_left (page_mul_chain_le ps hlink) ht

theorem spec_kfree (n p : Nat) : Uses L n n (own L p) (kfree L p) fun _ => 1 := by
  apply Triple.of_any
  intro c R s hs
  rw [mul_left_comm] at hs
  obtain ⟨ps, hn, hs⟩ := free_open hs
  rw [mul_left_comm] at hs
  obtain ⟨t, hf, ho, ht⟩ := kfree_push hs
  refine ⟨(), t, hf, ?_⟩
  rw [one_mul]
  apply Assn.mul_left ?_ ht
  refine le_any (p :: ps) (le_fact_mul ⟨?_, fun h => ho.trans (hn.2 h)⟩ le_rfl)
  rw [List.length_cons]
  omega

/-! ## `kinit` -/

/-- A free list of `n` pages, while no call of `kalloc` is to fail. -/
def stock (L : Layout) (n : Nat) (s : Kmem) : Assn Nat Mem :=
  any fun ps => fact (ps.length = n ∧ s.oom = []) * chain L s.freelist ps

theorem stock_le_free (n : Nat) (s : Kmem) : stock L n s ≤ free L n s :=
  any_le fun ps => fact_mul_le fun h => le_any ps (le_fact_mul ⟨h.1.ge, fun _ => h.2⟩ le_rfl)

theorem stock_kfree (n p : Nat) :
    Triple (view L) (stock L n) (stock L (n + 1)) (own L p) (kfree L p) fun _ => 1 := by
  apply Triple.of_any
  intro c R s hs
  unfold stock at hs
  rw [any_mul, mul_comm, any_mul] at hs
  obtain ⟨ps, hs⟩ := hs
  rw [mul_assoc, mul_assoc] at hs
  obtain ⟨⟨hlen, hoom⟩, hs⟩ := fact_mul.mp hs
  rw [mul_comm R, ← mul_assoc, mul_comm _ (page L p c), mul_assoc] at hs
  obtain ⟨t, hf, ho, ht⟩ := kfree_push hs
  refine ⟨(), t, hf, ?_⟩
  rw [one_mul]
  apply Assn.mul_left ?_ ht
  exact le_any (p :: ps) (le_fact_mul ⟨congrArg (· + 1) hlen, ho.trans hoom⟩ le_rfl)

theorem stock_freerange (n k p : Nat) :
    Triple (view L) (stock L n) (stock L (n + k)) (∏ i ∈ Finset.range k, own L (p + i * PGSIZE))
      (freerange L k p) fun _ => 1 := by
  induction k generalizing n p with
  | zero => exact Triple.ret _ le_rfl
  | succ k ih =>
    rw [freerange, Finset.prod_range_succ', Nat.zero_mul, Nat.add_zero, mul_comm]
    refine (stock_kfree n p).call rfl fun _ => ?_
    have h := ih (n + 1) (p + PGSIZE)
    rw [one_mul, show n + (k + 1) = n + 1 + k by omega]
    apply h.pre
    apply le_of_eq
    apply Finset.prod_congr rfl
    intro i _
    rw [Nat.add_mul, Nat.one_mul, Nat.add_comm (i * PGSIZE), Nat.add_assoc]

end Xv6.Vm
