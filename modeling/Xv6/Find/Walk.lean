import Xv6.Find.Model

/-!
# What `find_file` visits

A walk down the tree is a list of names. `find_file` goes down the walks whose names have no dot
in the first two places, and it takes the name of an entry for a string, which a name that fills
its field is not.
-/
namespace Xv6.Find

set_option autoImplicit false

open Lib.Lines

def Dirent.Live (e : Dirent) : Prop := e.inum ≠ 0

instance (e : Dirent) : Decidable e.Live := inferInstanceAs (Decidable (_ ≠ _))

/-- The path of what is reached from `path` by going down the given names. -/
def pathOf (path : Str) (names : List Str) : Str := path ++ names.flatMap (slash :: ·)

/-- The two entries that lead back up. -/
def Dots (name : Str) : Prop := name = [dot] ∨ name = [dot, dot]

/-- `find_file` does not go down this name. -/
def Hidden (name : Str) : Prop := name.getD 0 0 = dot ∨ name.getD 1 0 = dot

instance (name : Str) : Decidable (Dots name) := inferInstanceAs (Decidable (_ ∨ _))
instance (name : Str) : Decidable (Hidden name) := inferInstanceAs (Decidable (_ ∨ _))

namespace Fs

variable (fs : Fs)

/-- The directory `d` has the entry `e`. -/
def Has (d : Nat) (e : Dirent) : Prop := e ∈ (fs.inode d).entries ∧ e.Live

/-- The directory `d'` is reached from `d` by going down the given names, all of which pass
`ok`. -/
def Steps (ok : Str → Prop) : Nat → List Str → Nat → Prop
  | d, [], d' => d = d'
  | d, n :: ns, d' => ∃ e, fs.Has d e ∧ e.label = n ∧ ok n ∧ fs.isDir e.inum ∧ Steps ok e.inum ns d'

/-- `d'` is a directory in the tree below `d`. -/
def Below : Nat → List Str → Nat → Prop := fs.Steps fun n => ¬Dots n

/-- `d'` is a directory that `find_file` visits from `d`. -/
def Visits : Nat → List Str → Nat → Prop := fs.Steps fun n => ¬Hidden n

/-- A non-directory with the name `file` is found at the end of `names`. -/
def HitBy (go : Nat → List Str → Nat → Prop) (d : Nat) (file : Str) (names : List Str) : Prop :=
  ∃ d' e, go d names d' ∧ fs.Has d' e ∧ e.label = file ∧ ¬fs.isDir e.inum

/-- What `read` delivers are proper directories, from `d` on: names of one byte or more, without
a slash and distinct, and the entries `.` and `..` are directories. -/
structure Tree (d : Nat) : Prop where
  isDir : fs.isDir d
  label_ne : ∀ ns d' e, fs.Below d ns d' → fs.Has d' e → e.label ≠ []
  slash_notMem : ∀ ns d' e, fs.Below d ns d' → fs.Has d' e → slash ∉ e.label
  dots : ∀ ns d' e, fs.Below d ns d' → fs.Has d' e → Dots e.label → fs.isDir e.inum
  distinct : ∀ ns d', fs.Below d ns d' →
    (((fs.inode d').entries.filter fun e => decide e.Live).map Dirent.label).Nodup

end Fs

/-- The messages are the paths of all non-directories named `file` below `path`, once each. -/
def Exact (fs : Fs) (path : Str) (d : Nat) (file : Str) (out : List Msg) : Prop :=
  out.Nodup ∧ ∀ m, m ∈ out ↔ ∃ ns, fs.HitBy fs.Below d file ns ∧ m = .found (pathOf path (ns ++ [file]))

/-- In every directory that is visited: all entries have paths that can be opened and names that
do not fill their field, and a directory that is passed over, other than `.` and `..`, has
no non-directory below it. -/
def Findable (fs : Fs) (path : Str) (d : Nat) : Prop :=
  ∀ ns d' e, fs.Visits d ns d' → fs.Has d' e →
    (pathOf path (ns ++ [e.label])).length < MAXPATH ∧ e.label.length < DIRSIZ ∧
    (fs.isDir e.inum → Hidden e.label → ¬Dots e.label → ∀ file ms, ¬fs.HitBy fs.Below e.inum file ms)

/-! ## The buffer -/

section Buffer

variable {q tail : Str} {e : Dirent}

/-- What the program takes for the name of `e`, with `tail` behind the field. -/
def spelled (tail : Str) (e : Dirent) : Str := cstr (e.name ++ tail)

theorem cstr_cons (b : UInt8) (s : Str) : cstr (b :: s) = if b = 0 then [] else b :: cstr s := by
  rw [cstr, List.takeWhile_cons]
  by_cases hb : b = 0 <;> simp [hb, cstr]

theorem zero_notMem_cstr (s : Str) : 0 ∉ cstr s := by
  induction s with
  | nil => exact List.not_mem_nil
  | cons b s ih =>
    rw [cstr_cons]
    split
    · exact List.not_mem_nil
    · next hb => simp [Ne.symm hb, ih]

theorem cstr_append (h : 0 ∉ q) (s : Str) : cstr (q ++ s) = q ++ cstr s := by
  induction q with
  | nil => rfl
  | cons b q ih =>
    have hb : b ≠ 0 := fun e => h (by simp [e])
    rw [List.cons_append, cstr_cons, if_neg hb, ih fun e => h (List.mem_cons_of_mem b e)]
    rfl

/-- A string fills its array, or a terminator ends it. -/
theorem cstr_cases (s : Str) : cstr s = s ∨ ∃ t, s = cstr s ++ 0 :: t := by
  induction s with
  | nil => exact .inl rfl
  | cons b s ih =>
    rw [cstr_cons]
    split
    · next hb => exact .inr ⟨s, by rw [hb]; rfl⟩
    · obtain h | ⟨t, ht⟩ := ih
      · exact .inl (by rw [h])
      · exact .inr ⟨t, congrArg (b :: ·) ht⟩

theorem zero_notMem_label (e : Dirent) : 0 ∉ e.label := zero_notMem_cstr _

/-- A name with a terminator, in its field or behind it, is read as it is. -/
theorem spelled_eq (h : e.label.length < DIRSIZ ∨ tail.headD 0 = 0) : spelled tail e = e.label := by
  have hlabel := zero_notMem_label e
  obtain hname | ⟨t, ht⟩ := cstr_cases e.name
  · have hlen : e.label.length = DIRSIZ := by rw [Dirent.label, hname, e.length_name]
    have htail : cstr tail = [] := by
      cases tail with
      | nil => rfl
      | cons b tail =>
        rw [cstr_cons, if_pos]
        exact h.resolve_left (by omega)
    rw [spelled, ← hname]
    exact (cstr_append hlabel tail).trans (by rw [htail, List.append_nil])
  · rw [spelled, ht, List.append_assoc]
    exact (cstr_append hlabel _).trans (List.append_nil _)

/-- What the loop does with one entry, in terms of the strings. -/
def entry (fs : Fs) (file : Str) (rec : Str → Option (List Msg)) (q tail : Str) (e : Dirent) :
    Option (List Msg) :=
  let s := spelled tail e
  match fs.opens (q ++ slash :: s) with
  | none => some [.cannotStat (q ++ slash :: s)]
  | some i =>
    if fs.isDir i then if Hidden e.name then some [] else rec (q ++ slash :: s)
    else if s = file then some [.found (q ++ slash :: s)]
    else some []

end Buffer

end Xv6.Find
