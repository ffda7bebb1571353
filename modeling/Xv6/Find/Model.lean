import Xv6.Lib.Lines

/-!
# `find_file` of `user/find.c`

The file system is given by its inodes; `open`, `fstat` and `stat` find an inode by its path and
succeed on every existing path shorter than `MAXPATH`, and `read` delivers the entries of a
directory in order. `junk path` is what the array `buf` of the call `find_file(path, file)`
holds before anything is stored in it.
-/
namespace Xv6.Find

set_option autoImplicit false

abbrev Str := List UInt8

def DIRSIZ : Nat := 14
def MAXPATH : Nat := 128
def ROOTINO : Nat := 1

/-- `sizeof buf`. -/
def BUFSIZE : Nat := 512

def slash : UInt8 := 0x2f
def dot : UInt8 := 0x2e

/-- The string at the start of these bytes. -/
def cstr (s : Str) : Str := s.takeWhile (· ≠ 0)

structure Dirent where
  inum : Nat
  name : Str
  length_name : name.length = DIRSIZ
  deriving DecidableEq

/-- The name of the entry, which has a terminator only if it is shorter than the field. -/
def Dirent.label (e : Dirent) : Str := cstr e.name

inductive FileType where
  | dir
  | file
  | device
  deriving DecidableEq

structure Inode where
  type : FileType
  entries : List Dirent

structure Fs where
  inode : Nat → Inode
  cwd : Nat

namespace Fs

variable (fs : Fs)

def isDir (i : Nat) : Bool := (fs.inode i).type = .dir

/-- The entry of the directory `i` with the given name. -/
def lookup (i : Nat) (name : Str) : Option Nat :=
  ((fs.inode i).entries.find? fun e => e.inum ≠ 0 ∧ e.label = name).map Dirent.inum

def walk : Nat → List Str → Option Nat
  | i, [] => some i
  | i, c :: cs => if fs.isDir i then (fs.lookup i c).bind fun j => walk j cs else none

/-- The elements of a path, as `skipelem` delivers them. -/
def components (path : Str) : List Str :=
  let r := Lib.Lines.split slash path
  ((r.1 ++ [r.2]).filter (· ≠ [])).map (·.take DIRSIZ)

/-- The inode that `open` finds. -/
def opens (path : Str) : Option Nat :=
  if path.length < MAXPATH then
    fs.walk (if path.head? = some slash then ROOTINO else fs.cwd) (components path)
  else none

end Fs

inductive Msg where
  | cannotOpen (path : Str)
  | tooLong
  | cannotStat (path : Str)
  | found (path : Str)
  deriving DecidableEq

/-- The bytes `s` are stored in `buf` from `p` on. -/
def put (buf : Str) (p : Nat) (s : Str) : Str := buf.take p ++ s ++ buf.drop (p + s.length)

/-- The loop of `find_file` over the entries; `rec` is the call of `find_file` itself. -/
def scan (fs : Fs) (file : Str) (rec : Str → Option (List Msg)) (p : Nat) :
    Str → List Dirent → Option (List Msg)
  | _, [] => some []
  | buf, de :: es =>
    if de.inum = 0 then scan fs file rec p buf es
    else
      let buf := put buf p de.name
      let here :=
        match fs.opens (cstr buf) with
        | none => some [Msg.cannotStat (cstr buf)]
        | some i =>
          if fs.isDir i then
            if buf.getD p 0 ≠ dot ∧ buf.getD (p + 1) 0 ≠ dot then rec (cstr buf) else some []
          else if cstr (buf.drop p) = file then some [.found (cstr buf)]
          else some []
      here.bind fun a => (scan fs file rec p buf es).map (a ++ ·)

/-- `find_file(path, file)`: what it prints, if it needs at most `n` calls nested into each
other. -/
def find_file (fs : Fs) (junk : Str → Str) (file : Str) : Nat → Str → Option (List Msg)
  | 0, _ => none
  | n + 1, path =>
    match fs.opens path with
    | none => some [.cannotOpen path]
    | some i =>
      if fs.isDir i then
        let warn := if path.length + 1 + DIRSIZ + 1 > BUFSIZE then [Msg.tooLong] else []
        let buf := put (junk path) 0 (path ++ [0])
        let p := (cstr buf).length
        let buf := put buf p [slash]
        (scan fs file (find_file fs junk file n) (p + 1) buf (fs.inode i).entries).map (warn ++ ·)
      else some []

end Xv6.Find
