import Mathlib.Logic.Function.Basic

/-!
# The shell's parser, `user/sh.c`

A pointer into the command line is a position in a buffer `Nat → Char`; the terminating NUL is
at `es`. The parsing functions see the line only through `peek` and `gettoken`, and are
written over a `Lexer` so that they can also be run on a list of tokens. They take a bound on
the depth of the recursion or on the turns of a loop; running out of it is an error of its own.

`ret` in `parseexec` points to the redirections wrapped around an `execcmd` whose arguments are
still being filled in: the model collects both and builds the command at the end.
-/
namespace Xv6.Sh

set_option autoImplicit false

def NUL : Char := '\x00'

def whitespace : List Char := [' ', '\t', '\r', '\n', '\x0b']

def symbols : List Char := ['<', '|', '>', '&', ';', '(', ')']

def MAXARGS : Nat := 10

abbrev Buf := Nat → Char

/-- The text between two pointers. -/
abbrev Span := Nat × Nat

/-- `while(s < es && p(*s)) s++;`, in at most `n` turns. -/
def skip (p : Char → Bool) (buf : Buf) (es : Nat) : Nat → Nat → Nat
  | 0, s => s
  | n + 1, s => if s < es && p (buf s) then skip p buf es n (s + 1) else s

def blanks (buf : Buf) (es s : Nat) : Nat := skip whitespace.contains buf es (es - s) s

/-- The `switch` of `gettoken`: the kind of the token at `q` and where it ends. -/
def tokenAt (buf : Buf) (es q : Nat) : Char × Nat :=
  if buf q = NUL then (NUL, q)
  else if ['|', '(', ')', ';', '&', '<'].contains (buf q) then (buf q, q + 1)
  else if buf q = '>' then if buf (q + 1) = '>' then ('+', q + 2) else ('>', q + 1)
  else ('a', skip (fun c => !whitespace.contains c && !symbols.contains c) buf es (es - q) q)

/-- The kind of the token, where its text begins and ends, and the new position. -/
def gettoken (buf : Buf) (es s : Nat) : Char × Span × Nat :=
  let q := blanks buf es s
  let r := tokenAt buf es q
  (r.1, (q, r.2), blanks buf es r.2)

def peek (buf : Buf) (es s : Nat) (toks : List Char) : Bool × Nat :=
  let s := blanks buf es s
  (buf s ≠ NUL && toks.contains (buf s), s)

/-- How the parser reads: `κ` are the positions and `σ` the texts of tokens. -/
structure Lexer (κ σ : Type) where
  peek : κ → List Char → Bool × κ
  gettoken : κ → Char × σ × κ

/-- The command line as the parser reads it. -/
def lexer (buf : Buf) (es : Nat) : Lexer Nat Span where
  peek := peek buf es
  gettoken := gettoken buf es

inductive Cmd (σ : Type) where
  | exec (argv : List σ)
  | redir (cmd : Cmd σ) (file : σ) (mode fd : Nat)
  | pipe (left right : Cmd σ)
  | list (left right : Cmd σ)
  | back (cmd : Cmd σ)
  deriving DecidableEq, Repr

inductive Stop where
  | panic (msg : String)
  | fuel
  deriving DecidableEq, Repr

def O_RDONLY : Nat := 0x000
def O_WRONLY : Nat := 0x001
def O_CREATE : Nat := 0x200
def O_TRUNC : Nat := 0x400

structure Redir (σ : Type) where
  file : σ
  mode : Nat
  fd : Nat
  deriving DecidableEq, Repr

/-- The `switch(tok)` of `parseredirs`. -/
def redirs {σ : Type} (tok : Char) (file : σ) : List (Redir σ) :=
  if tok = '<' then [⟨file, O_RDONLY, 0⟩]
  else if tok = '>' then [⟨file, O_WRONLY ||| O_CREATE ||| O_TRUNC, 1⟩]
  else if tok = '+' then [⟨file, O_WRONLY ||| O_CREATE, 1⟩]
  else []

/-- Redirections around a command, the first one innermost. -/
def wrap {σ : Type} (cmd : Cmd σ) (rs : List (Redir σ)) : Cmd σ :=
  rs.foldl (fun c r => .redir c r.file r.mode r.fd) cmd

section Parser

variable {κ σ : Type} (L : Lexer κ σ)

def parseredirs : Nat → κ → List (Redir σ) → Except Stop (List (Redir σ) × κ)
  | 0, _, _ => .error .fuel
  | n + 1, s, rs =>
    match L.peek s ['<', '>'] with
    | (false, s) => .ok (rs, s)
    | (true, s) =>
      match L.gettoken s with
      | (tok, _, s) =>
        match L.gettoken s with
        | (a, file, s) =>
          if a ≠ 'a' then .error (.panic "missing file for redirection")
          else parseredirs n s (rs ++ redirs tok file)

/-- The loop of `parseexec`. -/
def parseargs : Nat → κ → List σ → List (Redir σ) → Except Stop (List σ × List (Redir σ) × κ)
  | 0, _, _, _ => .error .fuel
  | n + 1, s, argv, rs =>
    match L.peek s ['|', ')', '&', ';'] with
    | (true, s) => .ok (argv, rs, s)
    | (false, s) =>
      match L.gettoken s with
      | (tok, q, s) =>
        if tok = NUL then .ok (argv, rs, s)
        else if tok ≠ 'a' then .error (.panic "syntax")
        else if argv.length + 1 ≥ MAXARGS then .error (.panic "too many args")
        else
          match parseredirs L n s rs with
          | .error e => .error e
          | .ok (rs, s) => parseargs n s (argv ++ [q]) rs

/-- `while(peek(ps, es, "&"))` of `parseline`. -/
def parsebacks : Nat → κ → Cmd σ → Except Stop (Cmd σ × κ)
  | 0, _, _ => .error .fuel
  | n + 1, s, cmd =>
    match L.peek s ['&'] with
    | (false, s) => .ok (cmd, s)
    | (true, s) =>
      match L.gettoken s with
      | (_, _, s) => parsebacks n s (.back cmd)

mutual

def parseline : Nat → κ → Except Stop (Cmd σ × κ)
  | 0, _ => .error .fuel
  | n + 1, s =>
    match parsepipe n s with
    | .error e => .error e
    | .ok (cmd, s) =>
      match parsebacks L n s cmd with
      | .error e => .error e
      | .ok (cmd, s) =>
        match L.peek s [';'] with
        | (false, s) => .ok (cmd, s)
        | (true, s) =>
          match L.gettoken s with
          | (_, _, s) =>
            match parseline n s with
            | .error e => .error e
            | .ok (right, s) => .ok (.list cmd right, s)

def parsepipe : Nat → κ → Except Stop (Cmd σ × κ)
  | 0, _ => .error .fuel
  | n + 1, s =>
    match parseexec n s with
    | .error e => .error e
    | .ok (cmd, s) =>
      match L.peek s ['|'] with
      | (false, s) => .ok (cmd, s)
      | (true, s) =>
        match L.gettoken s with
        | (_, _, s) =>
          match parsepipe n s with
          | .error e => .error e
          | .ok (right, s) => .ok (.pipe cmd right, s)

def parseblock : Nat → κ → Except Stop (Cmd σ × κ)
  | 0, _ => .error .fuel
  | n + 1, s =>
    match L.peek s ['('] with
    | (false, _) => .error (.panic "parseblock")
    | (true, s) =>
      match L.gettoken s with
      | (_, _, s) =>
        match parseline n s with
        | .error e => .error e
        | .ok (cmd, s) =>
          match L.peek s [')'] with
          | (false, _) => .error (.panic "syntax - missing )")
          | (true, s) =>
            match L.gettoken s with
            | (_, _, s) =>
              match parseredirs L n s [] with
              | .error e => .error e
              | .ok (rs, s) => .ok (wrap cmd rs, s)

def parseexec : Nat → κ → Except Stop (Cmd σ × κ)
  | 0, _ => .error .fuel
  | n + 1, s =>
    match L.peek s ['('] with
    | (true, s) => parseblock n s
    | (false, s) =>
      match parseredirs L n s [] with
      | .error e => .error e
      | .ok (rs, s) =>
        match parseargs L n s [] rs with
        | .error e => .error e
        | .ok (argv, rs, s) => .ok (wrap (.exec argv) rs, s)

end

end Parser

/-- The counted strings of a command are terminated in the buffer. -/
def nulterminate : Cmd Span → Buf → Buf
  | .exec argv, buf => argv.foldl (fun buf q => Function.update buf q.2 NUL) buf
  | .redir cmd file _ _, buf => Function.update (nulterminate cmd buf) file.2 NUL
  | .pipe left right, buf => nulterminate right (nulterminate left buf)
  | .list left right, buf => nulterminate right (nulterminate left buf)
  | .back cmd, buf => nulterminate cmd buf

/-- The buffer of a command line: its characters and the terminating NUL. -/
def bufOf (line : List Char) : Buf := fun i => line.getD i NUL

/-- More than the depth of the recursion and the turns of the loops on a line. -/
def fuel (es : Nat) : Nat := 4 * es + 8

def parsecmd (line : List Char) : Except Stop (Cmd Span × Buf) :=
  let es := line.length
  let buf := bufOf line
  match parseline (lexer buf es) (fuel es) 0 with
  | .error e => .error e
  | .ok (cmd, s) =>
    match peek buf es s [] with
    | (_, s) => if s ≠ es then .error (.panic "syntax") else .ok (cmd, nulterminate cmd buf)

/-- The C string at a position, in at most `n` characters. -/
def cstring (buf : Buf) : Nat → Nat → List Char
  | 0, _ => []
  | n + 1, q => if buf q = NUL then [] else buf q :: cstring buf n (q + 1)

/-- The strings of a command. -/
def Cmd.map {σ τ : Type} (f : σ → τ) : Cmd σ → Cmd τ
  | .exec argv => .exec (argv.map f)
  | .redir cmd file mode fd => .redir (cmd.map f) (f file) mode fd
  | .pipe left right => .pipe (left.map f) (right.map f)
  | .list left right => .list (left.map f) (right.map f)
  | .back cmd => .back (cmd.map f)

/-- The command with its strings read from the buffer, where each begins. -/
def Cmd.read (buf : Buf) (es : Nat) (cmd : Cmd Span) : Cmd (List Char) :=
  cmd.map fun q => cstring buf (es - q.1) q.1

end Xv6.Sh
