/-
# User.Shell -- the shell's parser

`sh.c`, from `gettoken` to `nulterminate`.  A pointer into the command string is its index.
The parsing functions see the string only through `gettoken` and `peek`, so they are written
over any `Stream` that has those two; `chars` is the stream of the source, which reads the
characters of a buffer.

A pair of pointers `q`, `eq` is a word.  `execcmd` is filled in while redirections are
already nested around it: `addArg` reaches the `execcmd` inside them.  Loops and recursion
have fuel; `loops` stands for a parse that does not end.
-/
import Mathlib.Tactic.Common

namespace Xv6Rpi.User.Shell

set_option autoImplicit false

abbrev NUL : Char := '\x00'

/-- `whitespace`: blank, tab, return, newline, vertical tab -/
def whitespace : List Char := [' ', '\t', '\r', '\n', '\x0b']

/-- `symbols` -/
def symbols : List Char := ['<', '|', '>', '&', ';', '(', ')']

/-- `MAXARGS` -/
abbrev MAXARGS : Nat := 10

/-- `O_RDONLY` -/
abbrev ORDONLY : Nat := 0
/-- `O_WRONLY` -/
abbrev OWRONLY : Nat := 1
/-- `O_CREATE` -/
abbrev OCREATE : Nat := 512

/-- `struct cmd` and the structs it stands for, over a type of words. -/
inductive Cmd (W : Type) where
  | exec (argv : List W)
  | redir (cmd : Cmd W) (file : W) (mode fd : Nat)
  | pipe (left right : Cmd W)
  | list (left right : Cmd W)
  | back (cmd : Cmd W)
  deriving DecidableEq, Repr

/-- How a parse ends without a tree: a panic, the panic of `parsecmd` about leftovers, which it
prints, or not at all. -/
inductive Stop where
  | panic (msg : String)
  | leftovers (s : Nat)
  | loops
  deriving DecidableEq, Repr

abbrev Parse (α : Type) := Except Stop α

/-- Store one more argument into the `execcmd`. -/
def Cmd.addArg {W : Type} (w : W) : Cmd W → Cmd W
  | .exec argv => .exec (argv ++ [w])
  | .redir cmd file mode fd => .redir (cmd.addArg w) file mode fd
  | cmd => cmd

/-! ## Characters -/

/-- `*s` -/
def charAt (buf : List Char) (s : Nat) : Char := buf.getD s NUL

/-- `while(s < es && test(*s)) s++`, with fuel. -/
def advance (test : Char → Bool) (buf : List Char) (es : Nat) : Nat → Nat → Nat
  | 0, s => s
  | fuel + 1, s =>
    if s < es ∧ test (charAt buf s) = true then advance test buf es fuel (s + 1) else s

/-- Skip white space. -/
def skip (buf : List Char) (es s : Nat) : Nat := advance (fun c => c ∈ whitespace) buf es es s

/-- The characters of a word. -/
def isWordChar (c : Char) : Bool := c ∉ whitespace && c ∉ symbols

/-- `gettoken`: what it returns, the values of `q` and `eq`, and the new position. -/
def gettoken (buf : List Char) (es s : Nat) : (Char × (Nat × Nat)) × Nat :=
  let q := skip buf es s
  let c := charAt buf q
  let (ret, eq) :=
    if c = NUL then (c, q)
    else if c ∈ ['|', '(', ')', ';', '&', '<'] then (c, q + 1)
    else if c = '>' then
      if charAt buf (q + 1) = '>' then ('+', q + 2) else (c, q + 1)
    else ('a', advance isWordChar buf es es q)
  ((ret, (q, eq)), skip buf es eq)

/-- `peek` -/
def peek (buf : List Char) (es s : Nat) (toks : List Char) : Bool × Nat :=
  let s := skip buf es s
  (charAt buf s ≠ NUL ∧ charAt buf s ∈ toks, s)

/-! ## The parser -/

/-- Where the parser gets its tokens from. -/
structure Stream (σ W : Type) where
  peek : σ → List Char → Bool × σ
  gettoken : σ → (Char × W) × σ

/-- The characters of a buffer, up to `es`. -/
def chars (buf : List Char) (es : Nat) : Stream Nat (Nat × Nat) where
  peek := peek buf es
  gettoken := gettoken buf es

section Parser

variable {σ W : Type} (S : Stream σ W)

/-- The `switch` of `parseredirs`. -/
def redircmd (cmd : Cmd W) (tok : Char) (file : W) : Cmd W :=
  if tok = '<' then .redir cmd file ORDONLY 0
  else if tok = '>' then .redir cmd file (OWRONLY ||| OCREATE) 1
  else if tok = '+' then .redir cmd file (OWRONLY ||| OCREATE) 1
  else cmd

/-- `parseredirs` -/
def parseredirs : Nat → Cmd W → σ → Parse (Cmd W × σ)
  | 0, _, _ => .error .loops
  | fuel + 1, cmd, ps =>
    match S.peek ps ['<', '>'] with
    | (false, ps) => .ok (cmd, ps)
    | (true, ps) =>
      match S.gettoken ps with
      | ((tok, _), ps) =>
        match S.gettoken ps with
        | ((kind, file), ps) =>
          if kind = 'a' then parseredirs fuel (redircmd cmd tok file) ps
          else .error (.panic "missing file for redirection")

/-- The loop of `parseexec`. -/
def args : Nat → Nat → Cmd W → σ → Parse (Cmd W × σ)
  | 0, _, _, _ => .error .loops
  | fuel + 1, argc, ret, ps =>
    match S.peek ps ['|', ')', '&', ';'] with
    | (true, ps) => .ok (ret, ps)
    | (false, ps) =>
      match S.gettoken ps with
      | ((tok, w), ps) =>
        if tok = NUL then .ok (ret, ps)
        else if tok = 'a' then
          if MAXARGS ≤ argc + 1 then .error (.panic "too many args")
          else (parseredirs S fuel (ret.addArg w) ps).bind fun r => args fuel (argc + 1) r.1 r.2
        else .error (.panic "syntax")

/-- The loop of `parseline`. -/
def backs : Nat → Cmd W → σ → Parse (Cmd W × σ)
  | 0, _, _ => .error .loops
  | fuel + 1, cmd, ps =>
    match S.peek ps ['&'] with
    | (false, ps) => .ok (cmd, ps)
    | (true, ps) => backs fuel (.back cmd) (S.gettoken ps).2

mutual

/-- `parseline` -/
def parseline : Nat → σ → Parse (Cmd W × σ)
  | 0, _ => .error .loops
  | fuel + 1, ps =>
    (parsepipe fuel ps).bind fun r =>
      (backs S fuel r.1 r.2).bind fun r =>
        match S.peek r.2 [';'] with
        | (false, ps) => .ok (r.1, ps)
        | (true, ps) =>
          (parseline fuel (S.gettoken ps).2).bind fun right => .ok (.list r.1 right.1, right.2)

/-- `parsepipe` -/
def parsepipe : Nat → σ → Parse (Cmd W × σ)
  | 0, _ => .error .loops
  | fuel + 1, ps =>
    (parseexec fuel ps).bind fun r =>
      match S.peek r.2 ['|'] with
      | (false, ps) => .ok (r.1, ps)
      | (true, ps) =>
        (parsepipe fuel (S.gettoken ps).2).bind fun right => .ok (.pipe r.1 right.1, right.2)

/-- `parseexec` -/
def parseexec : Nat → σ → Parse (Cmd W × σ)
  | 0, _ => .error .loops
  | fuel + 1, ps =>
    match S.peek ps ['('] with
    | (true, ps) => parseblock fuel ps
    | (false, ps) => (parseredirs S fuel (.exec []) ps).bind fun r => args S fuel 0 r.1 r.2

/-- `parseblock` -/
def parseblock : Nat → σ → Parse (Cmd W × σ)
  | 0, _ => .error .loops
  | fuel + 1, ps =>
    match S.peek ps ['('] with
    | (false, _) => .error (.panic "parseblock")
    | (true, ps) =>
      (parseline fuel (S.gettoken ps).2).bind fun r =>
        match S.peek r.2 [')'] with
        | (false, _) => .error (.panic "syntax - missing )")
        | (true, ps) => parseredirs S fuel r.1 (S.gettoken ps).2

end

end Parser

/-! ## parsecmd -/

/-- `nulterminate`: what it does to the buffer. -/
def nulterminate : Cmd (Nat × Nat) → List Char → List Char
  | .exec argv, buf => argv.foldl (fun buf w => buf.set w.2 NUL) buf
  | .redir cmd file _ _, buf => (nulterminate cmd buf).set file.2 NUL
  | .pipe left right, buf => nulterminate right (nulterminate left buf)
  | .list left right, buf => nulterminate right (nulterminate left buf)
  | .back cmd, buf => nulterminate cmd buf

/-- Fuel that suffices for a string of this length. -/
def enough (length : Nat) : Nat := 4 * length + 4

/-- `parsecmd`, on the string `s` with its NUL; the tree, and the buffer with the words
terminated. -/
def parsecmd (s : List Char) : Parse (Cmd (Nat × Nat) × List Char) :=
  let buf := s ++ [NUL]
  let es := s.length
  (parseline (chars buf es) (enough es) 0).bind fun r =>
    let rest := (peek buf es r.2 []).2
    if rest = es then .ok (r.1, nulterminate r.1 buf) else .error (.leftovers rest)

/-- The C string at `p`. -/
def cstring (buf : List Char) (p : Nat) : List Char := (buf.drop p).takeWhile fun c => c ≠ NUL

/-- A tree with the strings its pointers lead to. -/
def Cmd.strings (buf : List Char) : Cmd (Nat × Nat) → Cmd (List Char)
  | .exec argv => .exec (argv.map fun w => cstring buf w.1)
  | .redir cmd file mode fd => .redir (cmd.strings buf) (cstring buf file.1) mode fd
  | .pipe left right => .pipe (left.strings buf) (right.strings buf)
  | .list left right => .list (left.strings buf) (right.strings buf)
  | .back cmd => .back (cmd.strings buf)

end Xv6Rpi.User.Shell
