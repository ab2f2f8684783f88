import Xv6.Fs.Path

/-!
Contract: the command parser of the shell (`user/sh.c`).

Owns: `gettoken`, `peek`, the parse functions, the trees they build, and `nulterminate`.

Does not own: the memory of the nodes, which `malloc` is taken to have, and running a command. A
pointer into the line is an offset, `*ps` is passed and returned. The loops and the recursion count
down from a bound, and have no outcome when it is used up.
-/

namespace Xv6.Shell

open Xv6.Format

/-- The calls of `panic` in the parser. -/
inductive Panic where
  /-- "syntax" of `parsecmd`, after "leftovers: %s\n" -/
  | leftovers
  /-- "missing file for redirection" -/
  | missingFile
  /-- "parseblock" -/
  | parseblock
  /-- "syntax - missing )" -/
  | missingParen
  /-- "syntax" of `parseexec` -/
  | syntaxError
  /-- "too many args" -/
  | tooManyArgs
deriving DecidableEq, Repr

inductive Outcome (α : Type) where
  | ok (result : α)
  | panic (reason : Panic)
  /-- The bound is used up. -/
  | timeout
deriving DecidableEq

def Outcome.bind {α β : Type} : Outcome α → (α → Outcome β) → Outcome β
  | .ok result, next => next result
  | .panic reason, _ => .panic reason
  | .timeout, _ => .timeout

instance : Monad Outcome where
  pure := .ok
  bind := Outcome.bind

/-! ## Commands -/

def O_RDONLY : Nat := 0x000
def O_WRONLY : Nat := 0x001
def O_CREATE : Nat := 0x200
def O_TRUNC : Nat := 0x400

def MAXARGS : Nat := 10

/-- The fields of `struct redircmd` other than its command. -/
structure Redir (W : Type) where
  file : W
  mode : Nat
  fd : Nat
deriving DecidableEq

/-- `struct cmd`, with its words. -/
inductive Cmd (W : Type) where
  | exec (argv : List W)
  | redir (cmd : Cmd W) (file : Redir W)
  | pipe (left right : Cmd W)
  | list (left right : Cmd W)
  | back (cmd : Cmd W)
deriving DecidableEq

def Redir.map {W V : Type} (f : W → V) (redir : Redir W) : Redir V :=
  { redir with file := f redir.file }

def Cmd.map {W V : Type} (f : W → V) : Cmd W → Cmd V
  | .exec argv => .exec (argv.map f)
  | .redir cmd file => .redir (cmd.map f) (file.map f)
  | .pipe left right => .pipe (left.map f) (right.map f)
  | .list left right => .list (left.map f) (right.map f)
  | .back cmd => .back (cmd.map f)

/-- `char *q, *eq`: a word of the line. -/
structure Word where
  q : Nat
  eq : Nat
deriving DecidableEq

/-! ## Tokens -/

def chr (c : Char) : Byte := BitVec.ofNat 8 c.toNat

def whitespace : List Byte := [chr ' ', chr '\t', chr '\r', chr '\n', 0x0b]

def symbols : List Byte :=
  [chr '<', chr '|', chr '>', chr '&', chr ';', chr '(', chr ')']

inductive Symbol where
  | bar | lparen | rparen | semi | amp | less | greater
  /-- ">>" -/
  | append
deriving DecidableEq

/-- What `gettoken` returns: 0, the symbol with '+' for ">>", or 'a'. -/
inductive Tok where
  | zero
  | symbol (x : Symbol)
  | a
deriving DecidableEq

/-- The cases of the switch with one character. -/
def Symbol.ofByte (c : Byte) : Option Symbol :=
  if c = chr '|' then some .bar
  else if c = chr '(' then some .lparen
  else if c = chr ')' then some .rparen
  else if c = chr ';' then some .semi
  else if c = chr '&' then some .amp
  else if c = chr '<' then some .less
  else none

/-- `while(s < es && …) s++` -/
def skip (p : Byte → Bool) (line : List Byte) (s : Nat) : Nat :=
  s + ((line.drop s).takeWhile p).length

def isBlank (c : Byte) : Bool := whitespace.contains c

def isWordByte (c : Byte) : Bool := !whitespace.contains c && !symbols.contains c

/-- The token at `s`, its word, and `*ps` after it. -/
def gettoken (line : List Byte) (s : Nat) : Tok × Word × Nat :=
  let s := skip isBlank line s
  let q := s
  let c := line.getD s 0
  let (ret, s) :=
    if c = 0 then (Tok.zero, s)
    else if c = chr '>' then
      if line.getD (s + 1) 0 = chr '>' then (.symbol .append, s + 2)
      else (.symbol .greater, s + 1)
    else
      match Symbol.ofByte c with
      | some x => (.symbol x, s + 1)
      | none => (.a, skip isWordByte line s)
  (ret, ⟨q, s⟩, skip isBlank line s)

/-- Whether the next token starts with one of these, and `*ps` after the blanks. -/
def peek (line : List Byte) (s : Nat) (toks : List Byte) : Bool × Nat :=
  let s := skip isBlank line s
  let c := line.getD s 0
  (c != 0 && toks.contains c, s)

/-! ## Parsing -/

section Parse

variable (line : List Byte)

/-- The redirection that a symbol stands for. The other symbols do not get here. -/
def redircmd (tok : Tok) (file : Word) : List (Redir Word) :=
  match tok with
  | .symbol .less => [⟨file, O_RDONLY, 0⟩]
  | .symbol .greater => [⟨file, O_WRONLY ||| O_CREATE ||| O_TRUNC, 1⟩]
  | .symbol .append => [⟨file, O_WRONLY ||| O_CREATE, 1⟩]
  | _ => []

/-- `parseredirs(cmd, ps, es)`: the redirections around `cmd`, the outermost last. -/
def parseredirs : Nat → List (Redir Word) → Nat → Outcome (List (Redir Word) × Nat)
  | 0, _, _ => .timeout
  | fuel + 1, redirs, s =>
      let (found, s) := peek line s [chr '<', chr '>']
      if found then
        let (tok, _, s) := gettoken line s
        let (tok', file, s) := gettoken line s
        if tok' ≠ .a then .panic .missingFile
        else parseredirs fuel (redirs ++ redircmd tok file) s
      else
        .ok (redirs, s)

/-- The loop of `parseexec`: `argv` is in the command, `redirs` are around it. -/
def parseargs : Nat → List Word → List (Redir Word) → Nat →
    Outcome ((List Word × List (Redir Word)) × Nat)
  | 0, _, _, _ => .timeout
  | fuel + 1, argv, redirs, s =>
      let (found, s) := peek line s [chr '|', chr ')', chr '&', chr ';']
      if found then .ok ((argv, redirs), s)
      else
        let (tok, word, s) := gettoken line s
        match tok with
        | .zero => .ok ((argv, redirs), s)
        | .symbol _ => .panic .syntaxError
        | .a =>
            let argv := argv ++ [word]
            if argv.length ≥ MAXARGS then .panic .tooManyArgs
            else do
              let (redirs, s) ← parseredirs line fuel redirs s
              parseargs fuel argv redirs s

/-- `while(peek(ps, es, "&"))` of `parseline` -/
def parsebacks : Nat → Cmd Word → Nat → Outcome (Cmd Word × Nat)
  | 0, _, _ => .timeout
  | fuel + 1, cmd, s =>
      let (found, s) := peek line s [chr '&']
      if found then parsebacks fuel (.back cmd) (gettoken line s).2.2
      else .ok (cmd, s)

mutual

def parseline : Nat → Nat → Outcome (Cmd Word × Nat)
  | 0, _ => .timeout
  | fuel + 1, s => do
      let (cmd, s) ← parsepipe fuel s
      let (cmd, s) ← parsebacks line fuel cmd s
      let (found, s) := peek line s [chr ';']
      if found then
        let (right, s) ← parseline fuel (gettoken line s).2.2
        pure (.list cmd right, s)
      else
        pure (cmd, s)
termination_by structural fuel => fuel

def parsepipe : Nat → Nat → Outcome (Cmd Word × Nat)
  | 0, _ => .timeout
  | fuel + 1, s => do
      let (cmd, s) ← parseexec fuel s
      let (found, s) := peek line s [chr '|']
      if found then
        let (right, s) ← parsepipe fuel (gettoken line s).2.2
        pure (.pipe cmd right, s)
      else
        pure (cmd, s)

def parseexec : Nat → Nat → Outcome (Cmd Word × Nat)
  | 0, _ => .timeout
  | fuel + 1, s =>
      let (found, s) := peek line s [chr '(']
      if found then parseblock fuel s
      else do
        let (redirs, s) ← parseredirs line fuel [] s
        let ((argv, redirs), s) ← parseargs line fuel [] redirs s
        pure (redirs.foldl .redir (.exec argv), s)

def parseblock : Nat → Nat → Outcome (Cmd Word × Nat)
  | 0, _ => .timeout
  | fuel + 1, s =>
      let (found, s) := peek line s [chr '(']
      if found then do
        let (cmd, s) ← parseline fuel (gettoken line s).2.2
        let (found, s) := peek line s [chr ')']
        if found then
          let (redirs, s) ← parseredirs line fuel [] (gettoken line s).2.2
          pure (redirs.foldl .redir cmd, s)
        else
          .panic .missingParen
      else
        .panic .parseblock

end

end Parse

def nulterminate : Cmd Word → Bytes → Bytes
  | .exec argv, buffer => argv.foldl (fun buffer word => Function.update buffer word.eq 0) buffer
  | .redir cmd redir, buffer => Function.update (nulterminate cmd buffer) redir.file.eq 0
  | .pipe left right, buffer | .list left right, buffer =>
      nulterminate right (nulterminate left buffer)
  | .back cmd, buffer => nulterminate cmd buffer

/-- The tree, and the buffer with the NULs behind its words. -/
def parsecmd (fuel : Nat) (line : List Byte) : Outcome (Cmd Word × Bytes) := do
  let (cmd, s) ← parseline line fuel 0
  let (_, s) := peek line s []
  if s ≠ line.length then .panic .leftovers
  else pure (cmd, nulterminate cmd fun i => line.getD i 0)

/-- The string that a pointer of the tree points to. -/
def Word.read (line : List Byte) (buffer : Bytes) (word : Word) : List Byte :=
  Fs.cstring (fun i => buffer (word.q + i)) line.length

end Xv6.Shell
