import Mathlib

/-! # The parser of `sh.c`

A `char *` into the line is the text from there to the end of the line: `*s` is its first character,
NUL when nothing is left, and `es` is the empty text. `panic` ends the shell with its message; the
loops and the recursion take fuel, and `more` means that it ran out.
-/
namespace Xv6.Sh

abbrev Ptr := List Char

def NUL : Char := '\x00'

def whitespace : List Char := [' ','\t','\r','\n','\x0b']

def symbols : List Char := ['<','|','>','&',';','(',')']

def MAXARGS : ℕ := 10

def O_RDONLY : ℕ := 0

def O_WRONLY : ℕ := 1

def O_CREATE : ℕ := 0x200

def O_TRUNC : ℕ := 0x400

inductive Res (α : Type) where
  | done (a : α)
  | panic (msg : String)
  | more

namespace Res

def bind {α β : Type} : Res α → (α → Res β) → Res β
  | done a, f => f a
  | panic msg, _ => panic msg
  | more, _ => more

instance : Monad Res where
  pure := done
  bind := bind

end Res

inductive Cmd (α : Type) where
  | exec (argv : List α)
  | redir (cmd : Cmd α) (file : α) (mode fd : ℕ)
  | pipe (left right : Cmd α)
  | list (left right : Cmd α)
  | back (cmd : Cmd α)

abbrev Word := Ptr × Ptr

def deref (s : Ptr) : Char := s.headD NUL

def blank (c : Char) : Bool := whitespace.contains c

def wordChar (c : Char) : Bool := !whitespace.contains c && !symbols.contains c

/-- `while(s < es && strchr(whitespace, *s)) s++;` -/
def skip (s : Ptr) : Ptr := s.dropWhile blank

structure Tok where
  ret : Char
  q : Ptr
  eq : Ptr
  ps : Ptr

/-- The `switch` of `gettoken`: what it returns and where the token ends. -/
def lex (s : Ptr) : Char × Ptr :=
  let c := deref s
  if c = NUL then (c,s)
  else if c ∈ ['|','(',')',';','&','<'] then (c,s.tail)
  else if c = '>' then if deref s.tail = '>' then ('+',s.tail.tail) else (c,s.tail)
  else ('a',s.dropWhile wordChar)

def gettoken (ps : Ptr) : Tok :=
  let s := skip ps
  { ret := (lex s).1, q := s, eq := (lex s).2, ps := skip (lex s).2 }

def peek (ps : Ptr) (toks : List Char) : Bool × Ptr :=
  let s := skip ps
  (deref s != NUL && toks.contains (deref s),s)

def redircmd (tok : Char) (cmd : Cmd Word) (file : Word) : Cmd Word :=
  if tok = '<' then .redir cmd file O_RDONLY 0
  else if tok = '>' then .redir cmd file (O_WRONLY ||| O_CREATE ||| O_TRUNC) 1
  else if tok = '+' then .redir cmd file (O_WRONLY ||| O_CREATE) 1
  else cmd

def parseredirs : ℕ → Cmd Word → Ptr → Res (Cmd Word × Ptr)
  | 0, _, _ => .more
  | fuel + 1, cmd, ps =>
    let p := peek ps ['<','>']
    if p.1 then
      let tok := gettoken p.2
      let file := gettoken tok.ps
      if file.ret ≠ 'a' then .panic "missing file for redirection"
      else parseredirs fuel (redircmd tok.ret cmd (file.q,file.eq)) file.ps
    else .done (cmd,p.2)

/-- `cmd->argv[argc] = q` for the `execcmd` that `ret` is wrapped around -/
def Cmd.addArg {α : Type} (a : α) : Cmd α → Cmd α
  | .exec argv => .exec (argv ++ [a])
  | .redir cmd file mode fd => .redir (cmd.addArg a) file mode fd
  | cmd => cmd

def parseargs : ℕ → ℕ → Cmd Word → Ptr → Res (Cmd Word × Ptr)
  | 0, _, _, _ => .more
  | fuel + 1, argc, ret, ps =>
    let p := peek ps ['|',')','&',';']
    if p.1 then .done (ret,p.2)
    else
      let tok := gettoken p.2
      if tok.ret = NUL then .done (ret,tok.ps)
      else if tok.ret ≠ 'a' then .panic "syntax"
      else if argc + 1 ≥ MAXARGS then .panic "too many args"
      else do
        let (ret,ps) ← parseredirs fuel (ret.addArg (tok.q,tok.eq)) tok.ps
        parseargs fuel (argc + 1) ret ps

/-- `while(peek(ps, es, "&"))` of `parseline` -/
def parseback : ℕ → Cmd Word → Ptr → Res (Cmd Word × Ptr)
  | 0, _, _ => .more
  | fuel + 1, cmd, ps =>
    let p := peek ps ['&']
    if p.1 then parseback fuel (.back cmd) (gettoken p.2).ps else .done (cmd,p.2)

mutual

def parseline : ℕ → Ptr → Res (Cmd Word × Ptr)
  | 0, _ => .more
  | fuel + 1, ps => do
    let (cmd,ps) ← parsepipe fuel ps
    let (cmd,ps) ← parseback fuel cmd ps
    let p := peek ps [';']
    if p.1 then
      let (next,ps) ← parseline fuel (gettoken p.2).ps
      return (.list cmd next,ps)
    else return (cmd,p.2)

def parsepipe : ℕ → Ptr → Res (Cmd Word × Ptr)
  | 0, _ => .more
  | fuel + 1, ps => do
    let (cmd,ps) ← parseexec fuel ps
    let p := peek ps ['|']
    if p.1 then
      let (next,ps) ← parsepipe fuel (gettoken p.2).ps
      return (.pipe cmd next,ps)
    else return (cmd,p.2)

def parseexec : ℕ → Ptr → Res (Cmd Word × Ptr)
  | 0, _ => .more
  | fuel + 1, ps =>
    let p := peek ps ['(']
    if p.1 then parseblock fuel p.2
    else do
      let (ret,ps) ← parseredirs fuel (.exec []) p.2
      parseargs fuel 0 ret ps

def parseblock : ℕ → Ptr → Res (Cmd Word × Ptr)
  | 0, _ => .more
  | fuel + 1, ps =>
    let p := peek ps ['(']
    if !p.1 then .panic "parseblock"
    else do
      let (cmd,ps) ← parseline fuel (gettoken p.2).ps
      let p := peek ps [')']
      if !p.1 then .panic "syntax - missing )"
      else parseredirs fuel cmd (gettoken p.2).ps

end

/-- `*e = 0` in a buffer that starts with the line -/
def nulAt (line : Ptr) (buf : List Char) (e : Ptr) : List Char := buf.set (line.length - e.length) NUL

def nulterminate (line : Ptr) : Cmd Word → List Char → List Char
  | .exec argv, buf => argv.foldl (fun buf w => nulAt line buf w.2) buf
  | .redir cmd file _ _, buf => nulAt line (nulterminate line cmd buf) file.2
  | .pipe left right, buf => nulterminate line right (nulterminate line left buf)
  | .list left right, buf => nulterminate line right (nulterminate line left buf)
  | .back cmd, buf => nulterminate line cmd buf

def parsecmd (fuel : ℕ) (line : Ptr) : Res (Cmd Word × List Char) := do
  let (cmd,s) ← parseline fuel line
  if (peek s []).2 ≠ [] then .panic "syntax"
  else return (cmd,nulterminate line cmd (line ++ [NUL]))

end Xv6.Sh
