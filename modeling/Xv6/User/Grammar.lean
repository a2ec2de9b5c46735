import Xv6.User.Sh

/-! # The grammar of the shell

    line ::= pipe '&'* [';' line]
    pipe ::= exec ['|' pipe]
    exec ::= '(' line ')' redir* | redir* (word redir*)*
    redir ::= ('<' | '>' | '>>') word

The derivations are data: each has the tokens that it derives and the tree that belongs to it.
-/
namespace Xv6.Sh

inductive Token where
  | word (w : List Char)
  | lt
  | gt
  | gtgt
  | bar
  | amp
  | semi
  | lparen
  | rparen
  deriving DecidableEq

/-- The symbol that the character stands for, when it is not `>`. -/
def symbol (c : Char) : Token :=
  if c = '<' then .lt else if c = '|' then .bar else if c = '&' then .amp else if c = ';' then .semi
  else if c = '(' then .lparen else .rparen

theorem length_dropWhile_le {α : Type} (p : α → Bool) (l : List α) : (l.dropWhile p).length ≤ l.length :=
  (List.dropWhile_sublist p).length_le

def tokens : List Char → List Token
  | [] => []
  | c :: s =>
    if blank c then tokens s
    else if wordChar c then .word (c :: s.takeWhile wordChar) :: tokens (s.dropWhile wordChar)
    else if c = '>' then if s.head? = some '>' then .gtgt :: tokens s.tail else .gt :: tokens s
    else symbol c :: tokens s
termination_by s => s.length
decreasing_by
  all_goals
    have := length_dropWhile_le wordChar s
    simp
    try omega

inductive Op where
  | read
  | write
  | append

def Op.token : Op → Token
  | read => .lt
  | write => .gt
  | append => .gtgt

def Op.mode : Op → ℕ
  | read => O_RDONLY
  | write => O_WRONLY ||| O_CREATE ||| O_TRUNC
  | append => O_WRONLY ||| O_CREATE

def Op.fd : Op → ℕ
  | read => 0
  | write => 1
  | append => 1

structure Redir where
  op : Op
  file : List Char

abbrev Tree := Cmd (List Char)

def Redir.tokens (r : Redir) : List Token := [r.op.token,.word r.file]

def Redir.wrap (t : Tree) (r : Redir) : Tree := .redir t r.file r.op.mode r.op.fd

mutual

inductive Line where
  | last (p : Pipe) (amps : ℕ)
  | seq (p : Pipe) (amps : ℕ) (l : Line)

inductive Pipe where
  | last (e : Exec)
  | seq (e : Exec) (p : Pipe)

inductive Exec where
  | block (l : Line) (rs : List Redir)
  | simple (rs : List Redir) (args : List (List Char × List Redir)) (h : args.length ≤ MAXARGS - 1)

end

def Cmd.backs {α : Type} (n : ℕ) (t : Cmd α) : Cmd α := Cmd.back^[n] t

def redirTokens (rs : List Redir) : List Token := rs.flatMap Redir.tokens

def argTokens (args : List (List Char × List Redir)) : List Token := args.flatMap fun a => .word a.1 :: redirTokens a.2

mutual

def Line.tokens : Line → List Token
  | .last p n => p.tokens ++ List.replicate n .amp
  | .seq p n l => p.tokens ++ List.replicate n .amp ++ .semi :: l.tokens

def Pipe.tokens : Pipe → List Token
  | .last e => e.tokens
  | .seq e p => e.tokens ++ .bar :: p.tokens

def Exec.tokens : Exec → List Token
  | .block l rs => .lparen :: l.tokens ++ .rparen :: redirTokens rs
  | .simple rs args _ => redirTokens rs ++ argTokens args

end

mutual

def Line.tree : Line → Tree
  | .last p n => p.tree.backs n
  | .seq p n l => .list (p.tree.backs n) l.tree

def Pipe.tree : Pipe → Tree
  | .last e => e.tree
  | .seq e p => .pipe e.tree p.tree

def Exec.tree : Exec → Tree
  | .block l rs => rs.foldl Redir.wrap l.tree
  | .simple rs args _ => (rs ++ args.flatMap Prod.snd).foldl Redir.wrap (.exec (args.map Prod.fst))

end

end Xv6.Sh
