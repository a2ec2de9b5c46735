import Xv6.Disk.Format
import Xv6.Library.Moves
import Xv6.User.Grammar

/-! # `runcmd` of `sh.c`

The shell runs a command tree with `fork`, `exec`, `pipe`, `dup`, `open`, `close` and `wait`. `runcmd` is a program over
these calls, and any number of processes run such programs side by side. A node of the tree is named by the way to it
from the root, and a pipe by the node at which it was made.
-/
namespace Xv6.Sh
open Library
open Function (update)

abbrev Node := List Bool

inductive Obj
  | given (fd : ℕ)
  | file (name : List Char) (mode : ℕ)
  | rd (pipe : Node)
  | wr (pipe : Node)

abbrev Fds := ℕ → Option Obj

def lowest (t : Fds) : Option ℕ := (List.range NOFILE).find? fun fd => (t fd).isNone

/-- The nodes are not arguments of the calls. They say where in the tree the call is made, and `sysFork` which of the
two children the new process runs. -/
inductive Sys
  | sysClose (fd : ℕ)
  | sysOpen (file : List Char) (mode : ℕ)
  | sysDup (fd : ℕ)
  | sysPipe (node : Node)
  | sysFork (node : Node) (right : Bool)
  | sysWait
  | sysExec (node : Node) (argv : List (List Char))
  | sysExit (status : ℕ)
  | fprintf (text : String)

/-- `none` is -1. `fork` returns whether this is the child; `exec` returns only if it fails. -/
def Sys.Res : Sys → Type
  | .sysClose _ | .sysWait | .sysExec _ _ | .fprintf _ => Unit
  | .sysOpen _ _ | .sysDup _ => Option ℕ
  | .sysPipe _ => Option (ℕ × ℕ)
  | .sysFork _ _ => Option Bool
  | .sysExit _ => Empty

abbrev ShCode := Prog Sys Sys.Res

def close (fd : ℕ) : ShCode Unit := Prog.call (Sys.sysClose fd)

def openFile (file : List Char) (mode : ℕ) : ShCode (Option ℕ) := Prog.call (Sys.sysOpen file mode)

def dup (fd : ℕ) : ShCode (Option ℕ) := Prog.call (Sys.sysDup fd)

def pipe (node : Node) : ShCode (Option (ℕ × ℕ)) := Prog.call (Sys.sysPipe node)

def fork (node : Node) (right : Bool) : ShCode (Option Bool) := Prog.call (Sys.sysFork node right)

def wait : ShCode Unit := Prog.call Sys.sysWait

def exec (node : Node) (argv : List (List Char)) : ShCode Unit := Prog.call (Sys.sysExec node argv)

def exit (status : ℕ) : ShCode Empty := Prog.call (Sys.sysExit status)

def fprintf (text : String) : ShCode Unit := Prog.call (Sys.fprintf text)

def panic (s : String) : ShCode Empty := do
  fprintf (s ++ "\n")
  exit 1

def fork1 (node : Node) (right : Bool) : ShCode Bool := do
  match ← fork node right with
  | none => return (← panic "fork").elim
  | some child => return child

def runcmd : Tree → Node → ShCode Empty
  | .exec [], _ => exit 1
  | .exec (a :: argv), node => do
    exec node (a :: argv)
    fprintf ("exec " ++ String.ofList a ++ " failed\n")
    exit 0
  | .redir cmd file mode fd, node => do
    close fd
    match ← openFile file mode with
    | none => do
      fprintf ("open " ++ String.ofList file ++ " failed\n")
      exit 1
    | some _ => runcmd cmd (false :: node)
  | .list left right, node => do
    if ← fork1 node false then runcmd left (false :: node)
    else do
      wait
      runcmd right (true :: node)
  | .pipe left right, node => do
    match ← pipe node with
    | none => panic "pipe"
    | some p => do
      if ← fork1 node false then do
        close 1
        let _ ← dup p.2
        close p.1
        close p.2
        runcmd left (false :: node)
      else if ← fork1 node true then do
        close 0
        let _ ← dup p.1
        close p.1
        close p.2
        runcmd right (true :: node)
      else do
        close p.1
        close p.2
        wait
        wait
        exit 0
  | .back cmd, node => do
    if ← fork1 node false then runcmd cmd (false :: node)
    else exit 0

/-! ## One process -/

def subtree (node : Node) : Set Node := {n | node <:+ n}

theorem subtree_cons (b : Bool) (node : Node) : subtree (b :: node) ⊆ subtree node := fun _ h =>
  (List.suffix_cons b node).trans h

theorem subtree_disjoint {b c : Bool} (node : Node) (hbc : b ≠ c) : Disjoint (subtree (b :: node)) (subtree (c :: node)) := by
  refine Set.disjoint_left.mpr fun n hb hc => hbc ?_
  have h : b :: node <:+ c :: node := List.suffix_of_suffix_length_le hb hc (by simp)
  exact (List.cons.inj (h.eq_of_length (by simp))).1

theorem self_notMem_subtree (b : Bool) (node : Node) : node ∉ subtree (b :: node) := fun h => by
  have := List.IsSuffix.length_le h
  simp at this

structure Process where
  fds : Fds
  kids : Finset ℕ
  /-- The nodes that are this process's to run. No call reads it. -/
  own : Set Node

/-- What a call returns and does to its process; with `fail` the calls that allocate something, and `exec`, may fail. -/
def Sys.step (fail : Prop) : (o : Sys) → Process → o.Res → Process → Prop
  | .sysClose fd, s, _, t => t = { s with fds := update s.fds fd none }
  | .sysOpen file mode, s, r, t => ((fail ∨ lowest s.fds = none) ∧ r = none ∧ t = s) ∨
      ∃ n, lowest s.fds = some n ∧ r = some n ∧ t = { s with fds := update s.fds n (some (.file file mode)) }
  | .sysDup fd, s, r, t => ((s.fds fd = none ∨ lowest s.fds = none) ∧ r = none ∧ t = s) ∨
      ∃ x n, s.fds fd = some x ∧ lowest s.fds = some n ∧ r = some n ∧ t = { s with fds := update s.fds n (some x) }
  | .sysPipe node, s, r, t =>
      ((fail ∨ lowest s.fds = none ∨ ∃ a, lowest s.fds = some a ∧ lowest (update s.fds a (some (.rd node))) = none) ∧
        r = none ∧ t = s) ∨
      ∃ a b, lowest s.fds = some a ∧ lowest (update s.fds a (some (.rd node))) = some b ∧ r = some (a,b) ∧
        t = { s with
          fds := update (update s.fds a (some (.rd node))) b (some (.wr node))
          own := s.own \ {node} }
  | .sysFork node right, s, r, t => (fail ∧ r = none ∧ t = s) ∨
      (r = some true ∧ t = { s with kids := ∅, own := subtree (right :: node) }) ∨
      ∃ c, c ∉ s.kids ∧ r = some false ∧ t = { s with kids := insert c s.kids, own := s.own \ subtree (right :: node) }
  | .sysWait, s, _, t => (s.kids = ∅ ∧ t = s) ∨ ∃ c ∈ s.kids, t = { s with kids := s.kids.erase c }
  | .sysExec _ _, s, _, t => fail ∧ t = s
  | .fprintf _, s, _, t => t = s
  | .sysExit _, _, _, _ => False

/-- The call finds what it needs: the descriptor it is given is open, a new one is free, there is a child to wait for. A
program is started when every child has been waited for. -/
def Sys.Proper : Sys → Process → Prop
  | .sysClose fd, s => s.fds fd ≠ none
  | .sysOpen _ _, s => lowest s.fds ≠ none
  | .sysDup fd, s => s.fds fd ≠ none ∧ lowest s.fds ≠ none
  | .sysPipe node, s => ∃ a, lowest s.fds = some a ∧ lowest (update s.fds a (some (.rd node))) ≠ none
  | .sysWait, s => s.kids.Nonempty
  | .sysExec _ _, s => s.kids = ∅
  | _, _ => True

/-- A process runs only nodes that are its own. A command is started with arguments and descriptors as in `T`, and
unless calls fail a process ends only when none of the nodes `L` is left to it. -/
def Sys.Owned (fail : Prop) (T : Node → List (List Char) → Fds → Prop) (L : Set Node) : Sys → Process → Prop
  | .sysPipe node, s => node ∈ s.own ∧ node ∉ L
  | .sysFork node right, s => subtree (right :: node) ⊆ s.own
  | .sysExec node argv, s => T node argv s.fds ∧ node ∈ s.own ∧ ∀ n ∈ L, n ∈ s.own → n = node
  | .sysExit _, s => ¬fail → ∀ n ∈ L, n ∉ s.own
  | _, _ => True

def moves (fail : Prop) (T : Node → List (List Char) → Fds → Prop) (L : Set Node) : Moves Sys Sys.Res Process where
  safe o s := o.Proper s ∧ o.Owned fail T L s
  step o := o.step fail

def std (i o e : Obj) : Fds
  | 0 => some i
  | 1 => some o
  | 2 => some e
  | _ => none

def piped (i o e : Obj) (node : Node) : Fds
  | 0 => some i
  | 1 => some o
  | 2 => some e
  | 3 => some (.rd node)
  | 4 => some (.wr node)
  | _ => none

/-- The commands in a tree that is run with standard input `i` and output `o`, each with its node, its own input and its
own output. Of several redirections the innermost counts. -/
inductive Leaf : Tree → Node → Obj → Obj → Node → List (List Char) → Obj → Obj → Prop
  | exec {a : List Char} {argv : List (List Char)} {node : Node} {i o : Obj} :
      Leaf (.exec (a :: argv)) node i o node (a :: argv) i o
  | redirIn {cmd : Tree} {file : List Char} {mode : ℕ} {node n : Node} {i o i' o' : Obj} {argv : List (List Char)} :
      Leaf cmd (false :: node) (.file file mode) o n argv i' o' → Leaf (.redir cmd file mode 0) node i o n argv i' o'
  | redirOut {cmd : Tree} {file : List Char} {mode : ℕ} {node n : Node} {i o i' o' : Obj} {argv : List (List Char)} :
      Leaf cmd (false :: node) i (.file file mode) n argv i' o' → Leaf (.redir cmd file mode 1) node i o n argv i' o'
  | listLeft {left right : Tree} {node n : Node} {i o i' o' : Obj} {argv : List (List Char)} :
      Leaf left (false :: node) i o n argv i' o' → Leaf (.list left right) node i o n argv i' o'
  | listRight {left right : Tree} {node n : Node} {i o i' o' : Obj} {argv : List (List Char)} :
      Leaf right (true :: node) i o n argv i' o' → Leaf (.list left right) node i o n argv i' o'
  | pipeLeft {left right : Tree} {node n : Node} {i o i' o' : Obj} {argv : List (List Char)} :
      Leaf left (false :: node) i (.wr node) n argv i' o' → Leaf (.pipe left right) node i o n argv i' o'
  | pipeRight {left right : Tree} {node n : Node} {i o i' o' : Obj} {argv : List (List Char)} :
      Leaf right (true :: node) (.rd node) o n argv i' o' → Leaf (.pipe left right) node i o n argv i' o'
  | back {cmd : Tree} {node n : Node} {i o i' o' : Obj} {argv : List (List Char)} :
      Leaf cmd (false :: node) i o n argv i' o' → Leaf (.back cmd) node i o n argv i' o'

def leaves : Tree → Node → Set Node
  | .exec [], _ => ∅
  | .exec (_ :: _), node => {node}
  | .redir cmd _ _ _, node | .back cmd, node => leaves cmd (false :: node)
  | .pipe left right, node | .list left right, node => leaves left (false :: node) ∪ leaves right (true :: node)

theorem leaves_subset (t : Tree) (node : Node) : leaves t node ⊆ subtree node := by
  induction t generalizing node with
  | exec argv =>
    cases argv with
    | nil => exact Set.empty_subset _
    | cons a argv => exact Set.singleton_subset_iff.mpr (List.suffix_refl node)
  | redir cmd file mode fd ih => exact (ih _).trans (subtree_cons _ _)
  | pipe left right ihl ihr =>
    exact Set.union_subset ((ihl _).trans (subtree_cons _ _)) ((ihr _).trans (subtree_cons _ _))
  | list left right ihl ihr =>
    exact Set.union_subset ((ihl _).trans (subtree_cons _ _)) ((ihr _).trans (subtree_cons _ _))
  | back cmd ih => exact (ih _).trans (subtree_cons _ _)

def Redirects : Tree → Prop
  | .exec _ => True
  | .redir cmd _ _ fd => (fd = 0 ∨ fd = 1) ∧ Redirects cmd
  | .pipe left right | .list left right => Redirects left ∧ Redirects right
  | .back cmd => Redirects cmd

section Process
variable {fail : Prop} {T : Node → List (List Char) → Fds → Prop} {L : Set Node} {s : Process} {α : Type}
  {Q : α → Process → Prop} {i o e : Obj} {node : Node}

theorem ensures_exit (status : ℕ) {Q : Empty → Process → Prop} (h : ¬fail → ∀ n ∈ L, n ∉ s.own) :
    (exit status).ensures (moves fail T L) Q s :=
  ⟨⟨trivial,h⟩,nofun⟩

theorem ensures_print_exit (text : String) (status : ℕ) {Q : Empty → Process → Prop} (h : fail) :
    ((fprintf text).bind fun _ => exit status).ensures (moves fail T L) Q s :=
  ⟨⟨trivial,trivial⟩,fun _ _ _ => ensures_exit status fun hf => absurd h hf⟩

theorem ensures_fork {right : Bool} {f : Bool → ShCode α} (hown : subtree (right :: node) ⊆ s.own)
    (hchild : (f true).ensures (moves fail T L) Q { s with kids := ∅, own := subtree (right :: node) })
    (hparent : ∀ c, c ∉ s.kids →
      (f false).ensures (moves fail T L) Q { s with kids := insert c s.kids, own := s.own \ subtree (right :: node) }) :
    ((fork1 node right).bind f).ensures (moves fail T L) Q s := by
  refine ⟨⟨trivial,hown⟩,fun r t ht => ?_⟩
  rcases ht with ⟨hfail,rfl,rfl⟩ | ⟨rfl,rfl⟩ | ⟨c,hc,rfl,rfl⟩
  · exact ⟨⟨trivial,trivial⟩,fun _ _ _ => ⟨⟨trivial,fun hf => absurd hfail hf⟩,nofun⟩⟩
  · exact hchild
  · exact hparent c hc

theorem ensures_close {fd : ℕ} {f : Unit → ShCode α} (hfd : s.fds fd ≠ none)
    (hf : (f ()).ensures (moves fail T L) Q { s with fds := update s.fds fd none }) :
    ((close fd).bind f).ensures (moves fail T L) Q s := by
  refine ⟨⟨hfd,trivial⟩,fun r t ht => ?_⟩
  obtain rfl : t = _ := ht
  exact hf

theorem ensures_dup {fd n : ℕ} {x : Obj} {f : Option ℕ → ShCode α} (hfd : s.fds fd = some x) (hn : lowest s.fds = some n)
    (hf : (f (some n)).ensures (moves fail T L) Q { s with fds := update s.fds n (some x) }) :
    ((dup fd).bind f).ensures (moves fail T L) Q s := by
  refine ⟨⟨⟨by simp [hfd],by simp [hn]⟩,trivial⟩,fun r t ht => ?_⟩
  rcases ht with ⟨h | h,-⟩ | ⟨y,m,hy,hm,rfl,rfl⟩
  · rw [hfd] at h
    cases h
  · rw [hn] at h
    cases h
  · obtain rfl : x = y := Option.some.inj (hfd.symm.trans hy)
    obtain rfl : n = m := Option.some.inj (hn.symm.trans hm)
    exact hf

theorem ensures_open {n : ℕ} {file : List Char} {mode : ℕ} {f : Option ℕ → ShCode α} (hn : lowest s.fds = some n)
    (hfail : fail → (f none).ensures (moves fail T L) Q s)
    (hf : (f (some n)).ensures (moves fail T L) Q { s with fds := update s.fds n (some (.file file mode)) }) :
    ((openFile file mode).bind f).ensures (moves fail T L) Q s := by
  refine ⟨⟨fun h => absurd (hn.symm.trans h) (by simp),trivial⟩,fun r t ht => ?_⟩
  rcases ht with ⟨h | h,rfl,rfl⟩ | ⟨m,hm,rfl,rfl⟩
  · exact hfail h
  · exact absurd (hn.symm.trans h) (by simp)
  · obtain rfl : n = m := Option.some.inj (hn.symm.trans hm)
    exact hf

theorem lowest_std : lowest (std i o e) = some 3 := rfl

theorem std_reopen_in (x : Obj) : update (update (std i o e) 0 none) 0 (some x) = std x o e := by
  funext fd
  rcases fd with _ | _ | _ | fd <;> rfl

theorem std_reopen_out (x : Obj) : update (update (std i o e) 1 none) 1 (some x) = std i x e := by
  funext fd
  rcases fd with _ | _ | _ | fd <;> rfl

theorem lowest_rd : lowest (update (std i o e) 3 (some (.rd node))) = some 4 := rfl

theorem std_pipe : update (update (std i o e) 3 (some (.rd node))) 4 (some (.wr node)) = piped i o e node := by
  funext fd
  rcases fd with _ | _ | _ | _ | _ | fd <;> rfl

theorem piped_close : update (update (piped i o e node) 3 none) 4 none = std i o e := by
  funext fd
  rcases fd with _ | _ | _ | _ | _ | fd <;> rfl

theorem piped_reopen_in (x : Obj) : update (update (piped i o e node) 0 none) 0 (some x) = piped x o e node := by
  funext fd
  rcases fd with _ | _ | _ | _ | _ | fd <;> rfl

theorem piped_reopen_out (x : Obj) : update (update (piped i o e node) 1 none) 1 (some x) = piped i x e node := by
  funext fd
  rcases fd with _ | _ | _ | _ | _ | fd <;> rfl

theorem ensures_pipe {f : Option (ℕ × ℕ) → ShCode α} (hs : s.fds = std i o e) (hown : node ∈ s.own) (hL : node ∉ L)
    (hfail : fail → (f none).ensures (moves fail T L) Q s)
    (hf : (f (some (3,4))).ensures (moves fail T L) Q { s with fds := piped i o e node, own := s.own \ {node} }) :
    ((pipe node).bind f).ensures (moves fail T L) Q s := by
  have h3 : lowest s.fds = some 3 := hs ▸ lowest_std
  have h4 : lowest (update s.fds 3 (some (.rd node))) = some 4 := hs ▸ lowest_rd
  refine ⟨⟨⟨3,h3,fun h => absurd (h4.symm.trans h) (by simp)⟩,hown,hL⟩,fun r t ht => ?_⟩
  rcases ht with ⟨h | h | ⟨a,ha,h⟩,rfl,rfl⟩ | ⟨a,b,ha,hb,rfl,rfl⟩
  · exact hfail h
  · exact absurd (h3.symm.trans h) (by simp)
  · obtain rfl : 3 = a := Option.some.inj (h3.symm.trans ha)
    exact absurd (h4.symm.trans h) (by simp)
  · obtain rfl : 3 = a := Option.some.inj (h3.symm.trans ha)
    obtain rfl : 4 = b := Option.some.inj (h4.symm.trans hb)
    rw [hs,std_pipe]
    exact hf

theorem ensures_wait {f : Unit → ShCode α} (hs : s.kids.Nonempty)
    (hf : ∀ c ∈ s.kids, (f ()).ensures (moves fail T L) Q { s with kids := s.kids.erase c }) :
    (wait.bind f).ensures (moves fail T L) Q s := by
  refine ⟨⟨hs,trivial⟩,fun r t ht => ?_⟩
  rcases ht with ⟨h,-⟩ | ⟨c,hc,rfl⟩
  · exact absurd h hs.ne_empty
  · exact hf c hc

/-- A process about to run the tree at `node`, with nothing else left to do. -/
structure Ready (L : Set Node) (t : Tree) (node : Node) (i o e : Obj) (s : Process) : Prop where
  fds : s.fds = std i o e
  kids : s.kids = ∅
  own : subtree node ⊆ s.own
  left : ∀ n ∈ L, n ∈ s.own → n ∈ leaves t node

theorem mem_leaves_left {left right : Tree} {n : Node} (h : n ∈ leaves left (false :: node) ∪ leaves right (true :: node))
    (hn : n ∉ subtree (true :: node)) : n ∈ leaves left (false :: node) :=
  h.resolve_right fun hr => hn (leaves_subset right _ hr)

theorem mem_leaves_right {left right : Tree} {n : Node} (h : n ∈ leaves left (false :: node) ∪ leaves right (true :: node))
    (hn : n ∉ subtree (false :: node)) : n ∈ leaves right (true :: node) :=
  h.resolve_left fun hl => hn (leaves_subset left _ hl)

theorem notMem_subtree {b c : Bool} {n : Node} (hbc : b ≠ c) (h : n ∈ subtree (b :: node)) : n ∉ subtree (c :: node) :=
  Set.disjoint_left.mp (subtree_disjoint node hbc) h

theorem leaves_apart {left right : Tree} {n : Node} (h : n ∈ leaves left (false :: node)) :
    n ∉ leaves right (true :: node) := fun hr =>
  notMem_subtree Bool.false_ne_true (leaves_subset left _ h) (leaves_subset right _ hr)

theorem runcmd_ensures {t : Tree} (ht : Redirects t) (hs : Ready L t node i o e s)
    (hT : ∀ n argv i' o', Leaf t node i o n argv i' o' → T n argv (std i' o' e)) :
    (runcmd t node).ensures (moves fail T L) (fun _ _ => True) s := by
  induction t generalizing node i o s with
  | exec argv =>
    cases argv with
    | nil => exact ensures_exit 1 fun _ n hn hown => hs.left n hn hown
    | cons a argv =>
      refine ⟨⟨hs.kids,?_,hs.own (List.suffix_refl node),hs.left⟩,fun _ t ht => ensures_print_exit _ _ ht.1⟩
      rw [hs.fds]
      exact hT _ _ _ _ .exec
  | redir cmd file mode fd ih =>
    obtain ⟨fds,kids,own⟩ := s
    obtain rfl : fds = _ := hs.fds
    -- the file takes the descriptor that was closed, since those below it are open
    obtain ⟨rfl | rfl,hcmd⟩ := ht
    · refine ensures_close (by simp [std]) (ensures_open rfl (ensures_print_exit _ _) ?_)
      refine ih hcmd ⟨std_reopen_in _,hs.kids,(subtree_cons _ _).trans hs.own,hs.left⟩ fun n argv i' o' h => ?_
      exact hT n argv i' o' (.redirIn h)
    · refine ensures_close (by simp [std]) (ensures_open rfl (ensures_print_exit _ _) ?_)
      refine ih hcmd ⟨std_reopen_out _,hs.kids,(subtree_cons _ _).trans hs.own,hs.left⟩ fun n argv i' o' h => ?_
      exact hT n argv i' o' (.redirOut h)
  | list left right ihl ihr =>
    obtain ⟨hl,hr⟩ := ht
    refine ensures_fork ((subtree_cons _ _).trans hs.own) ?_ fun c hc => ?_
    · refine ihl hl ⟨hs.fds,rfl,subset_rfl,fun n hn hown => ?_⟩ fun n argv i' o' h => hT n argv i' o' (.listLeft h)
      exact mem_leaves_left (hs.left n hn (hs.own (subtree_cons _ _ hown))) (notMem_subtree (by decide) hown)
    · refine ensures_wait (Finset.insert_nonempty c _) fun d hd => ?_
      refine ihr hr ⟨hs.fds,?_,?_,?_⟩ fun n argv i' o' h => hT n argv i' o' (.listRight h)
      · rw [hs.kids,insert_empty_eq,Finset.mem_singleton] at hd
        simp [hs.kids,hd]
      · exact fun n hn => ⟨hs.own (subtree_cons _ _ hn),notMem_subtree (by decide) hn⟩
      · exact fun n hn hown => mem_leaves_right (hs.left n hn hown.1) hown.2
  | pipe left right ihl ihr =>
    obtain ⟨hl,hr⟩ := ht
    obtain ⟨fds,kids,own⟩ := s
    obtain rfl : kids = _ := hs.kids
    have hown : node ∈ own := hs.own (List.suffix_refl node)
    have hnode : node ∉ L := fun h => (hs.left node h hown).elim
      (fun h => self_notMem_subtree _ _ (leaves_subset left _ h)) fun h => self_notMem_subtree _ _ (leaves_subset right _ h)
    refine ensures_pipe hs.fds hown hnode (ensures_print_exit _ _) ?_
    have hsub : ∀ b, subtree (b :: node) ⊆ own \ {node} := fun b n hn =>
      ⟨hs.own (subtree_cons _ _ hn),fun h => self_notMem_subtree b node (h ▸ hn)⟩
    refine ensures_fork (hsub false) ?_ fun c hc => ensures_fork ?_ ?_ fun d hd => ?_
    · refine ensures_close (by simp [piped]) (ensures_dup rfl rfl
        (ensures_close (by simp [piped]) (ensures_close (by simp [piped]) ?_)))
      rw [piped_reopen_out,piped_close]
      refine ihl hl ⟨rfl,rfl,subset_rfl,fun n hn hown => ?_⟩ fun n argv i' o' h => hT n argv i' o' (.pipeLeft h)
      exact mem_leaves_left (hs.left n hn (hs.own (subtree_cons _ _ hown))) (notMem_subtree (by decide) hown)
    · exact fun n hn => ⟨hsub true hn,notMem_subtree (by decide) hn⟩
    · refine ensures_close (by simp [piped]) (ensures_dup rfl rfl
        (ensures_close (by simp [piped]) (ensures_close (by simp [piped]) ?_)))
      rw [piped_reopen_in,piped_close]
      refine ihr hr ⟨rfl,rfl,subset_rfl,fun n hn hown => ?_⟩ fun n argv i' o' h => hT n argv i' o' (.pipeRight h)
      exact mem_leaves_right (hs.left n hn (hs.own (subtree_cons _ _ hown))) (notMem_subtree (by decide) hown)
    · refine ensures_close (by simp [piped]) (ensures_close (by simp [piped]) ?_)
      refine ensures_wait (Finset.insert_nonempty d _) fun c' hc' => ?_
      refine ensures_wait ?_ fun d' hd' => ?_
      · rw [← Finset.card_pos,Finset.card_erase_of_mem hc',Finset.card_insert_of_notMem hd]
        simp
      · refine ensures_exit 0 fun _ n hn hown => hown.2 ?_
        exact leaves_subset right _ (mem_leaves_right (hs.left n hn hown.1.1.1) hown.1.2)
  | back cmd ih =>
    refine ensures_fork ((subtree_cons _ _).trans hs.own) ?_ fun c hc => ?_
    · refine ih ht ⟨hs.fds,rfl,subset_rfl,fun n hn hown => ?_⟩ fun n argv i' o' h => hT n argv i' o' (.back h)
      exact hs.left n hn (hs.own (subtree_cons _ _ hown))
    · exact ensures_exit 0 fun _ n hn hown => hown.2 (leaves_subset cmd _ (hs.left n hn hown.1))

end Process

/-! ## The processes of a line -/

inductive Status
  | running (code : ShCode Empty)
  /-- `exec` has started another program. -/
  | execed
  | zombie
  | reaped

structure Task where
  status : Status
  st : Process

inductive Event
  | pipe (node : Node)
  | start (node : Node) (argv : List (List Char)) (fds : Fds)

def Event.node : Event → Node
  | pipe node | start node _ _ => node

structure World where
  task : ℕ → Option Task
  log : List Event

namespace World

def set (w : World) (p : ℕ) (τ : Task) : World := { w with task := update w.task p (some τ) }

def note (w : World) (ev : Event) : World := { w with log := ev :: w.log }

def used (w : World) : List Node := w.log.map Event.node

end World

def Sys.Local : Sys → Prop
  | .sysClose _ | .sysOpen _ _ | .sysDup _ | .fprintf _ | .sysExec _ _ => True
  | _ => False

inductive Step (fail : Prop) : World → World → Prop
  | call {w : World} {p : ℕ} {o : Sys} {k : o.Res → ShCode Empty} {s t : Process} {r : o.Res} (ho : o.Local)
      (hp : w.task p = some ⟨.running (.op o k),s⟩) (h : o.step fail s r t) : Step fail w (w.set p ⟨.running (k r),t⟩)
  | pipeFail {w : World} {p : ℕ} {node : Node} {k : Option (ℕ × ℕ) → ShCode Empty} {s t : Process}
      (hp : w.task p = some ⟨.running (.op (.sysPipe node) k),s⟩) (h : Sys.step fail (.sysPipe node) s none t) :
      Step fail w (w.set p ⟨.running (k none),t⟩)
  | pipe {w : World} {p : ℕ} {node : Node} {k : Option (ℕ × ℕ) → ShCode Empty} {s t : Process} {r : ℕ × ℕ}
      (hp : w.task p = some ⟨.running (.op (.sysPipe node) k),s⟩) (h : Sys.step fail (.sysPipe node) s (some r) t) :
      Step fail w ((w.set p ⟨.running (k (some r)),t⟩).note (.pipe node))
  | forkFail {w : World} {p : ℕ} {node : Node} {right : Bool} {k : Option Bool → ShCode Empty} {s : Process}
      (hp : w.task p = some ⟨.running (.op (.sysFork node right) k),s⟩) (h : fail) :
      Step fail w (w.set p ⟨.running (k none),s⟩)
  /-- `allocpid` does not give a number twice. -/
  | fork {w : World} {p c : ℕ} {node : Node} {right : Bool} {k : Option Bool → ShCode Empty} {s : Process}
      (hp : w.task p = some ⟨.running (.op (.sysFork node right) k),s⟩) (hc : w.task c = none) :
      Step fail w ((w.set p ⟨.running (k (some false)),{ s with
          kids := insert c s.kids
          own := s.own \ subtree (right :: node) }⟩).set c
        ⟨.running (k (some true)),{ s with kids := ∅, own := subtree (right :: node) }⟩)
  | waitNone {w : World} {p : ℕ} {k : Unit → ShCode Empty} {s : Process}
      (hp : w.task p = some ⟨.running (.op .sysWait k),s⟩) (hs : s.kids = ∅) : Step fail w (w.set p ⟨.running (k ()),s⟩)
  | wait {w : World} {p c : ℕ} {k : Unit → ShCode Empty} {s t : Process}
      (hp : w.task p = some ⟨.running (.op .sysWait k),s⟩) (hc : c ∈ s.kids) (ht : w.task c = some ⟨.zombie,t⟩) :
      Step fail w ((w.set p ⟨.running (k ()),{ s with kids := s.kids.erase c }⟩).set c ⟨.reaped,t⟩)
  | exec {w : World} {p : ℕ} {node : Node} {argv : List (List Char)} {k : Unit → ShCode Empty} {s : Process}
      (hp : w.task p = some ⟨.running (.op (.sysExec node argv) k),s⟩) :
      Step fail w ((w.set p ⟨.execed,{ s with own := s.own \ {node} }⟩).note (.start node argv s.fds))
  | exit {w : World} {p status : ℕ} {k : Empty → ShCode Empty} {s : Process}
      (hp : w.task p = some ⟨.running (.op (.sysExit status) k),s⟩) : Step fail w (w.set p ⟨.zombie,s⟩)
  | done {w : World} {p : ℕ} {s : Process} (hp : w.task p = some ⟨.execed,s⟩) : Step fail w (w.set p ⟨.zombie,s⟩)
  | kill {w : World} {p : ℕ} {code : ShCode Empty} {s : Process} (hp : w.task p = some ⟨.running code,s⟩) (h : fail) :
      Step fail w (w.set p ⟨.zombie,s⟩)

/-- The process that the shell forks for a line has the shell's three descriptors. -/
def initial (t : Tree) : World where
  task p := if p = 0 then some ⟨.running (runcmd t []),⟨std (.given 0) (.given 1) (.given 2),∅,Set.univ⟩⟩ else none
  log := []

inductive Reaches (fail : Prop) (t : Tree) : World → Prop
  | refl : Reaches fail t (initial t)
  | step {w w' : World} : Reaches fail t w → Step fail w w' → Reaches fail t w'

def Status.Ok (fail : Prop) (T : Node → List (List Char) → Fds → Prop) (L : Set Node) : Status → Process → Prop
  | .running code, s => code.ensures (moves fail T L) (fun _ _ => True) s
  | _, s => ¬fail → ∀ n ∈ L, n ∉ s.own

def World.Owns (w : World) (p : ℕ) (n : Node) : Prop := ∃ τ, w.task p = some τ ∧ n ∈ τ.st.own

/-- Every node is used once or one process's to run; unless calls fail none of `L` is forgotten. -/
structure Split (fail : Prop) (L : Set Node) (w : World) : Prop where
  apart : ∀ p q n, w.Owns p n → w.Owns q n → p = q
  unused : ∀ p n, w.Owns p n → n ∉ w.used
  nodup : w.used.Nodup
  covered : ¬fail → ∀ n ∈ L, (∃ argv fds, .start n argv fds ∈ w.log) ∨ ∃ p, w.Owns p n

structure Inv (fail : Prop) (T : Node → List (List Char) → Fds → Prop) (L : Set Node) (w : World) : Prop where
  ok : ∀ p τ, w.task p = some τ → τ.status.Ok fail T L τ.st
  kids : ∀ p τ, w.task p = some τ → ∀ c ∈ τ.st.kids, w.task c ≠ none
  started : ∀ n argv fds, .start n argv fds ∈ w.log → T n argv fds
  split : Split fail L w

section Processes
variable {fail : Prop} {T : Node → List (List Char) → Fds → Prop} {L : Set Node} {w : World} {p q : ℕ} {τ τ' σ : Task} {n : Node}

theorem World.task_set : (w.set p τ).task q = some σ ↔ q = p ∧ τ = σ ∨ q ≠ p ∧ w.task q = some σ := by
  rcases eq_or_ne q p with rfl | hq
  · simp [set]
  · simp [set,hq]

theorem World.task_set_ne_none (h : w.task q ≠ none) : (w.set p τ).task q ≠ none := by
  obtain ⟨σ,hσ⟩ := Option.ne_none_iff_exists'.mp h
  rcases eq_or_ne q p with rfl | hq
  · simp [set]
  · simp [set,hq,hσ]

theorem World.owns_iff (hp : w.task p = some τ) : w.Owns p n ↔ n ∈ τ.st.own := by
  simp [Owns,hp]

theorem World.owns_set : (w.set p τ).Owns q n ↔ q = p ∧ n ∈ τ.st.own ∨ q ≠ p ∧ w.Owns q n := by
  rcases eq_or_ne q p with rfl | hq
  · simp [Owns,set]
  · simp [Owns,set,hq]

theorem Split.set (h : Split fail L w) (hp : w.task p = some τ) (hown : τ'.st.own = τ.st.own) : Split fail L (w.set p τ') := by
  have howns : ∀ q n, (w.set p τ').Owns q n ↔ w.Owns q n := fun q n => by
    rcases eq_or_ne q p with rfl | hq
    · simp [World.owns_set,World.owns_iff hp,hown]
    · simp [World.owns_set,hq]
  constructor
  · simp only [howns]
    exact h.apart
  · simp only [howns]
    exact h.unused
  · exact h.nodup
  · simp only [howns]
    exact h.covered

theorem Split.note {ev : Event} (h : Split fail L w) (hp : w.task p = some τ) (hn : ev.node ∈ τ.st.own)
    (hown : τ'.st.own = τ.st.own \ {ev.node}) (hL : ev.node ∈ L → ∃ argv fds, ev = .start ev.node argv fds) :
    Split fail L ((w.set p τ').note ev) := by
  have hpn : w.Owns p ev.node := (World.owns_iff hp).mpr hn
  have howns : ∀ q m, ((w.set p τ').note ev).Owns q m ↔ w.Owns q m ∧ m ≠ ev.node := fun q m => by
    rw [show ((w.set p τ').note ev).Owns q m ↔ (w.set p τ').Owns q m from Iff.rfl,World.owns_set,hown]
    rcases eq_or_ne q p with rfl | hq
    · simp [World.owns_iff hp]
    · simp only [hq,false_and,ne_eq,not_false_eq_true,true_and,false_or,iff_self_and]
      intro hqm hm
      exact hq (h.apart q p m hqm (hm ▸ hpn))
  constructor
  · intro q r m hq hr
    exact h.apart q r m ((howns q m).mp hq).1 ((howns r m).mp hr).1
  · intro q m hq hm
    obtain ⟨hqm,hne⟩ := (howns q m).mp hq
    exact (List.mem_cons.mp hm).elim hne (h.unused q m hqm)
  · exact List.nodup_cons.mpr ⟨h.unused p _ hpn,h.nodup⟩
  · intro hf m hm
    rcases eq_or_ne m ev.node with rfl | hne
    · obtain ⟨argv,fds,hev⟩ := hL hm
      exact .inl ⟨argv,fds,List.mem_cons.mpr (.inl hev.symm)⟩
    · rcases h.covered hf m hm with ⟨argv,fds,hu⟩ | ⟨q,hq⟩
      · exact .inl ⟨argv,fds,List.mem_cons_of_mem _ hu⟩
      · exact .inr ⟨q,(howns q m).mpr ⟨hq,hne⟩⟩

theorem Split.fork {c : ℕ} {N : Set Node} (h : Split fail L w) (hp : w.task p = some τ) (hc : w.task c = none) (hN : N ⊆ τ.st.own)
    (hown : τ'.st.own = τ.st.own \ N) (hσ : σ.st.own = N) : Split fail L ((w.set p τ').set c σ) := by
  have hcp : c ≠ p := fun hcp => absurd (hcp ▸ hc) (by simp [hp])
  have hno : ∀ m, ¬w.Owns c m := fun m hm => by
    obtain ⟨ρ,hρ,-⟩ := hm
    rw [hc] at hρ
    cases hρ
  have howns : ∀ q m, ((w.set p τ').set c σ).Owns q m ↔ q = c ∧ m ∈ N ∨ m ∉ N ∧ w.Owns q m := fun q m => by
    rw [World.owns_set,World.owns_set,hσ,hown]
    rcases eq_or_ne q c with rfl | hqc
    · simp [hno]
    rcases eq_or_ne q p with rfl | hqp
    · simp [hqc,World.owns_iff hp,and_comm]
    · simp only [hqc,hqp,false_and,ne_eq,not_false_eq_true,true_and,false_or]
      refine ⟨fun hq => ⟨fun hm => hqp ?_,hq⟩,And.right⟩
      exact h.apart q p m hq ((World.owns_iff hp).mpr (hN hm))
  constructor
  · intro q r m hq hr
    rcases (howns q m).mp hq with ⟨rfl,hm⟩ | ⟨hm,hq⟩ <;> rcases (howns r m).mp hr with ⟨rfl,hm'⟩ | ⟨hm',hr⟩
    · rfl
    · exact absurd hm hm'
    · exact absurd hm' hm
    · exact h.apart q r m hq hr
  · intro q m hq
    rcases (howns q m).mp hq with ⟨-,hm⟩ | ⟨-,hq⟩
    · exact h.unused p m ((World.owns_iff hp).mpr (hN hm))
    · exact h.unused q m hq
  · exact h.nodup
  · intro hf m hm
    rcases h.covered hf m hm with hu | ⟨q,hq⟩
    · exact .inl hu
    · by_cases hmN : m ∈ N
      · exact .inr ⟨c,(howns c m).mpr (.inl ⟨rfl,hmN⟩)⟩
      · exact .inr ⟨q,(howns q m).mpr (.inr ⟨hmN,hq⟩)⟩

theorem Inv.ok_set (h : Inv fail T L w) (hok : τ'.status.Ok fail T L τ'.st) (hq : (w.set p τ').task q = some σ) :
    σ.status.Ok fail T L σ.st := by
  rcases World.task_set.mp hq with ⟨-,rfl⟩ | ⟨-,hq⟩
  · exact hok
  · exact h.ok q σ hq

theorem Inv.kids_set (h : Inv fail T L w) (hp : w.task p = some τ) (hkids : τ'.st.kids ⊆ τ.st.kids)
    (hq : (w.set p τ').task q = some σ) :
    ∀ c ∈ σ.st.kids, (w.set p τ').task c ≠ none := by
  intro c hc
  apply World.task_set_ne_none
  rcases World.task_set.mp hq with ⟨-,rfl⟩ | ⟨-,hq⟩
  · exact h.kids p τ hp c (hkids hc)
  · exact h.kids q σ hq c hc

theorem Inv.set (h : Inv fail T L w) (hp : w.task p = some τ) (hok : τ'.status.Ok fail T L τ'.st)
    (hkids : τ'.st.kids ⊆ τ.st.kids) (hown : τ'.st.own = τ.st.own) : Inv fail T L (w.set p τ') :=
  ⟨fun _ _ => h.ok_set hok,fun _ _ => h.kids_set hp hkids,h.started,h.split.set hp hown⟩

theorem Inv.fork {c : ℕ} {N : Set Node} (h : Inv fail T L w) (hp : w.task p = some τ) (hc : w.task c = none)
    (hok : τ'.status.Ok fail T L τ'.st) (hok' : σ.status.Ok fail T L σ.st) (hkids : τ'.st.kids = insert c τ.st.kids)
    (hkids' : σ.st.kids = ∅) (hN : N ⊆ τ.st.own) (hown : τ'.st.own = τ.st.own \ N) (hσ : σ.st.own = N) :
    Inv fail T L ((w.set p τ').set c σ) where
  ok q ρ hq := by
    rcases World.task_set.mp hq with ⟨-,rfl⟩ | ⟨-,hq⟩
    · exact hok'
    · exact h.ok_set hok hq
  kids q ρ hq d hd := by
    rcases World.task_set.mp hq with ⟨-,rfl⟩ | ⟨-,hq⟩
    · simp [hkids'] at hd
    rcases eq_or_ne d c with rfl | hdc
    · simp [World.set]
    refine World.task_set_ne_none (World.task_set_ne_none ?_)
    rcases World.task_set.mp hq with ⟨-,rfl⟩ | ⟨-,hq⟩
    · rw [hkids] at hd
      exact h.kids p τ hp d ((Finset.mem_insert.mp hd).resolve_left hdc)
    · exact h.kids q ρ hq d hd
  started := h.started
  split := h.split.fork hp hc hN hown hσ

theorem Sys.Local.frame {o : Sys} (ho : o.Local) {s t : Process} {r : o.Res} (h : o.step fail s r t) :
    t.kids = s.kids ∧ t.own = s.own := by
  cases o with
  | sysClose fd => cases h; exact ⟨rfl,rfl⟩
  | sysOpen file mode =>
    rcases h with ⟨-,-,rfl⟩ | ⟨n,-,-,rfl⟩ <;> exact ⟨rfl,rfl⟩
  | sysDup fd =>
    rcases h with ⟨-,-,rfl⟩ | ⟨x,n,-,-,-,rfl⟩ <;> exact ⟨rfl,rfl⟩
  | sysExec node argv => cases h.2; exact ⟨rfl,rfl⟩
  | fprintf text => cases h; exact ⟨rfl,rfl⟩
  | sysPipe | sysFork | sysWait | sysExit => exact ho.elim

theorem Inv.step {w' : World} (h : Inv fail T L w) (hs : Step fail w w') : Inv fail T L w' := by
  cases hs with
  | call ho hp hstep =>
    obtain ⟨-,hk⟩ := h.ok _ _ hp
    obtain ⟨hkids,hown⟩ := ho.frame hstep
    exact h.set hp (hk _ _ hstep) hkids.subset hown
  | pipeFail hp hstep =>
    obtain ⟨-,hk⟩ := h.ok _ _ hp
    rcases id hstep with ⟨-,-,rfl⟩ | ⟨a,b,-,-,hr,-⟩
    · exact h.set hp (hk _ _ hstep) subset_rfl rfl
    · cases hr
  | pipe hp hstep =>
    obtain ⟨⟨-,hown,hL⟩,hk⟩ := h.ok _ _ hp
    rcases id hstep with ⟨-,hr,-⟩ | ⟨a,b,-,-,-,rfl⟩
    · cases hr
    · refine ⟨fun _ _ => h.ok_set (hk _ _ hstep),fun _ _ => h.kids_set hp subset_rfl,fun n argv fds hn => ?_,?_⟩
      · exact h.started n argv fds ((List.mem_cons.mp hn).resolve_left nofun)
      · exact h.split.note hp hown rfl fun hL' => absurd hL' hL
  | forkFail hp hfail =>
    obtain ⟨-,hk⟩ := h.ok _ _ hp
    exact h.set hp (hk none _ (.inl ⟨hfail,rfl,rfl⟩)) subset_rfl rfl
  | @fork p c node right k s hp hc =>
    obtain ⟨⟨-,hown⟩,hk⟩ := h.ok _ _ hp
    have hck : c ∉ s.kids := fun hck => h.kids _ _ hp c hck hc
    refine h.fork hp hc (hk (some false) _ (.inr (.inr ⟨c,hck,rfl,rfl⟩))) (hk (some true) _ (.inr (.inl ⟨rfl,rfl⟩)))
      ?_ ?_ hown ?_ ?_
    all_goals rfl
  | waitNone hp hs =>
    obtain ⟨⟨hne,-⟩,-⟩ := h.ok _ _ hp
    exact absurd hs hne.ne_empty
  | @wait p c k s t hp hc ht =>
    obtain ⟨-,hk⟩ := h.ok _ _ hp
    have hcp : c ≠ p := fun hcp => by
      rw [hcp,hp] at ht
      cases ht
    have hp' : Inv fail T L (w.set p ⟨.running (k ()),{ s with kids := s.kids.erase c }⟩) :=
      h.set hp (hk () _ (.inr ⟨c,hc,rfl⟩)) (Finset.erase_subset c s.kids) rfl
    have hleft : ¬fail → ∀ n ∈ L, n ∉ t.own := h.ok _ _ ht
    exact hp'.set (World.task_set.mpr (.inr ⟨hcp,ht⟩)) hleft subset_rfl rfl
  | exec hp =>
    obtain ⟨⟨-,hT,hown,hleft⟩,-⟩ := h.ok _ _ hp
    refine ⟨fun _ _ => h.ok_set fun _ n hn hnown => hnown.2 (hleft n hn hnown.1),fun _ _ => h.kids_set hp subset_rfl,
      fun n argv fds hn => ?_,h.split.note hp hown rfl fun _ => ⟨_,_,rfl⟩⟩
    rcases List.mem_cons.mp hn with heq | hn
    · cases heq
      exact hT
    · exact h.started n argv fds hn
  | exit hp =>
    obtain ⟨⟨-,hleft⟩,-⟩ := h.ok _ _ hp
    exact h.set hp hleft subset_rfl rfl
  | @done p s hp =>
    have hleft : ¬fail → ∀ n ∈ L, n ∉ s.own := h.ok _ _ hp
    exact h.set hp hleft subset_rfl rfl
  | kill hp hfail => exact h.set hp (fun hf => absurd hfail hf) subset_rfl rfl

theorem Inv.init {t : Tree} (ht : Redirects t)
    (hT : ∀ n argv i o, Leaf t [] (.given 0) (.given 1) n argv i o → T n argv (std i o (.given 2))) :
    Inv fail T (leaves t []) (initial t) := by
  have htask : ∀ p τ, (initial t).task p = some τ → p = 0 ∧
      τ = ⟨.running (runcmd t []),⟨std (.given 0) (.given 1) (.given 2),∅,Set.univ⟩⟩ := fun p τ h => by
    simp only [initial] at h
    split at h
    · exact ⟨‹_›,(Option.some.inj h).symm⟩
    · cases h
  have hroot : ∀ n, (initial t).Owns 0 n := fun n => ⟨_,rfl,Set.mem_univ n⟩
  refine ⟨fun p τ h => ?_,fun p τ h c hc => ?_,nofun,⟨?_,nofun,List.nodup_nil,fun _ n _ => .inr ⟨0,hroot n⟩⟩⟩
  · obtain ⟨-,rfl⟩ := htask p τ h
    exact runcmd_ensures ht ⟨rfl,rfl,Set.subset_univ _,fun n hn _ => hn⟩ hT
  · obtain ⟨-,rfl⟩ := htask p τ h
    cases hc
  · rintro p q n ⟨τ,hp,-⟩ ⟨σ,hq,-⟩
    exact (htask p τ hp).1.trans (htask q σ hq).1.symm

theorem Reaches.inv {t : Tree} (h : Reaches fail t w) (ht : Redirects t)
    (hT : ∀ n argv i o, Leaf t [] (.given 0) (.given 1) n argv i o → T n argv (std i o (.given 2))) :
    Inv fail T (leaves t []) w := by
  induction h with
  | refl => exact .init ht hT
  | step _ hs ih => exact ih.step hs

end Processes

/-! ## The trees of the grammar -/

theorem Redirects.wrap {t : Tree} (ht : Redirects t) (rs : List Redir) : Redirects (rs.foldl Redir.wrap t) := by
  induction rs generalizing t with
  | nil => exact ht
  | cons r rs ih =>
    refine ih ⟨?_,ht⟩
    cases r.op with
    | read => exact .inl rfl
    | write => exact .inr rfl
    | append => exact .inr rfl

theorem Redirects.backs {t : Tree} (ht : Redirects t) (n : ℕ) : Redirects (t.backs n) := by
  induction n generalizing t with
  | zero => exact ht
  | succ n ih => exact ih ht

mutual

theorem Line.redirects : (d : Line) → Redirects d.tree
  | .last p n => p.redirects.backs n
  | .seq p n l => ⟨p.redirects.backs n,l.redirects⟩

theorem Pipe.redirects : (d : Pipe) → Redirects d.tree
  | .last e => e.redirects
  | .seq e p => ⟨e.redirects,p.redirects⟩

theorem Exec.redirects : (d : Exec) → Redirects d.tree
  | .block l rs => l.redirects.wrap rs
  | .simple _ _ _ => Redirects.wrap (t := .exec _) trivial _

end

section Leaves
variable {t : Tree} {node n : Node} {i o i' o' i₂ o₂ : Obj} {argv argv₂ : List (List Char)}

theorem Leaf.mem (h : Leaf t node i o n argv i' o') : n ∈ leaves t node := by
  induction h with
  | exec => exact rfl
  | redirIn _ ih => exact ih
  | redirOut _ ih => exact ih
  | listLeft _ ih => exact .inl ih
  | listRight _ ih => exact .inr ih
  | pipeLeft _ ih => exact .inl ih
  | pipeRight _ ih => exact .inr ih
  | back _ ih => exact ih

theorem Leaf.unique (h : Leaf t node i o n argv i' o') (h₂ : Leaf t node i o n argv₂ i₂ o₂) :
    argv = argv₂ ∧ i' = i₂ ∧ o' = o₂ := by
  induction h with
  | exec => cases h₂; exact ⟨rfl,rfl,rfl⟩
  | redirIn _ ih => cases h₂ with | redirIn h₂ => exact ih h₂
  | redirOut _ ih => cases h₂ with | redirOut h₂ => exact ih h₂
  | listLeft h ih =>
    cases h₂ with
    | listLeft h₂ => exact ih h₂
    | listRight h₂ => exact absurd h₂.mem (leaves_apart h.mem)
  | listRight h ih =>
    cases h₂ with
    | listLeft h₂ => exact absurd h.mem (leaves_apart h₂.mem)
    | listRight h₂ => exact ih h₂
  | pipeLeft h ih =>
    cases h₂ with
    | pipeLeft h₂ => exact ih h₂
    | pipeRight h₂ => exact absurd h₂.mem (leaves_apart h.mem)
  | pipeRight h ih =>
    cases h₂ with
    | pipeLeft h₂ => exact absurd h.mem (leaves_apart h₂.mem)
    | pipeRight h₂ => exact ih h₂
  | back _ ih => cases h₂ with | back h₂ => exact ih h₂

def Obj.Outside (node : Node) : Obj → Prop
  | rd n | wr n => n ∉ subtree node
  | _ => True

theorem Obj.Outside.down {x : Obj} (b : Bool) (h : x.Outside node) : x.Outside (b :: node) := by
  cases x with
  | given fd => trivial
  | file name mode => trivial
  | rd n => exact fun hn => h (subtree_cons b node hn)
  | wr n => exact fun hn => h (subtree_cons b node hn)

theorem Leaf.apart (h : Leaf t node i o n argv i' o') (hi : i.Outside node) (ho : o.Outside node)
    (hio : ∀ m, ¬(i = .rd m ∧ o = .wr m)) : ∀ m, ¬(i' = .rd m ∧ o' = .wr m) := by
  induction h with
  | exec => exact hio
  | redirIn _ ih => exact ih trivial (ho.down _) nofun
  | redirOut _ ih => exact ih (hi.down _) trivial nofun
  | listLeft _ ih => exact ih (hi.down _) (ho.down _) hio
  | listRight _ ih => exact ih (hi.down _) (ho.down _) hio
  | @pipeLeft left right node n i o i' o' argv _ ih =>
    refine ih (hi.down _) (self_notMem_subtree _ _) ?_
    rintro m ⟨rfl,hm⟩
    cases hm
    exact hi (List.suffix_refl node)
  | @pipeRight left right node n i o i' o' argv _ ih =>
    refine ih (self_notMem_subtree _ _) (ho.down _) ?_
    rintro m ⟨hm,rfl⟩
    cases hm
    exact ho (List.suffix_refl node)
  | back _ ih => exact ih (hi.down _) (ho.down _) hio

end Leaves

/-- Whatever the order in which the processes of a line run and whichever calls fail: every program that is started is a
command of the line, with its arguments and with its own standard input and output and no other descriptor besides
standard error, and not with both ends of one pipe; no command is started twice and no pipe made twice; no call lacks a
descriptor or a child to wait for, and a program is started only when all children have been waited for. If no call
fails, then when no process is in `runcmd` any more every command has been started. -/
theorem runcmd_commands (d : Line) (fail : Prop) (w : World) (h : Reaches fail d.tree w) :
    (∀ n argv fds, .start n argv fds ∈ w.log → ∃ i o, Leaf d.tree [] (.given 0) (.given 1) n argv i o ∧
      fds = std i o (.given 2) ∧ ∀ m, ¬(i = .rd m ∧ o = .wr m)) ∧
    (w.log.map Event.node).Nodup ∧
    (∀ p o k s, w.task p = some ⟨.running (.op o k),s⟩ → o.Proper s) ∧
    (¬fail → (∀ p code s, w.task p ≠ some ⟨.running code,s⟩) → ∀ n argv i o,
      Leaf d.tree [] (.given 0) (.given 1) n argv i o → .start n argv (std i o (.given 2)) ∈ w.log) := by
  have hinv : Inv fail (fun n argv fds => ∃ i o, Leaf d.tree [] (.given 0) (.given 1) n argv i o ∧ fds = std i o (.given 2))
      (leaves d.tree []) w := h.inv d.redirects fun n argv i o hl => ⟨i,o,hl,rfl⟩
  refine ⟨fun n argv fds hn => ?_,hinv.split.nodup,fun p o k s hp => (hinv.ok _ _ hp).1.1,fun hf hrun n argv i o hl => ?_⟩
  · obtain ⟨i,o,hl,rfl⟩ := hinv.started n argv fds hn
    exact ⟨i,o,hl,rfl,hl.apart trivial trivial nofun⟩
  · rcases hinv.split.covered hf n hl.mem with ⟨argv',fds,hn⟩ | ⟨p,⟨status,s⟩,hp,hown⟩
    · obtain ⟨i',o',hl',rfl⟩ := hinv.started n argv' fds hn
      obtain ⟨rfl,rfl,rfl⟩ := hl.unique hl'
      exact hn
    · have hok := hinv.ok _ _ hp
      cases status with
      | running code => exact absurd hp (hrun p code s)
      | execed => exact absurd hown (hok hf n hl.mem)
      | zombie => exact absurd hown (hok hf n hl.mem)
      | reaped => exact absurd hown (hok hf n hl.mem)

/-- `a>f`, run to the start of `a` -/
theorem runcmd_commands_redirect :
    let d : Line := .last (.last (.simple [] [(['a'],[⟨.write,['f']⟩])] (by decide))) 0
    ∃ w, Reaches False d.tree w ∧ w.log = [.start [false] [['a']] (std (.given 0) (.file ['f'] 0x601) (.given 2))] ∧
      (w.log.map Event.node).Nodup ∧ ∀ n argv i o, Leaf d.tree [] (.given 0) (.given 1) n argv i o →
        .start n argv (std i o (.given 2)) ∈ w.log := by
  intro d
  have hinit : Reaches False d.tree (initial d.tree) := .refl
  have hclose := hinit.step (.call (p := 0) (o := .sysClose 1) (r := ()) trivial rfl rfl)
  have hopen := hclose.step (.call (p := 0) (o := .sysOpen ['f'] 0x601) trivial rfl (.inr ⟨1,rfl,rfl,rfl⟩))
  have hexec := hopen.step (.exec (p := 0) rfl)
  refine ⟨_,hexec,?_,?_⟩
  · exact congrArg (fun fds => [Event.start [false] [['a']] fds]) (std_reopen_out _)
  · obtain ⟨-,hnodup,-,hall⟩ := runcmd_commands d False _ hexec
    refine ⟨hnodup,hall not_false fun p code s hp => ?_⟩
    rcases World.task_set.mp hp with ⟨-,h⟩ | ⟨hne,hp⟩
    · cases h
    · simp [World.set,initial,hne] at hp

end Xv6.Sh
