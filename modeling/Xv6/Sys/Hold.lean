import Xv6.Fs.Syscalls
import Xv6.Library.Moves

/-! # What a process holds

References to open files and to inodes, inode locks and ends of pipes, in the middle of a call or
between calls. Every operation on the tables takes some and gives some back; what the tables
contain otherwise is left open, so a program is judged whatever it finds there and whatever other
processes do in between.
-/
namespace Xv6
open Library
open Function (update)

inductive Kind
  | fresh
  | pipe (pi : ℕ) (readable writable : Bool)
  | inode (ip : Fin NINODE)
  | device (ip : Fin NINODE)
  deriving DecidableEq

def File.kind (x : File) : Kind :=
  match x.type with
  | .none => .fresh
  | .pipe => .pipe x.pipe x.readable x.writable
  | .inode => .inode x.ip
  | .device => .device x.ip

def Kind.ip : Kind → Option (Fin NINODE)
  | inode ip | device ip => some ip
  | fresh | pipe _ _ _ => none

structure Hold where
  /-- references to open files, those of the descriptors included -/
  fref : Fin NFILE → ℕ
  /-- what the process knows of the files that it has a reference to -/
  kind : Fin NFILE → Kind
  /-- references to inodes, the current directory included -/
  iref : Fin NINODE → ℕ
  lock : Fin NINODE → ℕ
  /-- ends of pipes on their way into a file or out of it -/
  ends : ℕ × Bool → ℕ
  ofile : Fin NOFILE → Option (Fin NFILE)
  cwd : Option (Fin NINODE)
  /-- the slot to which `fork` has copied descriptors and current directory -/
  child : Option Pid

def slots (ofile : Fin NOFILE → Option (Fin NFILE)) (f : Fin NFILE) : ℕ :=
  (Finset.univ.filter fun fd => ofile fd = some f).card

structure Rights where
  files : Prop
  /-- inode references and locks, and the current directory -/
  inodes : Prop
  pipeclose : Prop
  fork : Prop

namespace Hold

def filed (g : Hold) (ip : Fin NINODE) : ℕ := ∑ f, if (g.kind f).ip = some ip then g.fref f else 0

def setFref (g : Hold) (f : Fin NFILE) (n : ℕ) (k : Kind) : Hold :=
  { g with fref := update g.fref f n, kind := update g.kind f k }

def take (g : Hold) (ip : Fin NINODE) : Hold := { g with iref := g.iref + Pi.single ip 1 }
def drop (g : Hold) (ip : Fin NINODE) : Hold := { g with iref := g.iref - Pi.single ip 1 }
def acquire (g : Hold) (ip : Fin NINODE) : Hold := { g with lock := g.lock + Pi.single ip 1 }
def release (g : Hold) (ip : Fin NINODE) : Hold := { g with lock := g.lock - Pi.single ip 1 }

def unwrap (g : Hold) : Kind → Hold
  | .fresh => g
  | .pipe pi _ w => { g with ends := g.ends + Pi.single (pi,w) 1 }
  | .inode ip | .device ip => g.take ip

def refs (g : Hold) (r l : Fin NINODE → ℕ) : Hold := { g with iref := r, lock := l }

def Covered (g : Hold) (r l : Fin NINODE → ℕ) : Prop := ∀ ip, l ip ≤ r ip + g.filed ip

def Spare (g : Hold) (ip : Fin NINODE) : Prop := g.lock ip < g.iref ip + g.filed ip

def safe (R : Rights) (g : Hold) : EnvOp → Prop
  | .iget _ _ => R.inodes
  | .idup ip => R.inodes ∧ 0 < g.iref ip
  | .ilock ip => R.inodes ∧ g.Spare ip
  | .iunlock ip | .ireleasesleep ip => R.inodes ∧ 0 < g.lock ip
  | .iputTest ip | .idrop ip => R.inodes ∧ 0 < g.iref ip ∧ g.Spare ip
  | .filealloc | .fdalloc _ | .setFd _ _ => R.files
  | .filedup f => R.files ∧ 0 < g.fref f ∧ g.kind f ≠ .fresh
  | .fileclose f => R.files ∧ 0 < g.fref f ∧ ∀ ip, (g.kind f).ip = some ip → R.inodes ∧ g.Spare ip
  | .initFile f type _ _ ip _ _ => R.files ∧ R.inodes ∧ 0 < g.fref f ∧ g.kind f = .fresh ∧ 0 < g.iref ip ∧
      (type = .inode ∨ type = .device)
  | .setCwd _ => R.inodes
  | .forkProc _ => R.fork ∧ (∀ f, slots g.ofile f ≤ g.fref f) ∧ (∀ fd f, g.ofile fd = some f → g.kind f ≠ .fresh) ∧
      (∀ ip, g.lock ip = 0) ∧ ∃ ip, g.cwd = some ip ∧ 0 < g.iref ip
  | .external (.pipeclose pi w) => R.pipeclose ∧ 0 < g.ends (pi,w)
  | .external (.piperead pi _ _) | .external (.pipewrite pi _ _) => ∃ f r w, 0 < g.fref f ∧ g.kind f = .pipe pi r w
  | .external _ | .inode _ | .setInode _ _ _ | .file _ | .setOff _ _ | .proc | .copyout _ _ => True

def step (g : Hold) : (o : EnvOp) → o.Res → Hold → Prop
  | .iget _ _, ip, g' => g' = g.take ip
  | .idup ip, _, g' => g' = g.take ip
  | .ilock ip, _, g' => g' = g.acquire ip
  | .iunlock ip, _, g' | .ireleasesleep ip, _, g' => g' = g.release ip
  | .iputTest ip, free, g' => g' = if free then g.acquire ip else g.drop ip
  | .idrop ip, _, g' => g' = g.drop ip
  | .filealloc, r, g' =>
    match r with
    | none => g' = g
    | some f => g.fref f = 0 ∧ g' = g.setFref f 1 .fresh
  | .filedup f, _, g' => g' = g.setFref f (g.fref f + 1) (g.kind f)
  | .fileclose f, r, g' =>
    match r with
    | none => g.kind f ≠ .fresh ∧ g' = g.setFref f (g.fref f - 1) (g.kind f)
    | some x => x.kind = g.kind f ∧ g.fref f = 1 ∧ g' = (g.setFref f 0 (g.kind f)).unwrap (g.kind f)
  | .file f, x, g' => (0 < g.fref f → x.kind = g.kind f) ∧ g' = g
  | .initFile f type _ _ ip _ _, _, g' => g.fref f = 1 ∧
      g' = (g.setFref f 1 (if type = .inode then .inode ip else .device ip)).drop ip
  | .proc, p, g' => p.ofile = g.ofile ∧ p.cwd = g.cwd ∧ g' = g
  | .fdalloc f, r, g' =>
    match r with
    | none => g' = g
    | some fd => g.ofile fd = none ∧ g' = { g with ofile := update g.ofile fd (some f) }
  | .setFd fd f, _, g' => g' = { g with ofile := update g.ofile fd f }
  | .setCwd cwd, _, g' => g' = { g with cwd := cwd }
  | .forkProc c, _, g' => ∃ ip, g.cwd = some ip ∧
      g' = { g with fref := g.fref - slots g.ofile, iref := g.iref - Pi.single ip 1, child := some c }
  | .external (.pipeclose pi w), _, g' => g' = { g with ends := g.ends - Pi.single (pi,w) 1 }
  | .external _, _, g' | .inode _, _, g' | .setInode _ _ _, _, g' | .setOff _ _, _, g' | .copyout _ _, _, g' => g' = g

/-! ## Between calls -/

structure Idle (g : Hold) : Prop where
  fref : ∀ f, g.fref f = slots g.ofile f
  kind : ∀ f, 0 < g.fref f → g.kind f ≠ .fresh
  cwd : ∃ ip, g.cwd = some ip ∧ g.iref = Pi.single ip 1
  lock : g.lock = 0
  ends : g.ends = 0

structure Gone (g : Hold) : Prop where
  fref : g.fref = 0
  iref : g.iref = 0
  lock : g.lock = 0
  ends : g.ends = 0
  ofile : ∀ fd, g.ofile fd = none
  cwd : g.cwd = none

section Lemmas
variable {g : Hold} {r l : Fin NINODE → ℕ} {ip : Fin NINODE} {f : Fin NFILE}

theorem Covered.add (h : g.Covered r l) (s : Fin NINODE → ℕ) : g.Covered (r + s) l := fun ip => by
  have := h ip
  simp only [Pi.add_apply]
  omega

theorem Covered.lock (h : g.Covered r l) (ip : Fin NINODE) : g.Covered (r + Pi.single ip 1) (l + Pi.single ip 1) := by
  intro j
  have := h j
  simp only [Pi.add_apply]
  omega

end Lemmas

end Hold

def holdMoves (β : Type) (R : Rights) : Moves (Op β) Op.Res Hold where
  safe o g :=
    match o with
    | .env o => g.safe R o
    | _ => True
  step o g r g' :=
    match o, r with
    | .env o, r => g.step o r g'
    | _, _ => g' = g

end Xv6
