import Xv6.Kernel.State

/-! # `pipe.c`

The functions are cut at the points where another process can interfere: at `acquire`, at
`sleep`, at each process that `wakeup` visits, and at each round of a loop, since a `kill`
can take effect between two rounds. What happens at a point while `pi->lock` is held is one
function of the pipe, of `killed(pr)` and of the memory of the process.
-/
namespace Xv6.PipeProtocol
open Library

abbrev PIPESIZE : ℕ := 512

structure Pipe where
  data : Fin PIPESIZE → Byte
  nread : BitVec 32
  nwrite : BitVec 32
  readopen : Bool
  writeopen : Bool

/-- `&pi->nread` and `&pi->nwrite` -/
inductive Chan
  | nread | nwrite
  deriving DecidableEq

inductive Call
  | pipewrite (addr : ℕ) (n : ℤ)
  | piperead (addr : ℕ) (n : ℤ)
  | pipeclose (writable : Bool)

/-- A point in the code at which `pi->lock` is held. -/
inductive Point
  /-- `while(i < n)` of `pipewrite`; `since` is what `i` was when the lock was acquired -/
  | writeLoop (addr : ℕ) (n : ℤ) (since i : ℕ)
  /-- `sleep(&pi->nwrite, &pi->lock)` -/
  | writeSleep (addr : ℕ) (n : ℤ) (i : ℕ)
  /-- `wakeup(&pi->nread)` after the loop -/
  | writeDone (addr : ℕ) (n : ℤ) (i : ℕ)
  /-- `while(pi->nread == pi->nwrite && pi->writeopen)` of `piperead` -/
  | readWait (addr : ℕ) (n : ℤ)
  /-- `for(i = 0; i < n; i++)` -/
  | readCopy (addr : ℕ) (n : ℤ) (i : ℕ)
  /-- `wakeup(&pi->nwrite)` after the loop -/
  | readDone (addr : ℕ) (n : ℤ) (i : ℕ)
  | close (writable : Bool)
  /-- the last test of `pipeclose` -/
  | closeTest (writable : Bool)
  /-- `release(&pi->lock)` and the return of `r` -/
  | ret (c : Call) (r : ℤ)

def Call.start : Call → Point
  | .pipewrite addr n => .writeLoop addr n 0 0
  | .piperead addr n => .readWait addr n
  | .pipeclose writable => .close writable

inductive Next
  | goto (k : Point)
  /-- `wakeup(c)`, then `k` -/
  | wakeup (c : Chan) (k : Point)
  /-- `sleep(c, &pi->lock)`, then `k` -/
  | sleep (c : Chan) (k : Point)
  /-- `release(&pi->lock)` and return -/
  | done
  /-- `release(&pi->lock)`, then `kfree((char*)pi)` -/
  | free

/-- What a process does at a point, with the bytes it stores and takes for the record. -/
structure Outcome where
  next : Next
  pipe : Pipe
  mem : UserMem
  stored : List Byte
  taken : List Byte

def Pipe.Full (pi : Pipe) : Prop := pi.nwrite = pi.nread + BitVec.ofNat 32 PIPESIZE

instance (pi : Pipe) : Decidable pi.Full := inferInstanceAs (Decidable (_ = _))

/-- `pi->data[pi->nwrite++ % PIPESIZE] = ch` -/
def Pipe.store (pi : Pipe) (ch : Byte) : Pipe :=
  { pi with data := Function.update pi.data (Fin.ofNat PIPESIZE pi.nwrite.toNat) ch, nwrite := pi.nwrite + 1 }

/-- `pi->data[pi->nread % PIPESIZE]` -/
def Pipe.first (pi : Pipe) : Byte := pi.data (Fin.ofNat PIPESIZE pi.nread.toNat)

def Pipe.take (pi : Pipe) : Pipe := { pi with nread := pi.nread + 1 }

def userAddr (addr i : ℕ) : ℕ := (addr + i) % 2 ^ 64

def Point.exec (pi : Pipe) (killed : Bool) (u : UserMem) : Point → Outcome
  | .writeLoop addr n since i =>
    if (i : ℤ) < n then
      if pi.readopen = false ∨ killed then ⟨.goto (.ret (.pipewrite addr n) (-1)),pi,u,[],[]⟩
      else if pi.Full then ⟨.wakeup .nread (.writeSleep addr n i),pi,u,[],[]⟩
      else
        let r := u.copyin (userAddr addr i) 1
        if r.2 then ⟨.goto (.writeLoop addr n since (i + 1)),pi.store (r.1.headD 0),u,[r.1.headD 0],[]⟩
        else ⟨.goto (.writeDone addr n i),pi,u,[],[]⟩
    else ⟨.goto (.writeDone addr n i),pi,u,[],[]⟩
  | .writeSleep addr n i => ⟨.sleep .nwrite (.writeLoop addr n i i),pi,u,[],[]⟩
  | .writeDone addr n i => ⟨.wakeup .nread (.ret (.pipewrite addr n) i),pi,u,[],[]⟩
  | .readWait addr n =>
    if pi.nread = pi.nwrite ∧ pi.writeopen then
      if killed then ⟨.goto (.ret (.piperead addr n) (-1)),pi,u,[],[]⟩
      else ⟨.sleep .nread (.readWait addr n),pi,u,[],[]⟩
    else ⟨.goto (.readCopy addr n 0),pi,u,[],[]⟩
  | .readCopy addr n i =>
    if (i : ℤ) < n then
      if pi.nread = pi.nwrite then ⟨.goto (.readDone addr n i),pi,u,[],[]⟩
      else
        let r := u.copyout (userAddr addr i) [pi.first]
        ⟨.goto (if r.2 then .readCopy addr n (i + 1) else .readDone addr n i),pi.take,r.1,[],[pi.first]⟩
    else ⟨.goto (.readDone addr n i),pi,u,[],[]⟩
  | .readDone addr n i => ⟨.wakeup .nwrite (.ret (.piperead addr n) i),pi,u,[],[]⟩
  | .close writable =>
    if writable then ⟨.wakeup .nread (.closeTest writable),{ pi with writeopen := false },u,[],[]⟩
    else ⟨.wakeup .nwrite (.closeTest writable),{ pi with readopen := false },u,[],[]⟩
  | .closeTest writable =>
    if pi.readopen = false ∧ pi.writeopen = false then ⟨.free,pi,u,[],[]⟩
    else ⟨.goto (.ret (.pipeclose writable) 0),pi,u,[],[]⟩
  | .ret _ _ => ⟨.done,pi,u,[],[]⟩

end Xv6.PipeProtocol
