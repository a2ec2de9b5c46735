import Xv6.Kernel.State
import Xv6.Library.Prog

/-! # The operations of file system code and their sequential meaning

File system code is a program over the operations below. A pointer to a buffer is a
value of an arbitrary type: the interleaved machine uses the slots of the buffer
cache, the sequential machine uses block numbers. The sequential machine keeps what
`bread` would return for each block apart from what is on the disk, and the set of
logged blocks in between.
-/
namespace Xv6
open Library
open Function (update)

inductive EnvOp
  | iget (dev inum : ℕ)
  | idup (ip : Fin NINODE)
  | ilock (ip : Fin NINODE)
  | iunlock (ip : Fin NINODE)
  | iputTest (ip : Fin NINODE)
  | ireleasesleep (ip : Fin NINODE)
  | idrop (ip : Fin NINODE)
  | inode (ip : Fin NINODE)
  | setInode (ip : Fin NINODE) (valid : Bool) (din : Dinode)
  | filealloc
  | filedup (f : Fin NFILE)
  | fileclose (f : Fin NFILE)
  | file (f : Fin NFILE)
  | initFile (f : Fin NFILE) (type : FileType) (readable writable : Bool)
      (ip : Fin NINODE) (off : BitVec 32) (major : BitVec 16)
  | setOff (f : Fin NFILE) (off : BitVec 32)
  | proc
  | fdalloc (f : Fin NFILE)
  | setFd (fd : Fin NOFILE) (f : Option (Fin NFILE))
  | setCwd (cwd : Option (Fin NINODE))
  | forkProc (child : Pid)
  | copyout (dstva : ℕ) (src : List Byte)
  | external (c : External)

namespace EnvOp

@[reducible] def Res : EnvOp → Type
  | iget _ _ => Fin NINODE
  | idup _ | ilock _ | iunlock _ | ireleasesleep _ | idrop _ | setInode _ _ _ => Unit
  | iputTest _ => Bool
  | inode _ => Inode
  | filealloc => Option (Fin NFILE)
  | filedup _ | initFile _ _ _ _ _ _ _ | setOff _ _ => Unit
  | fileclose _ => Option File
  | file _ => File
  | proc => Proc
  | fdalloc _ => Option (Fin NOFILE)
  | setFd _ _ | setCwd _ | forkProc _ => Unit
  | copyout _ _ => Bool
  | external _ => ℤ

def exec (p : Pid) : (o : EnvOp) → Env → Except Halt (o.Res × Env)
  | iget dev inum, e => (e.iget dev inum).mapError .panic
  | idup ip, e => .ok ((),e.idup ip)
  | ilock ip, e => (e.ilock p ip).map (fun e => ((),e))
  | iunlock ip, e => (e.iunlock p ip).map (fun e => ((),e))
  | iputTest ip, e => e.iputTest p ip
  | ireleasesleep ip, e => .ok ((),e.ireleasesleep ip)
  | idrop ip, e => .ok ((),e.idrop ip)
  | inode ip, e => .ok (e.itable ip,e)
  | setInode ip valid din, e =>
    .ok ((),e.setInode ip { e.itable ip with valid := valid, din := din })
  | filealloc, e => .ok e.filealloc
  | filedup f, e => ((e.filedup f).map (fun e => ((),e))).mapError .panic
  | fileclose f, e => (e.fileclose f).mapError .panic
  | file f, e => .ok (e.ftable f,e)
  | initFile f type readable writable ip off major, e =>
    .ok ((),e.setFile f { e.ftable f with
      type := type, readable := readable, writable := writable, ip := ip, off := off, major := major })
  | setOff f off, e => .ok ((),e.setFile f { e.ftable f with off := off })
  | proc, e => .ok (e.proc p,e)
  | fdalloc f, e => .ok (e.fdalloc p f)
  | setFd fd f, e => .ok ((),e.setFd p fd f)
  | setCwd cwd, e => .ok ((),e.setCwd p cwd)
  | forkProc child, e => .ok ((),e.setProc child (e.proc p))
  | copyout dstva src, e =>
    let r := (e.proc p).mem.copyout dstva src
    .ok (r.2,e.setProc p { e.proc p with mem := r.1 })
  | external c, e => .ok (e.external c,e)

end EnvOp

/-- Operations of file system code; `β` is the type of `struct buf *`. -/
inductive Op (β : Type)
  /-- `bget` up to the release of `bcache.lock` -/
  | bget (blockno : ℕ)
  | acquiresleep (b : β)
  /-- the rest of `bread`: read the disk unless `b->valid` -/
  | fill (b : β)
  | data (b : β)
  | setData (b : β) (d : Block)
  | bwrite (b : β)
  | releasesleep (b : β)
  /-- the rest of `brelse`, under `bcache.lock` -/
  | bput (b : β)
  | bunpin (b : β)
  /-- read `struct log` -/
  | log
  | setLh (lh : Logheader)
  | beginOp
  | logWrite (b : β)
  | endOp
  | commitDone
  /-- `copyin(pagetable, b->data + off, srcva, len)` -/
  | copyin (b : β) (off srcva len : ℕ)
  | env (o : EnvOp)
  | panic (p : Panic)

namespace Op
variable {β : Type}

@[reducible] def Res : Op β → Type
  | bget _ => β
  | data _ => Block
  | log => Log
  | endOp => Bool
  | copyin _ _ _ _ => Bool
  | env o => o.Res
  | panic _ => Empty
  | _ => Unit

end Op

abbrev Code (β α : Type) := Prog (Op β) Op.Res α

section Wrappers
variable {β : Type}

def bread (blockno : ℕ) : Code β β := do
  let b : β ← Prog.call (Op.bget blockno)
  Prog.call (Op.acquiresleep b)
  Prog.call (Op.fill b)
  pure b

def brelse (b : β) : Code β Unit := do
  Prog.call (Op.releasesleep b)
  Prog.call (Op.bput b)

def bdata (b : β) : Code β Block := Prog.call (Op.data b)
def setData (b : β) (d : Block) : Code β Unit := Prog.call (Op.setData b d)
def bwrite (b : β) : Code β Unit := Prog.call (Op.bwrite b)
def bunpin (b : β) : Code β Unit := Prog.call (Op.bunpin b)
def getLog : Code β Log := Prog.call Op.log
def setLh (lh : Logheader) : Code β Unit := Prog.call (Op.setLh lh)
def beginOp : Code β Unit := Prog.call Op.beginOp
def logWrite (b : β) : Code β Unit := Prog.call (Op.logWrite b)
def env (o : EnvOp) : Code β o.Res := Prog.call (Op.env o)
def panic {α : Type} (p : Panic) : Code β α := Prog.op (Op.panic p) (fun e => nomatch e)

end Wrappers

/-- The sequential machine. `blk b` is what `bread(b)` returns, `disk b` what the
disk holds. -/
structure St where
  blk : Blocks
  disk : Blocks
  log : Log
  env : Env

namespace St

def setBlk (s : St) (b : ℕ) (d : Block) : St := { s with blk := update s.blk b d }
def setDisk (s : St) (b : ℕ) (d : Block) : St := { s with disk := update s.disk b d }

@[simp] theorem setBlk_blk (s : St) (b : ℕ) (d : Block) :
    (s.setBlk b d).blk = update s.blk b d := rfl
@[simp] theorem setBlk_disk (s : St) (b : ℕ) (d : Block) : (s.setBlk b d).disk = s.disk := rfl
@[simp] theorem setBlk_log (s : St) (b : ℕ) (d : Block) : (s.setBlk b d).log = s.log := rfl
@[simp] theorem setBlk_env (s : St) (b : ℕ) (d : Block) : (s.setBlk b d).env = s.env := rfl
@[simp] theorem setDisk_blk (s : St) (b : ℕ) (d : Block) : (s.setDisk b d).blk = s.blk := rfl
@[simp] theorem setDisk_disk (s : St) (b : ℕ) (d : Block) :
    (s.setDisk b d).disk = update s.disk b d := rfl
@[simp] theorem setDisk_log (s : St) (b : ℕ) (d : Block) : (s.setDisk b d).log = s.log := rfl
@[simp] theorem setDisk_env (s : St) (b : ℕ) (d : Block) : (s.setDisk b d).env = s.env := rfl

/-- One operation of process `p`, no other process running. A buffer is its block
number, so `bget` and the sleep-locks of buffers do nothing here. -/
def exec (p : Pid) : Prog.Handler (Op ℕ) Op.Res St Halt
  | .bget blockno, s => .ok (blockno,s)
  | .acquiresleep _, s => .ok ((),s)
  | .fill _, s => .ok ((),s)
  | .data b, s => .ok (s.blk b,s)
  | .setData b d, s => .ok ((),s.setBlk b d)
  | .bwrite b, s => .ok ((),s.setDisk b (s.blk b))
  | .releasesleep _, s => .ok ((),s)
  | .bput _, s => .ok ((),s)
  | .bunpin _, s => .ok ((),s)
  | .log, s => .ok (s.log,s)
  | .setLh lh, s => .ok ((),{ s with log := { s.log with lh := lh } })
  | .beginOp, s =>
    match s.log.beginOp with
    | some l => .ok ((),{ s with log := l })
    | none => .error .sleep
  | .logWrite b, s =>
    match s.log.logWrite b with
    | .ok (_,l) => .ok ((),{ s with log := l })
    | .error e => .error (.panic e)
  | .endOp, s =>
    match s.log.endOp with
    | .ok (r,l) => .ok (r,{ s with log := l })
    | .error e => .error (.panic e)
  | .commitDone, s => .ok ((),{ s with log := s.log.commitDone })
  | .copyin b off srcva len, s =>
    let r := (s.env.proc p).mem.copyin srcva len
    .ok (r.2,s.setBlk b ((s.blk b).splice off r.1))
  | .env o, s =>
    match o.exec p s.env with
    | .ok (r,e) => .ok (r,{ s with env := e })
    | .error e => .error e
  | .panic q, _ => .error (.panic q)

end St

/-! ## Rules for the wrappers in the sequential machine -/

section Rules
variable {p : Pid} {X : Halt → Prop} {C : St → Prop} {α : Type} {s : St} {Q : α → St → Prop}

theorem wp_bread {b : ℕ} {f : ℕ → Code ℕ α} :
    ((bread b : Code ℕ ℕ).bind f).wp (St.exec p) X Q s ↔ (f b).wp (St.exec p) X Q s := by
  with_unfolding_all exact Iff.rfl

theorem wp_brelse {b : ℕ} {f : Unit → Code ℕ α} :
    ((brelse b : Code ℕ Unit).bind f).wp (St.exec p) X Q s ↔ (f ()).wp (St.exec p) X Q s := by
  with_unfolding_all exact Iff.rfl

theorem wp_brelse_last {b : ℕ} {Q : Unit → St → Prop} :
    (brelse b : Code ℕ Unit).wp (St.exec p) X Q s ↔ Q () s := by
  with_unfolding_all exact Iff.rfl

theorem wp_bdata {b : ℕ} {f : Block → Code ℕ α} :
    ((bdata b : Code ℕ Block).bind f).wp (St.exec p) X Q s ↔
      (f (s.blk b)).wp (St.exec p) X Q s := by
  with_unfolding_all exact Iff.rfl

theorem wp_setData {b : ℕ} {d : Block} {f : Unit → Code ℕ α} :
    ((setData b d : Code ℕ Unit).bind f).wp (St.exec p) X Q s ↔
      (f ()).wp (St.exec p) X Q (s.setBlk b d) := by
  with_unfolding_all exact Iff.rfl

theorem wp_env_ok {o : EnvOp} {r : o.Res} {e : Env} {f : o.Res → Code ℕ α}
    (ho : o.exec p s.env = .ok (r,e)) :
    ((env o : Code ℕ o.Res).bind f).wp (St.exec p) X Q s ↔
      (f r).wp (St.exec p) X Q { s with env := e } := by
  refine Prog.wp_op_ok (o := Op.env o) ?_
  simp only [St.exec,ho]

theorem wp_env_last {o : EnvOp} {r : o.Res} {e : Env} {Q : o.Res → St → Prop}
    (ho : o.exec p s.env = .ok (r,e)) :
    (env o : Code ℕ o.Res).wp (St.exec p) X Q s ↔ Q r { s with env := e } := by
  refine (Prog.wp_op_ok (o := Op.env o) (t := { s with env := e }) (r := r) ?_).trans (Prog.wp_ret _ _ _)
  simp only [St.exec,ho]

theorem wp_inode {ip : Fin NINODE} {f : Inode → Code ℕ α} :
    ((env (.inode ip) : Code ℕ Inode).bind f).wp (St.exec p) X Q s ↔
      (f (s.env.itable ip)).wp (St.exec p) X Q s := by
  with_unfolding_all exact Iff.rfl

theorem wp_panic {q : Panic} :
    (panic q : Code ℕ α).wp (St.exec p) X Q s ↔ X (.panic q) := by
  with_unfolding_all exact Iff.rfl

end Rules

end Xv6
