import Xv6.Disk.Format

/-! # Kernel state and its lock-protected sections

The in-memory structures of `log.c`, `fs.c` and `file.c`, and each section that
runs under `log.lock`, `itable.lock`, `ftable.lock` or a sleep-lock's spin lock as
one function on that state. Everything here is a single atomic step of a process;
the code that runs between the sections is in the program modules.
-/
namespace Xv6
open Library
open Function (update update_self)

inductive Panic
  | bgetNoBuffers | bwrite | brelse
  | logCommitting | tooBigTransaction | logWriteOutsideTrans
  | freeingFreeBlock | ilock | ilockNoType | iunlock | igetNoInodes | bmapOutOfRange
  | dirlookupNotDir | dirlookupRead | dirlinkRead | isdiremptyReadi
  | unlinkNlink | unlinkWritei | filedup | fileclose | fileread | filewrite | initExiting | kerneltrap
  deriving DecidableEq

/-- Why an operation does not return: the kernel panics, or the process sleeps. -/
inductive Halt
  | panic (p : Panic)
  | sleep
  deriving DecidableEq

/-- An index into `proc[NPROC]`. -/
abbrev Pid := Fin NPROC

/-! ## The log -/

/-- The home block numbers `block[0..n)` of the in-memory header. -/
structure Logheader where
  block : List ℕ
  length_le : block.length ≤ LOGSIZE

namespace Logheader

def n (lh : Logheader) : ℕ := lh.block.length

def empty : Logheader := ⟨[],Nat.zero_le _⟩

@[simp] theorem empty_block : empty.block = [] := rfl
@[simp] theorem empty_n : empty.n = 0 := rfl

theorem ext_block {a b : Logheader} (h : a.block = b.block) : a = b := by
  cases a
  cases b
  cases h
  rfl

/-- The loop of `write_head`: entries from `n` on keep what the buffer held. -/
def toBlock (d : Block) (lh : Logheader) : Block :=
  (d.splice 0 (leBytes 4 lh.n)).splice 4 (lh.block.flatMap (leBytes 4))

def count (d : Block) : ℕ := ofLe (d.slice 0 4)

/-- The loop of `read_head`. `lh->n` is an int; `write_head` never stores one above `LOGSIZE`. -/
def ofBlock (d : Block) : Logheader where
  block := if count d < 2 ^ 31 then
      (List.range (min (count d) LOGSIZE)).map (fun i => ofLe (d.slice (4 + 4 * i) 4))
    else []
  length_le := by
    split
    · simp
    · simp

private theorem length_entries (lh : Logheader) :
    (lh.block.flatMap (leBytes 4)).length = 4 * lh.n :=
  length_flatMap_const (fun b _ => leBytes_length 4 b)

theorem count_toBlock (d : Block) (lh : Logheader) : count (lh.toBlock d) = lh.n := by
  have hn : lh.n ≤ 30 := lh.length_le
  have h : (d.splice 0 (leBytes 4 lh.n)).slice 0 (leBytes 4 lh.n).length = leBytes 4 lh.n :=
    Bytes.slice_splice_same d (by rw [leBytes_length]; simp only [BSIZE]; omega)
  rw [leBytes_length] at h
  unfold count toBlock
  rw [Bytes.slice_splice_disjoint _ (by omega),h]
  exact ofLe_leBytes_of_lt (by omega)

theorem ofBlock_toBlock (d : Block) (lh : Logheader) (hb : ∀ b ∈ lh.block, b < 2 ^ 32) :
    ofBlock (lh.toBlock d) = lh := by
  have hn : lh.block.length ≤ 30 := lh.length_le
  have hentry : ∀ i, (hi : i < lh.block.length) →
      ofLe ((lh.toBlock d).slice (4 + 4 * i) 4) = lh.block[i] := by
    intro i hi
    unfold toBlock
    rw [Bytes.slice_splice_sub _ (by rw [length_entries,n]; omega)
      (by rw [length_entries,n]; simp only [BSIZE]; omega),
      take_drop_flatMap (fun b _ => leBytes_length 4 b) hi]
    exact ofLe_leBytes_of_lt (by simpa using hb _ (List.getElem_mem hi))
  apply ext_block
  simp only [ofBlock,count_toBlock]
  rw [if_pos (by rw [n]; omega),Nat.min_eq_left (by rw [n]; exact lh.length_le)]
  apply List.ext_getElem (by simp [n])
  intro i h₁ h₂
  simpa using hentry i h₂

theorem getD_mem {lh : Logheader} {i : ℕ} (hi : i < lh.n) : lh.block.getD i 0 ∈ lh.block := by
  rw [List.getD_eq_getElem _ 0 hi]
  exact List.getElem_mem hi

theorem forall_mem {lh : Logheader} {P : ℕ → Prop} (h : ∀ i, i < lh.n → P (lh.block.getD i 0)) :
    ∀ b ∈ lh.block, P b := by
  intro b hb
  obtain ⟨i,hi,rfl⟩ := List.getElem_of_mem hb
  rw [← List.getD_eq_getElem _ 0 hi]
  exact h i hi

theorem ofBlock_of_count_zero {d : Block} (h : count d = 0) : ofBlock d = empty := by
  apply ext_block
  simp [ofBlock,h]

end Logheader

structure Log where
  start : ℕ
  size : ℕ
  outstanding : ℤ
  /-- in `commit()`, please wait -/
  committing : Bool
  lh : Logheader

namespace Log

/-- One pass through the loop of `begin_op`; `none` when the caller has to sleep. -/
def beginOp (l : Log) : Option Log :=
  if l.committing then none
  else if (LOGSIZE : ℤ) < l.lh.n + (l.outstanding + 1) * MAXOPBLOCKS then none
  else some { l with outstanding := l.outstanding + 1 }

/-- `log_write` under `log.lock`. The result says whether the block was added, and
so whether `bpin` was called. -/
def logWrite (l : Log) (blockno : ℕ) : Except Panic (Bool × Log) :=
  if h : LOGSIZE ≤ l.lh.n ∨ (l.size : ℤ) - 1 ≤ l.lh.n then .error .tooBigTransaction
  else if l.outstanding < 1 then .error .logWriteOutsideTrans
  else if blockno ∈ l.lh.block then .ok (false,l)
  else .ok (true,{ l with lh := ⟨l.lh.block ++ [blockno],by
    have := l.lh.length_le
    simp only [Logheader.n,LOGSIZE,not_or] at h
    simp only [List.length_append,List.length_singleton,LOGSIZE]
    omega⟩ })

/-- The first section of `end_op`; the result is `do_commit`. -/
def endOp (l : Log) : Except Panic (Bool × Log) :=
  if l.committing then .error .logCommitting
  else if l.outstanding - 1 = 0 then
    .ok (true,{ l with outstanding := l.outstanding - 1, committing := true })
  else .ok (false,{ l with outstanding := l.outstanding - 1 })

def commitDone (l : Log) : Log := { l with committing := false }

theorem beginOp_eq_some {l l' : Log} (h : l.beginOp = some l') :
    l.committing = false ∧ (l.lh.n : ℤ) + (l.outstanding + 1) * MAXOPBLOCKS ≤ LOGSIZE ∧
      l' = { l with outstanding := l.outstanding + 1 } := by
  unfold beginOp at h
  split at h
  · cases h
  · split at h
    · cases h
    · rename_i hc hn
      cases h
      exact ⟨by simpa using hc,by omega,rfl⟩

theorem logWrite_eq_ok {l l' : Log} {b : ℕ} {r : Bool} (h : l.logWrite b = .ok (r,l')) :
    l.lh.n < LOGSIZE ∧ l.lh.n + 1 < l.size ∧ 1 ≤ l.outstanding ∧
      l'.start = l.start ∧ l'.size = l.size ∧ l'.outstanding = l.outstanding ∧
      l'.committing = l.committing ∧
      l'.lh.block = if b ∈ l.lh.block then l.lh.block else l.lh.block ++ [b] := by
  unfold logWrite at h
  split at h
  · cases h
  · rename_i hsize
    split at h
    · cases h
    · split at h
      · rename_i hb
        cases h
        rw [if_pos hb]
        exact ⟨by omega,by omega,by omega,rfl,rfl,rfl,rfl,rfl⟩
      · rename_i hb
        cases h
        rw [if_neg hb]
        exact ⟨by omega,by omega,by omega,rfl,rfl,rfl,rfl,rfl⟩

theorem endOp_eq_ok {l l' : Log} {r : Bool} (h : l.endOp = .ok (r,l')) :
    l.committing = false ∧ (r = true ↔ l.outstanding = 1) ∧
      l' = { l with outstanding := l.outstanding - 1, committing := r } := by
  unfold endOp at h
  split at h
  · cases h
  · rename_i hc
    split at h
    · cases h
      exact ⟨by simpa using hc,by simp; omega,rfl⟩
    · cases h
      refine ⟨by simpa using hc,by simp; omega,?_⟩
      simp only [Bool.not_eq_true] at hc
      rw [hc]

end Log

/-! ## Inodes, files and processes -/

structure Inode where
  dev : ℕ
  inum : ℕ
  ref : ℕ
  lock : Option Pid
  valid : Bool
  din : Dinode

inductive FileType
  | none | pipe | inode | device
  deriving DecidableEq

structure File where
  type : FileType
  ref : ℕ
  readable : Bool
  writable : Bool
  pipe : ℕ
  ip : Fin NINODE
  off : BitVec 32
  major : BitVec 16

abbrev PGSIZE : ℕ := 4096
abbrev MAXVA : ℕ := 2 ^ 38

/-- What the kernel can reach of a process's memory: the bytes, and the pages that
`walkaddr` and the checks of `copyout` accept. -/
structure UserMem where
  byte : ℕ → Byte
  readable : ℕ → Bool
  writable : ℕ → Bool

namespace UserMem

/-- The loop of `copyin`: the bytes moved before it returned, and whether it
returned 0. Every round moves at least one byte, so `len` rounds are enough. -/
def copyinFrom (u : UserMem) : ℕ → ℕ → ℕ → List Byte × Bool
  | 0, _, len => ([],decide (len = 0))
  | fuel + 1, srcva, len =>
    if len = 0 then ([],true)
    else if srcva < MAXVA ∧ u.readable (srcva / PGSIZE) then
      let n := min (PGSIZE - srcva % PGSIZE) len
      let rest := copyinFrom u fuel (srcva - srcva % PGSIZE + PGSIZE) (len - n)
      ((List.range n).map (fun i => u.byte (srcva + i)) ++ rest.1,rest.2)
    else ([],false)

def copyin (u : UserMem) (srcva len : ℕ) : List Byte × Bool := u.copyinFrom len srcva len

def copyoutFrom (u : UserMem) : ℕ → ℕ → List Byte → UserMem × Bool
  | 0, _, src => (u,src.isEmpty)
  | fuel + 1, dstva, src =>
    if src.isEmpty then (u,true)
    else if dstva < MAXVA ∧ u.writable (dstva / PGSIZE) then
      let n := min (PGSIZE - dstva % PGSIZE) src.length
      let u' := { u with byte := fun a =>
        if dstva ≤ a ∧ a < dstva + n then src.getD (a - dstva) 0 else u.byte a }
      copyoutFrom u' fuel (dstva - dstva % PGSIZE + PGSIZE) (src.drop n)
    else (u,false)

def copyout (u : UserMem) (dstva : ℕ) (src : List Byte) : UserMem × Bool :=
  u.copyoutFrom src.length dstva src

def Accessible (page : ℕ → Bool) (va n : ℕ) : Prop :=
  ∀ a, va ≤ a → a < va + n → a < MAXVA ∧ page (a / PGSIZE) = true

theorem Accessible.sub {page : ℕ → Bool} {va n va' n' : ℕ} (h : Accessible page va n) (h₁ : va ≤ va')
    (h₂ : va' + n' ≤ va + n) : Accessible page va' n' :=
  fun a ha ha' => h a (by omega) (by omega)

def put (u : UserMem) (va : ℕ) (src : List Byte) : UserMem :=
  { u with byte := fun a => if va ≤ a ∧ a < va + src.length then src.getD (a - va) 0 else u.byte a }

@[simp] theorem put_nil (u : UserMem) (va : ℕ) : u.put va [] = u := by
  have h (a : ℕ) : ¬(va ≤ a ∧ a < va) := by omega
  simp [put,h]

theorem put_append (u : UserMem) (va : ℕ) (xs ys : List Byte) :
    (u.put va xs).put (va + xs.length) ys = u.put va (xs ++ ys) := by
  simp only [put,List.length_append]
  congr 1
  funext a
  by_cases hx : va ≤ a ∧ a < va + xs.length
  · rw [if_neg (by omega),if_pos hx,if_pos (by omega),List.getD_append _ _ _ _ (by omega)]
  · rw [if_neg hx]
    by_cases hy : va + xs.length ≤ a ∧ a < va + xs.length + ys.length
    · rw [if_pos hy,if_pos (by omega),List.getD_append_right _ _ _ _ (by omega),Nat.sub_sub]
    · rw [if_neg hy,if_neg (by omega)]

private theorem put_take (u : UserMem) (va n : ℕ) (src : List Byte) (hn : n ≤ src.length) :
    ({ u with byte := fun a => if va ≤ a ∧ a < va + n then src.getD (a - va) 0 else u.byte a } : UserMem) =
      u.put va (src.take n) := by
  simp only [put,List.length_take,Nat.min_eq_left hn]
  congr 1
  funext a
  split
  · rename_i ha
    simp only [List.getD_eq_getElem?_getD]
    rw [List.getElem?_take_of_lt (by omega)]
  · rfl

theorem copyoutFrom_eq (u : UserMem) (fuel va : ℕ) (src : List Byte) (hfuel : src.length ≤ fuel)
    (ha : Accessible u.writable va src.length) : u.copyoutFrom fuel va src = (u.put va src,true) := by
  induction fuel generalizing u va src with
  | zero =>
    have hnil : src = [] := List.eq_nil_of_length_eq_zero (by omega)
    simp [copyoutFrom,hnil]
  | succ fuel ih =>
    rw [copyoutFrom]
    split
    · rename_i hnil
      rw [List.isEmpty_iff.mp hnil,put_nil]
    · rename_i hne
      have hpos : 0 < src.length := by
        rw [List.length_pos_iff]
        simpa using hne
      rw [if_pos (ha va (Nat.le_refl _) (by omega))]
      dsimp only
      rw [put_take _ _ _ _ (Nat.min_le_right _ _)]
      have hPG : va % PGSIZE < PGSIZE := Nat.mod_lt _ (by decide)
      simp only [PGSIZE] at hPG ⊢
      rcases Nat.le_total src.length (4096 - va % 4096) with hle | hle
      · -- the last page
        rw [Nat.min_eq_right hle,List.take_length,List.drop_length,
          ih _ _ _ (by simp) (fun a h₁ h₂ => by simp only [List.length_nil] at h₂; omega),put_nil]
      · rw [Nat.min_eq_left hle]
        have hlen : (src.take (4096 - va % 4096)).length = 4096 - va % 4096 := by
          rw [List.length_take]
          omega
        have hva : va - va % 4096 + 4096 = va + (src.take (4096 - va % 4096)).length := by
          rw [hlen]
          have := Nat.mod_le va 4096
          omega
        rw [hva,ih,put_append,List.take_append_drop]
        · rw [List.length_drop]
          omega
        · refine Accessible.sub ha (by omega) ?_
          rw [List.length_drop]
          omega

theorem copyoutFrom_accessible (u : UserMem) (fuel va : ℕ) (src : List Byte)
    (h : (u.copyoutFrom fuel va src).2 = true) : Accessible u.writable va src.length := by
  induction fuel generalizing u va src with
  | zero =>
    have hnil : src = [] := List.isEmpty_iff.mp h
    intro a ha ha'
    simp only [hnil,List.length_nil] at ha'
    omega
  | succ fuel ih =>
    rw [copyoutFrom] at h
    split at h
    · rename_i hnil
      intro a ha ha'
      simp only [List.isEmpty_iff.mp hnil,List.length_nil] at ha'
      omega
    · split at h
      · rename_i hva
        have hrest := ih _ _ _ h
        intro a ha ha'
        rw [List.length_drop] at hrest
        have hM := hva.1
        simp only [PGSIZE,MAXVA] at hva hrest hM ⊢
        -- either on the first page, whose check passed, or on a later one
        by_cases hpage : a < va - va % 4096 + 4096
        · have hdiv : a / 4096 = va / 4096 := by omega
          rw [hdiv]
          exact ⟨by omega,hva.2⟩
        · exact hrest a (by omega) (by omega)
      · cases h

theorem copyout_ok {u u' : UserMem} {va : ℕ} {src : List Byte} (h : u.copyout va src = (u',true)) :
    u' = u.put va src := by
  have ha := copyoutFrom_accessible u src.length va src (by rw [← copyout,h])
  rw [copyout,copyoutFrom_eq _ _ _ _ (Nat.le_refl _) ha] at h
  exact (congrArg Prod.fst h).symm

theorem copyoutFrom_writable (u : UserMem) (fuel va : ℕ) (src : List Byte) :
    (u.copyoutFrom fuel va src).1.writable = u.writable := by
  induction fuel generalizing u va src with
  | zero => rfl
  | succ fuel ih =>
    rw [copyoutFrom]
    split
    · rfl
    · split
      · rw [ih]
      · rfl

theorem copyinFrom_eq (u : UserMem) (fuel va len : ℕ) (hfuel : len ≤ fuel)
    (ha : Accessible u.readable va len) :
    u.copyinFrom fuel va len = ((List.range len).map (fun i => u.byte (va + i)),true) := by
  induction fuel generalizing va len with
  | zero =>
    have h0 : len = 0 := by omega
    simp [copyinFrom,h0]
  | succ fuel ih =>
    rw [copyinFrom]
    split
    · rename_i h0
      simp [h0]
    · rw [if_pos (ha va (Nat.le_refl _) (by omega))]
      have hPG : va % PGSIZE < PGSIZE := Nat.mod_lt _ (by decide)
      simp only [PGSIZE] at hPG ⊢
      rcases Nat.le_total len (4096 - va % 4096) with hle | hle
      · rw [Nat.min_eq_right hle,Nat.sub_self,
          ih _ 0 (Nat.zero_le _) (fun a h₁ h₂ => by omega)]
        simp
      · have hva : va - va % 4096 + 4096 = va + (4096 - va % 4096) := by
          have := Nat.mod_le va 4096
          omega
        rw [Nat.min_eq_left hle,hva,ih _ _ (by omega) (ha.sub (by omega) (by omega))]
        have hrange : List.range len = List.range (4096 - va % 4096) ++
            (List.range (len - (4096 - va % 4096))).map (4096 - va % 4096 + ·) := by
          rw [← List.range_add,Nat.add_sub_cancel' hle]
        rw [hrange,List.map_append,List.map_map]
        simp only [Function.comp_def,Nat.add_assoc]

theorem copyinFrom_length (u : UserMem) (fuel va len : ℕ) : (u.copyinFrom fuel va len).1.length ≤ len := by
  induction fuel generalizing va len with
  | zero => exact Nat.zero_le _
  | succ fuel ih =>
    rw [copyinFrom]
    split
    · exact Nat.zero_le _
    · split
      · have := ih (va - va % PGSIZE + PGSIZE) (len - min (PGSIZE - va % PGSIZE) len)
        simp only [List.length_append,List.length_map,List.length_range]
        omega
      · exact Nat.zero_le _

end UserMem

structure Proc where
  ofile : Fin NOFILE → Option (Fin NFILE)
  /-- current directory; `none` in a slot that is not in use -/
  cwd : Option (Fin NINODE)
  mem : UserMem

inductive External
  | piperead (pi : ℕ) (addr : ℕ) (n : ℤ)
  | pipewrite (pi : ℕ) (addr : ℕ) (n : ℤ)
  | pipeclose (pi : ℕ) (writable : Bool)
  | devread (major : BitVec 16) (addr : ℕ) (n : ℤ)
  | devwrite (major : BitVec 16) (addr : ℕ) (n : ℤ)

/-- `itable`, `ftable`, `proc` and the answers of the drivers. -/
structure Env where
  itable : Fin NINODE → Inode
  ftable : Fin NFILE → File
  proc : Pid → Proc
  external : External → ℤ

namespace Env

def zero : Env where
  itable := fun _ => ⟨0,0,0,none,false,⟨0,0,0,0,0,fun _ => 0⟩⟩
  ftable := fun _ => ⟨.none,0,false,false,0,0,0,0⟩
  proc := fun _ => ⟨fun _ => none,none,⟨fun _ => 0,fun _ => false,fun _ => false⟩⟩
  external := fun _ => 0

def setInode (e : Env) (ip : Fin NINODE) (i : Inode) : Env :=
  { e with itable := update e.itable ip i }

def setFile (e : Env) (f : Fin NFILE) (x : File) : Env :=
  { e with ftable := update e.ftable f x }

def setProc (e : Env) (p : Pid) (x : Proc) : Env :=
  { e with proc := update e.proc p x }

def setDin (e : Env) (ip : Fin NINODE) (d : Dinode) : Env := e.setInode ip { e.itable ip with din := d }

@[simp] theorem setDin_itable_self (e : Env) (ip : Fin NINODE) (d : Dinode) :
    (e.setDin ip d).itable ip = { e.itable ip with din := d } := update_self _ _ _

@[simp] theorem setDin_setDin (e : Env) (ip : Fin NINODE) (d d' : Dinode) :
    (e.setDin ip d).setDin ip d' = e.setDin ip d' := by
  simp [setDin,setInode]

@[simp] theorem setDin_self (e : Env) (ip : Fin NINODE) : e.setDin ip (e.itable ip).din = e := by
  simp [setDin,setInode]

def iget (e : Env) (dev inum : ℕ) : Except Panic (Fin NINODE × Env) :=
  match (List.finRange NINODE).find? (fun i =>
      decide (0 < (e.itable i).ref ∧ (e.itable i).dev = dev ∧ (e.itable i).inum = inum)) with
  | some ip => .ok (ip,e.setInode ip { e.itable ip with ref := (e.itable ip).ref + 1 })
  | none =>
    match (List.finRange NINODE).find? (fun i => decide ((e.itable i).ref = 0)) with
    | some ip => .ok (ip,e.setInode ip
        { e.itable ip with dev := dev, inum := inum, ref := 1, valid := false })
    | none => .error .igetNoInodes

def idup (e : Env) (ip : Fin NINODE) : Env :=
  e.setInode ip { e.itable ip with ref := (e.itable ip).ref + 1 }

def ilock (e : Env) (p : Pid) (ip : Fin NINODE) : Except Halt Env :=
  if (e.itable ip).ref < 1 then .error (.panic .ilock)
  else if (e.itable ip).lock ≠ none then .error .sleep
  else .ok (e.setInode ip { e.itable ip with lock := some p })

def iunlock (e : Env) (p : Pid) (ip : Fin NINODE) : Except Halt Env :=
  if (e.itable ip).lock ≠ some p ∨ (e.itable ip).ref < 1 then .error (.panic .iunlock)
  else .ok (e.setInode ip { e.itable ip with lock := none })

/-- The first section of `iput`. When the inode has to be freed it is locked and the
result is true; otherwise the reference is dropped at once. -/
def iputTest (e : Env) (p : Pid) (ip : Fin NINODE) : Except Halt (Bool × Env) :=
  if (e.itable ip).ref = 1 ∧ (e.itable ip).valid ∧ (e.itable ip).din.nlink = 0 then
    if (e.itable ip).lock ≠ none then .error .sleep
    else .ok (true,e.setInode ip { e.itable ip with lock := some p })
  else .ok (false,e.setInode ip { e.itable ip with ref := (e.itable ip).ref - 1 })

def ireleasesleep (e : Env) (ip : Fin NINODE) : Env :=
  e.setInode ip { e.itable ip with lock := none }

def idrop (e : Env) (ip : Fin NINODE) : Env :=
  e.setInode ip { e.itable ip with ref := (e.itable ip).ref - 1 }

def filealloc (e : Env) : Option (Fin NFILE) × Env :=
  match (List.finRange NFILE).find? (fun f => decide ((e.ftable f).ref = 0)) with
  | some f => (some f,e.setFile f { e.ftable f with ref := 1 })
  | none => (none,e)

def filedup (e : Env) (f : Fin NFILE) : Except Panic Env :=
  if (e.ftable f).ref < 1 then .error .filedup
  else .ok (e.setFile f { e.ftable f with ref := (e.ftable f).ref + 1 })

/-- The section of `fileclose`; the result is the file to be released, if this was
the last reference. -/
def fileclose (e : Env) (f : Fin NFILE) : Except Panic (Option File × Env) :=
  if (e.ftable f).ref < 1 then .error .fileclose
  else if 0 < (e.ftable f).ref - 1 then
    .ok (none,e.setFile f { e.ftable f with ref := (e.ftable f).ref - 1 })
  else .ok (some (e.ftable f),e.setFile f { e.ftable f with ref := 0, type := .none })

def fdalloc (e : Env) (p : Pid) (f : Fin NFILE) : Option (Fin NOFILE) × Env :=
  match (List.finRange NOFILE).find? (fun fd => decide ((e.proc p).ofile fd = none)) with
  | some fd => (some fd,e.setProc p
      { e.proc p with ofile := update (e.proc p).ofile fd (some f) })
  | none => (none,e)

def setFd (e : Env) (p : Pid) (fd : Fin NOFILE) (f : Option (Fin NFILE)) : Env :=
  e.setProc p { e.proc p with ofile := update (e.proc p).ofile fd f }

def setCwd (e : Env) (p : Pid) (cwd : Option (Fin NINODE)) : Env :=
  e.setProc p { e.proc p with cwd := cwd }

end Env

end Xv6
