import Xv6.Fs.Syscalls
import Xv6.Library.Moves
import Xv6.Vm.Process
import Xv6.Vm.Machine

/-! # `exec.c`

`exec` is code of both kinds: it reads a file and builds an address space. It runs on the file
system's sequential machine and the page table code's machine side by side.
-/
namespace Xv6.Exec
open Library Vm

inductive KOp
  | fs (o : Op ℕ)
  | vm (o : VmOp)
  /-- the panic of `loadseg` -/
  | loadseg

@[reducible] def KOp.Res : KOp → Type
  | fs o => o.Res
  | vm o => o.Res
  | loadseg => Empty

abbrev KCode (α : Type) := Prog KOp KOp.Res α

section Lift
variable {α : Type}

def fs (c : Code ℕ α) : KCode α := c.map KOp.fs fun _ r => r

def vm (c : VmCode α) : KCode α := c.map KOp.vm fun _ r => r

def loadsegPanic : KCode α := Prog.op KOp.loadseg (fun e => nomatch e)

end Lift

structure Kernel where
  fs : St
  vm : Machine

inductive KHalt
  | fs (e : Halt)
  | vm (e : Stop)
  | loadseg

def exec (p : Pid) (ram : Ram) : Prog.Handler KOp KOp.Res Kernel KHalt
  | .fs o, k =>
    match St.exec p o k.fs with
    | .ok (r,s) => .ok (r,{ k with fs := s })
    | .error e => .error (.fs e)
  | .vm o, k =>
    match Machine.exec ram o k.vm with
    | .ok (r,m) => .ok (r,{ k with vm := m })
    | .error e => .error (.vm e)
  | .loadseg, _ => .error .loadseg

/-! ## `elf.h` -/

abbrev ELF_MAGIC : ℕ := 0x464C457F
abbrev ELF_PROG_LOAD : ℕ := 1

/-- `sizeof(struct elfhdr)` and `sizeof(struct proghdr)` -/
abbrev ELFHDR_SIZE : ℕ := 64
abbrev PROGHDR_SIZE : ℕ := 56

/-- The little-endian number in `n` bytes from `off`. -/
def field (bs : List Byte) (off n : ℕ) : ℕ := ofLe ((bs.drop off).take n)

structure Elfhdr where
  magic : ℕ
  entry : ℕ
  phoff : ℕ
  phnum : ℕ

def Elfhdr.ofBytes (bs : List Byte) : Elfhdr where
  magic := field bs 0 4
  entry := field bs 24 8
  phoff := field bs 32 8
  phnum := field bs 56 2

structure Proghdr where
  type : ℕ
  flags : ℕ
  off : ℕ
  vaddr : ℕ
  filesz : ℕ
  memsz : ℕ

def Proghdr.ofBytes (bs : List Byte) : Proghdr where
  type := field bs 0 4
  flags := field bs 4 4
  off := field bs 8 8
  vaddr := field bs 16 8
  filesz := field bs 32 8
  memsz := field bs 40 8

/-! ## `exec.c` -/

def flags2perm (flags : ℕ) : BitVec 64 :=
  (if flags.testBit 0 then PTE_X else 0) ||| (if flags.testBit 1 then PTE_W else 0)

/-- The fields of `struct proc` that `exec` replaces, with the trapframe's page. -/
structure Task where
  space : Space
  name : List Byte

abbrev MAXARG : ℕ := 32
abbrev USERSTACK : ℕ := 2

section Code
variable (sb : Superblock)

/-- The loop of `loadseg`, `n` rounds before `i >= sz`. -/
def loadsegFrom (pagetable va : ℕ) (ip : Fin NINODE) (offset sz : ℕ) : ℕ → ℕ → KCode Bool
  | 0, _ => pure true
  | k + 1, i => do
    let pa ← vm (walkaddr pagetable (va + i))
    if pa = 0 then loadsegPanic
    else do
      let n := if sz - i < PGSIZE then sz - i else PGSIZE
      let r ← fs (readi sb ip .kernel ((offset + i) % 2 ^ 32) n)
      vm (poke pa 0 r.2)
      if r.1 = some n then loadsegFrom pagetable va ip offset sz k (i + PGSIZE) else pure false

def loadseg (pagetable va : ℕ) (ip : Fin NINODE) (offset sz : ℕ) : KCode Bool :=
  let sz := sz % 2 ^ 32
  loadsegFrom sb pagetable va ip (offset % 2 ^ 32) sz ((sz + (PGSIZE - 1)) / PGSIZE) 0

/-- The loop over the program headers, `n` rounds before `i >= elf.phnum`. `off` is an int, which
becomes a uint in `readi`. The result is whether all went well, and the size so far. -/
def loadFrom (ip : Fin NINODE) (pagetable : ℕ) : ℕ → ℕ → ℕ → KCode (Bool × ℕ)
  | 0, _, sz => pure (true,sz)
  | n + 1, off, sz => do
    let r ← fs (readi sb ip .kernel off PROGHDR_SIZE)
    if r.1 ≠ some PROGHDR_SIZE then pure (false,sz)
    else
      let ph := Proghdr.ofBytes r.2
      if ph.type ≠ ELF_PROG_LOAD then loadFrom ip pagetable n ((off + PROGHDR_SIZE) % 2 ^ 32) sz
      else if ph.memsz < ph.filesz then pure (false,sz)
      else if (ph.vaddr + ph.memsz) % 2 ^ 64 < ph.vaddr then pure (false,sz)
      else if ph.vaddr % PGSIZE ≠ 0 then pure (false,sz)
      else do
        let sz1 ← vm (uvmalloc pagetable sz ((ph.vaddr + ph.memsz) % 2 ^ 64) (flags2perm ph.flags))
        if sz1 = 0 then pure (false,sz)
        else do
          let ok ← loadseg sb pagetable ph.vaddr ip ph.off ph.filesz
          if ok then loadFrom ip pagetable n ((off + PROGHDR_SIZE) % 2 ^ 32) sz1 else pure (false,sz1)

def sub64 (a b : ℕ) : ℕ := (a + (2 ^ 64 - b)) % 2 ^ 64

/-- The stack pointer after `n` bytes are pushed and it is rounded down. -/
def push (sp n : ℕ) : ℕ := sub64 sp n - sub64 sp n % 16

def cstr (page : List Byte) : List Byte := page.takeWhile (· != 0)

def pushArgs (pagetable stackbase : ℕ) : List ℕ → ℕ → List ℕ → KCode (Option (ℕ × List ℕ))
  | [], sp, ustack => pure (some (sp,ustack))
  | arg :: rest, sp, ustack => do
    if ustack.length ≥ MAXARG then pure none
    else do
      let page ← vm (peek arg 0 PGSIZE)
      let s := cstr page
      let sp := push sp (s.length + 1)
      if sp < stackbase then pure none
      else do
        let r ← vm (copyout pagetable sp (s ++ [0]))
        if r < 0 then pure none else pushArgs pagetable stackbase rest sp (ustack ++ [sp])

def bad {α : Type} (out : α) (ip : Option (Fin NINODE)) (pagetable : Option ℕ) (sz : ℕ) : KCode α := do
  match pagetable with
  | some pagetable => vm (proc_freepagetable pagetable sz)
  | none => pure ()
  match ip with
  | some ip => do
    fs (iunlockput sb ip)
    fs endOp
  | none => pure ()
  pure out

def commitImage (task : Task) (path : List Byte) (entry pagetable sz sp argc : ℕ) : KCode (ℤ × Task) := do
  let p := task.space
  vm (poke p.trapframe 120 (leBytes 8 sp))
  let name := (lastComponent path).take 15
  vm (poke p.trapframe 24 (leBytes 8 entry))
  vm (poke p.trapframe 48 (leBytes 8 sp))
  vm (proc_freepagetable p.pagetable p.sz)
  pure (argc,{ space := { p with pagetable := pagetable, sz := sz }, name := name })

/-- What is pushed on the new stack, which ends at `sz`. -/
def pushImage (task : Task) (path : List Byte) (argv : List ℕ) (entry pagetable sz : ℕ) : KCode (ℤ × Task) := do
  let stackbase := sz - USERSTACK * PGSIZE
  match ← pushArgs pagetable stackbase argv sz [] with
  | none => bad sb (-1,task) none (some pagetable) sz
  | some (sp,ustack) => do
    let argc := ustack.length
    let sp := push sp ((argc + 1) * 8)
    if sp < stackbase then bad sb (-1,task) none (some pagetable) sz
    else do
      let r ← vm (copyout pagetable sp ((ustack ++ [0]).flatMap (leBytes 8)))
      if r < 0 then bad sb (-1,task) none (some pagetable) sz
      else commitImage task path entry pagetable sz sp argc

def stackImage (pagetable sz : ℕ) : KCode (Option ℕ) := do
  let sz := PGROUNDUP sz
  let sz1 ← vm (uvmalloc pagetable sz (sz + (USERSTACK + 1) * PGSIZE) PTE_W)
  if sz1 = 0 then bad sb none none (some pagetable) sz
  else do
    let sz := sz1
    vm (uvmclear pagetable (sz - (USERSTACK + 1) * PGSIZE))
    pure (some sz)

variable (trampoline : ℕ)

/-- `exec` once the file is locked, up to where the arguments are pushed: the entry point, the page table and the
size of the new image. -/
def loadImage (trapframe : ℕ) (ip : Fin NINODE) : KCode (Option (ℕ × ℕ × ℕ)) := do
  let r ← fs (readi sb ip .kernel 0 ELFHDR_SIZE)
  if r.1 ≠ some ELFHDR_SIZE then bad sb none (some ip) none 0
  else
    let elf := Elfhdr.ofBytes r.2
    if elf.magic ≠ ELF_MAGIC then bad sb none (some ip) none 0
    else do
      match ← vm (proc_pagetable trampoline trapframe) with
      | none => bad sb none (some ip) none 0
      | some pagetable => do
        let r ← loadFrom sb ip pagetable elf.phnum (elf.phoff % 2 ^ 32) 0
        if r.1 = false then bad sb none (some ip) (some pagetable) r.2
        else do
          fs (iunlockput sb ip)
          fs endOp
          match ← stackImage sb pagetable r.2 with
          | none => pure none
          | some sz => pure (some (elf.entry,pagetable,sz))

def buildImage (trapframe : ℕ) (path : List Byte) : KCode (Option (ℕ × ℕ × ℕ)) := do
  fs beginOp
  match ← fs (namei sb path) with
  | none => do
    fs endOp
    pure none
  | some ip => do
    fs (ilock sb ip)
    loadImage sb trampoline trapframe ip

def execPath (task : Task) (path : List Byte) (argv : List ℕ) : KCode (ℤ × Task) := do
  match ← buildImage sb trampoline task.space.trapframe path with
  | none => pure (-1,task)
  | some (entry,pagetable,sz) => pushImage sb task path argv entry pagetable sz

end Code

end Xv6.Exec
