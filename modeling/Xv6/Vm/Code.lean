import Xv6.Kernel.State
import Xv6.Library.Prog

/-! # `vm.c`, and the parts of `proc.c` and `exec.c` that build address spaces

Physical memory is pages of bytes, named by their physical address; `kalloc` and `kfree` and reads
and writes within one page are the operations. Addresses are natural numbers, with `% 2 ^ 64`
where a `uint64` could wrap.
-/
namespace Xv6.Vm
open Library

abbrev Page := Bytes 4096

inductive VmPanic
  | walk
  | mapVaNotAligned | mapSizeNotAligned | mapSize | mapRemap
  | unmapNotAligned | unmapWalk | unmapNotMapped | unmapNotLeaf
  | freewalkLeaf
  /-- a recursion of `freewalk` below the three levels of a page table -/
  | freewalkDeep
  | copyNoPte | copyNotPresent
  | clear
  | loadseg
  deriving DecidableEq

inductive VmOp
  | kalloc
  | kfree (pa : ℕ)
  /-- the bytes from offset `off` of a page -/
  | peek (pa off n : ℕ)
  | poke (pa off : ℕ) (bs : List Byte)
  | panic (p : VmPanic)

@[reducible] def VmOp.Res : VmOp → Type
  | kalloc => Option ℕ
  | kfree _ => Unit
  | peek _ _ _ => List Byte
  | poke _ _ _ => Unit
  | panic _ => Empty

abbrev VmCode (α : Type) := Prog VmOp VmOp.Res α

def kalloc : VmCode (Option ℕ) := Prog.call VmOp.kalloc
def kfree (pa : ℕ) : VmCode Unit := Prog.call (VmOp.kfree pa)
def peek (pa off n : ℕ) : VmCode (List Byte) := Prog.call (VmOp.peek pa off n)
def poke (pa off : ℕ) (bs : List Byte) : VmCode Unit := Prog.call (VmOp.poke pa off bs)
def panic {α : Type} (p : VmPanic) : VmCode α := Prog.op (VmOp.panic p) (fun e => nomatch e)

def memset (pa : ℕ) (c : Byte) : VmCode Unit := poke pa 0 (List.replicate PGSIZE c)

/-! ## Page table entries -/

def PTE_V : BitVec 64 := 1
def PTE_R : BitVec 64 := 2
def PTE_W : BitVec 64 := 4
def PTE_X : BitVec 64 := 8
def PTE_U : BitVec 64 := 16

def PA2PTE (pa : ℕ) : BitVec 64 := (BitVec.ofNat 64 pa >>> 12) <<< 10
def PTE2PA (pte : BitVec 64) : ℕ := ((pte >>> 10) <<< 12).toNat
def PTE_FLAGS (pte : BitVec 64) : BitVec 64 := pte &&& 0x3FF

def PX (level va : ℕ) : Fin 512 := ⟨va / 2 ^ (12 + 9 * level) % 512,Nat.mod_lt _ (by decide)⟩

def PGROUNDUP (sz : ℕ) : ℕ := (sz + (PGSIZE - 1)) % 2 ^ 64 / PGSIZE * PGSIZE
def PGROUNDDOWN (a : ℕ) : ℕ := a / PGSIZE * PGSIZE

def TRAMPOLINE : ℕ := MAXVA - PGSIZE
def TRAPFRAME : ℕ := TRAMPOLINE - PGSIZE

def load (pagetable : ℕ) (i : Fin 512) : VmCode (BitVec 64) := do
  let bs ← peek pagetable (8 * i.val) 8
  pure (BitVec.ofNat 64 (ofLe bs))

def store (pagetable : ℕ) (i : Fin 512) (pte : BitVec 64) : VmCode Unit :=
  poke pagetable (8 * i.val) (leBytes 8 pte.toNat)

/-! ## `vm.c` -/

def walkFrom (va : ℕ) (alloc : Bool) : ℕ → ℕ → VmCode (Option (ℕ × Fin 512))
  | 0, pagetable => pure (some (pagetable,PX 0 va))
  | level + 1, pagetable => do
    let pte ← load pagetable (PX (level + 1) va)
    if pte &&& PTE_V ≠ 0 then walkFrom va alloc level (PTE2PA pte)
    else if alloc = false then pure none
    else
      match ← kalloc with
      | none => pure none
      | some page => do
        memset page 0
        store pagetable (PX (level + 1) va) (PA2PTE page ||| PTE_V)
        walkFrom va alloc level page

def walk (pagetable va : ℕ) (alloc : Bool) : VmCode (Option (ℕ × Fin 512)) :=
  if va ≥ MAXVA then panic .walk else walkFrom va alloc 2 pagetable

def walkaddr (pagetable va : ℕ) : VmCode ℕ :=
  if va ≥ MAXVA then pure 0
  else do
    match ← walk pagetable va false with
    | none => pure 0
    | some (t,i) => do
      let pte ← load t i
      if pte &&& PTE_V = 0 then pure 0
      else if pte &&& PTE_U = 0 then pure 0
      else pure (PTE2PA pte)

/-- The loop of `mappages`, `n` rounds before `a == last`. -/
def mapLoop (pagetable : ℕ) (perm : BitVec 64) : ℕ → ℕ → ℕ → VmCode ℤ
  | 0, _, _ => pure 0
  | n + 1, a, pa => do
    match ← walk pagetable a true with
    | none => pure (-1)
    | some (t,i) => do
      let pte ← load t i
      if pte &&& PTE_V ≠ 0 then panic .mapRemap
      else do
        store t i (PA2PTE pa ||| perm ||| PTE_V)
        mapLoop pagetable perm n (a + PGSIZE) (pa + PGSIZE)

def mappages (pagetable va size pa : ℕ) (perm : BitVec 64) : VmCode ℤ :=
  if va % PGSIZE ≠ 0 then panic .mapVaNotAligned
  else if size % PGSIZE ≠ 0 then panic .mapSizeNotAligned
  else if size = 0 then panic .mapSize
  else mapLoop pagetable perm (size / PGSIZE) va pa

def unmapLoop (pagetable : ℕ) (do_free : Bool) : ℕ → ℕ → VmCode Unit
  | 0, _ => pure ()
  | n + 1, a => do
    match ← walk pagetable a false with
    | none => panic .unmapWalk
    | some (t,i) => do
      let pte ← load t i
      if pte &&& PTE_V = 0 then panic .unmapNotMapped
      else if PTE_FLAGS pte = PTE_V then panic .unmapNotLeaf
      else do
        if do_free then kfree (PTE2PA pte)
        store t i 0
        unmapLoop pagetable do_free n (a + PGSIZE)

def uvmunmap (pagetable va npages : ℕ) (do_free : Bool) : VmCode Unit :=
  if va % PGSIZE ≠ 0 then panic .unmapNotAligned
  else unmapLoop pagetable do_free npages va

def uvmcreate : VmCode (Option ℕ) := do
  match ← kalloc with
  | none => pure none
  | some pagetable => do
    memset pagetable 0
    pure (some pagetable)

def uvmdealloc (pagetable oldsz newsz : ℕ) : VmCode ℕ :=
  if newsz ≥ oldsz then pure oldsz
  else do
    if PGROUNDUP newsz < PGROUNDUP oldsz then
      uvmunmap pagetable (PGROUNDUP newsz) ((PGROUNDUP oldsz - PGROUNDUP newsz) / PGSIZE) true
    pure newsz

/-- The loop of `uvmalloc`, `n` rounds before `a >= newsz`. -/
def allocLoop (pagetable oldsz newsz : ℕ) (xperm : BitVec 64) : ℕ → ℕ → VmCode ℕ
  | 0, _ => pure newsz
  | n + 1, a => do
    match ← kalloc with
    | none => do
      let _ ← uvmdealloc pagetable a oldsz
      pure 0
    | some mem => do
      memset mem 0
      let r ← mappages pagetable a PGSIZE mem (PTE_R ||| PTE_U ||| xperm)
      if r ≠ 0 then do
        kfree mem
        let _ ← uvmdealloc pagetable a oldsz
        pure 0
      else allocLoop pagetable oldsz newsz xperm n (a + PGSIZE)

def uvmalloc (pagetable oldsz newsz : ℕ) (xperm : BitVec 64) : VmCode ℕ :=
  if newsz < oldsz then pure oldsz
  else
    let oldsz := PGROUNDUP oldsz
    allocLoop pagetable oldsz newsz xperm ((newsz - oldsz + (PGSIZE - 1)) / PGSIZE) oldsz

def forEach {ι : Type} (f : ι → VmCode Unit) : List ι → VmCode Unit
  | [] => pure ()
  | i :: is => do
    f i
    forEach f is

def freewalk : ℕ → ℕ → VmCode Unit
  | 0, _ => panic .freewalkDeep
  | depth + 1, pagetable => do
    forEach (fun i => do
      let pte ← load pagetable i
      if pte &&& PTE_V ≠ 0 ∧ pte &&& (PTE_R ||| PTE_W ||| PTE_X) = 0 then do
        freewalk depth (PTE2PA pte)
        store pagetable i 0
      else if pte &&& PTE_V ≠ 0 then panic .freewalkLeaf
      else pure ()) (List.finRange 512)
    kfree pagetable

def uvmfree (pagetable sz : ℕ) : VmCode Unit := do
  if sz > 0 then uvmunmap pagetable 0 (PGROUNDUP sz / PGSIZE) true
  freewalk 3 pagetable

/-- The loop of `uvmcopy`, `n` rounds before `i >= sz`. -/
def copyLoop (old new : ℕ) : ℕ → ℕ → VmCode ℤ
  | 0, _ => pure 0
  | n + 1, i => do
    match ← walk old i false with
    | none => panic .copyNoPte
    | some (t,k) => do
      let pte ← load t k
      if pte &&& PTE_V = 0 then panic .copyNotPresent
      else
        match ← kalloc with
        | none => do
          uvmunmap new 0 (i / PGSIZE) true
          pure (-1)
        | some mem => do
          let bs ← peek (PTE2PA pte) 0 PGSIZE
          poke mem 0 bs
          let r ← mappages new i PGSIZE mem (PTE_FLAGS pte)
          if r ≠ 0 then do
            kfree mem
            uvmunmap new 0 (i / PGSIZE) true
            pure (-1)
          else copyLoop old new n (i + PGSIZE)

def uvmcopy (old new sz : ℕ) : VmCode ℤ := copyLoop old new ((sz + (PGSIZE - 1)) / PGSIZE) 0

def uvmclear (pagetable va : ℕ) : VmCode Unit := do
  match ← walk pagetable va false with
  | none => panic .clear
  | some (t,i) => do
    let pte ← load t i
    store t i (pte &&& ~~~PTE_U)

/-- The loop of `copyout`; every round moves at least one byte. -/
def copyoutLoop (pagetable : ℕ) : ℕ → ℕ → List Byte → VmCode ℤ
  | 0, _, _ => pure 0
  | fuel + 1, dstva, src =>
    if src = [] then pure 0
    else
      let va0 := PGROUNDDOWN dstva
      if va0 ≥ MAXVA then pure (-1)
      else do
        match ← walk pagetable va0 false with
        | none => pure (-1)
        | some (t,i) => do
          let pte ← load t i
          if pte &&& PTE_V = 0 ∨ pte &&& PTE_U = 0 ∨ pte &&& PTE_W = 0 then pure (-1)
          else do
            let n := min (PGSIZE - (dstva - va0)) src.length
            poke (PTE2PA pte) (dstva - va0) (src.take n)
            copyoutLoop pagetable fuel (va0 + PGSIZE) (src.drop n)

def copyout (pagetable dstva : ℕ) (src : List Byte) : VmCode ℤ := copyoutLoop pagetable src.length dstva src

/-- The loop of `copyin`, with the bytes that were moved. -/
def copyinLoop (pagetable : ℕ) : ℕ → ℕ → ℕ → VmCode (ℤ × List Byte)
  | 0, _, _ => pure (0,[])
  | fuel + 1, srcva, len =>
    if len = 0 then pure (0,[])
    else do
      let va0 := PGROUNDDOWN srcva
      let pa0 ← walkaddr pagetable va0
      if pa0 = 0 then pure (-1,[])
      else do
        let n := min (PGSIZE - (srcva - va0)) len
        let bs ← peek pa0 (srcva - va0) n
        let r ← copyinLoop pagetable fuel (va0 + PGSIZE) (len - n)
        pure (r.1,bs ++ r.2)

def copyin (pagetable srcva len : ℕ) : VmCode (ℤ × List Byte) := copyinLoop pagetable len srcva len

/-- The loop of `copyinstr`, with the bytes that were moved; `n` rounds of the inner loop at a time. -/
def copyinstrLoop (pagetable : ℕ) : ℕ → ℕ → ℕ → VmCode (ℤ × List Byte)
  | 0, _, _ => pure (-1,[])
  | fuel + 1, srcva, max =>
    if max = 0 then pure (-1,[])
    else do
      let va0 := PGROUNDDOWN srcva
      let pa0 ← walkaddr pagetable va0
      if pa0 = 0 then pure (-1,[])
      else do
        let n := min (PGSIZE - (srcva - va0)) max
        let bs ← peek pa0 (srcva - va0) n
        let s := bs.takeWhile (· != 0)
        if s.length < n then pure (0,s ++ [0])
        else do
          let r ← copyinstrLoop pagetable fuel (va0 + PGSIZE) (max - n)
          pure (r.1,bs ++ r.2)

def copyinstr (pagetable srcva max : ℕ) : VmCode (ℤ × List Byte) := copyinstrLoop pagetable max srcva max

/-! ## `proc.c` -/

/-- The pages of a process: `p->pagetable`, `p->sz` and `p->trapframe`. -/
structure Space where
  pagetable : ℕ
  sz : ℕ
  trapframe : ℕ

abbrev TRAPFRAME_SIZE : ℕ := 288

section Proc
variable (trampoline : ℕ)

def proc_pagetable (trapframe : ℕ) : VmCode (Option ℕ) := do
  match ← uvmcreate with
  | none => pure none
  | some pagetable => do
    let r ← mappages pagetable TRAMPOLINE PGSIZE trampoline (PTE_R ||| PTE_X)
    if r < 0 then do
      uvmfree pagetable 0
      pure none
    else do
      let r ← mappages pagetable TRAPFRAME PGSIZE trapframe (PTE_R ||| PTE_W)
      if r < 0 then do
        uvmunmap pagetable TRAMPOLINE 1 false
        uvmfree pagetable 0
        pure none
      else pure (some pagetable)

def proc_freepagetable (pagetable sz : ℕ) : VmCode Unit := do
  uvmunmap pagetable TRAMPOLINE 1 false
  uvmunmap pagetable TRAPFRAME 1 false
  uvmfree pagetable sz

def freeproc (trapframe pagetable : Option ℕ) (sz : ℕ) : VmCode Unit := do
  match trapframe with
  | some tf => kfree tf
  | none => pure ()
  match pagetable with
  | some pt => proc_freepagetable pt sz
  | none => pure ()

def allocproc : VmCode (Option Space) := do
  match ← kalloc with
  | none => do
    freeproc none none 0
    pure none
  | some trapframe => do
    match ← proc_pagetable trampoline trapframe with
    | none => do
      freeproc (some trapframe) none 0
      pure none
    | some pagetable => pure (some ⟨pagetable,0,trapframe⟩)

/-- The address space of the child, or nothing if `fork` fails. -/
def fork (p : Space) : VmCode (Option Space) := do
  match ← allocproc trampoline with
  | none => pure none
  | some np => do
    let r ← uvmcopy p.pagetable np.pagetable p.sz
    if r < 0 then do
      freeproc (some np.trapframe) (some np.pagetable) np.sz
      pure none
    else do
      let tf ← peek p.trapframe 0 TRAPFRAME_SIZE
      poke np.trapframe 0 tf
      poke np.trapframe 112 (leBytes 8 0)
      pure (some { np with sz := p.sz })

def growproc (p : Space) (n : BitVec 32) : VmCode (ℤ × Space) := do
  if n.toInt > 0 then do
    let sz ← uvmalloc p.pagetable p.sz ((p.sz + n.toNat) % 2 ^ 64) PTE_W
    if sz = 0 then pure (-1,p) else pure (0,{ p with sz := sz })
  else if n.toInt < 0 then do
    let sz ← uvmdealloc p.pagetable p.sz ((p.sz + (2 ^ 64 - n.toInt.natAbs)) % 2 ^ 64)
    pure (0,{ p with sz := sz })
  else pure (0,p)

end Proc

end Xv6.Vm
