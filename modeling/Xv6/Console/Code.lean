import Xv6.Kernel.State

/-! # `console.c`

Input from the uart and the reads of one process. `cons.lock` is held from `acquire` to
`release` or `sleep`, so an interrupt comes before or after each such section and never
in the middle; a section is one step here. What is echoed to the screen is left out.
-/
namespace Xv6.Console
open Library

abbrev INPUT_BUF_SIZE : ℕ := 128

def ctrl (x : Char) : Byte := BitVec.ofNat 8 (x.toNat - '@'.toNat)

abbrev carriage : Byte := 13
abbrev delete : Byte := 0x7f

structure Cons where
  buf : Fin INPUT_BUF_SIZE → Byte
  r : BitVec 32
  w : BitVec 32
  e : BitVec 32

/-- `cons.buf[i % INPUT_BUF_SIZE]` -/
def Cons.get (s : Cons) (i : BitVec 32) : Byte := s.buf (Fin.ofNat INPUT_BUF_SIZE i.toNat)

/-- The loop for Control-U. It stops at `w`, which `e` reaches after `e - w` rounds. -/
def Cons.kill : ℕ → Cons → Cons
  | 0, s => s
  | fuel + 1, s =>
    if s.e ≠ s.w ∧ s.get (s.e - 1) ≠ newline then Cons.kill fuel { s with e := s.e - 1 } else s

/-- The new state, and whether `wakeup(&cons.r)` is called. -/
def consoleintr (c : Byte) (s : Cons) : Cons × Bool :=
  if c = ctrl 'P' then (s,false)
  else if c = ctrl 'U' then (s.kill (s.e - s.w).toNat,false)
  else if c = ctrl 'H' ∨ c = delete then
    if s.e ≠ s.w then ({ s with e := s.e - 1 },false) else (s,false)
  else if c ≠ 0 ∧ (s.e - s.r).toNat < INPUT_BUF_SIZE then
    let c := if c = carriage then newline else c
    let s := { s with buf := Function.update s.buf (Fin.ofNat INPUT_BUF_SIZE s.e.toNat) c, e := s.e + 1 }
    if c = newline ∨ c = ctrl 'D' ∨ (s.e - s.r).toNat = INPUT_BUF_SIZE then ({ s with w := s.e },true)
    else (s,false)
  else (s,false)

inductive Exit
  /-- `sleep(&cons.r, &cons.lock)`, with the values of `dst` and `n` -/
  | sleep (dst n : ℕ)
  | ret (value : ℤ)

/-- The loop of `consoleread`, up to where the lock is released. -/
def consoleread (killed : Bool) (target : ℕ) : ℕ → ℕ → Cons → UserMem → Exit × Cons × UserMem
  | 0, _, s, u => (.ret target,s,u)
  | n + 1, dst, s, u =>
    if s.r = s.w then
      if killed then (.ret (-1),s,u) else (.sleep dst (n + 1),s,u)
    else
      let c := s.get s.r
      let s := { s with r := s.r + 1 }
      if c = ctrl 'D' then
        -- save ^D for next time
        if n + 1 < target then (.ret (target - (n + 1)),{ s with r := s.r - 1 },u)
        else (.ret (target - (n + 1)),s,u)
      else
        let o := u.copyout dst [c]
        if o.2 = false then (.ret (target - (n + 1)),s,o.1)
        else if c = newline then (.ret (target - n),s,o.1)
        else consoleread killed target n ((dst + 1) % 2 ^ 64) s o.1

/-! ## Runs -/

/-- The variables of `consoleread`, with the address it was called with. -/
structure Frame where
  start : ℕ
  target : ℕ
  dst : ℕ
  n : ℕ

inductive Reader
  | idle
  | ready (f : Frame)
  | asleep (f : Frame)

def Reader.wakeup : Reader → Reader
  | .asleep f => .ready f
  | r => r

inductive Event
  | intr (c : Byte)
  /-- `consoleread(1, dst, n)` is called -/
  | read (dst n : ℕ)
  | run

/-- The console, the memory and the state of the process that reads, and what its reads have returned:
`dst`, `n` and the value. -/
structure World where
  cons : Cons
  mem : UserMem
  reader : Reader
  returned : List (ℕ × ℕ × ℤ)

def World.start (mem : UserMem) : World := ⟨⟨fun _ => 0,0,0,0⟩,mem,.idle,[]⟩

def World.intr (s : World) (c : Byte) : World :=
  let o := consoleintr c s.cons
  { s with cons := o.1, reader := if o.2 then s.reader.wakeup else s.reader }

def World.run (s : World) (f : Frame) : World :=
  match consoleread false f.target f.n f.dst s.cons s.mem with
  | (.sleep dst n,cons,mem) => { s with cons := cons, mem := mem, reader := .asleep { f with dst := dst, n := n } }
  | (.ret value,cons,mem) =>
    { s with cons := cons, mem := mem, reader := .idle, returned := s.returned ++ [(f.start,f.target,value)] }

inductive Step : World → Event → World → Prop
  | intr (s : World) (c : Byte) : Step s (.intr c) (s.intr c)
  | read (s : World) (dst n : ℕ) (hidle : s.reader = .idle) (hpos : 0 < n) (hint : n < 2 ^ 31)
      (hmem : UserMem.Accessible s.mem.writable dst n) :
      Step s (.read dst n) { s with reader := .ready ⟨dst,n,dst,n⟩ }
  | run (s : World) (f : Frame) (hready : s.reader = .ready f) : Step s .run (s.run f)

inductive Run (mem : UserMem) : List Event → World → Prop
  | start : Run mem [] (World.start mem)
  | step {es : List Event} {s t : World} {e : Event} (hrun : Run mem es s) (hstep : Step s e t) : Run mem (es ++ [e]) t

end Xv6.Console
