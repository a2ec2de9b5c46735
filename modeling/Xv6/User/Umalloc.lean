import Mathlib

/-! # `umalloc.c`

Addresses are numbers of bytes and sizes numbers of `Header`s of 16 bytes, kept in a `uint`. The
two loops take fuel; `none` means that it ran out. What `sbrk` answers is an input.
-/
namespace Xv6.Umalloc

structure Header where
  ptr : ℕ
  size : ℕ

structure Heap where
  hdr : ℕ → Header
  /-- 0 before the first call of `malloc` -/
  freep : ℕ
  /-- start and size of what `sbrk` has returned -/
  regions : List (ℕ × ℕ)
  /-- the end of everything that `sbrk` has returned -/
  top : ℕ

def plus (p n : ℕ) : ℕ := p + 16 * n

namespace Heap

def setPtr (s : Heap) (a q : ℕ) : Heap := { s with hdr := Function.update s.hdr a { s.hdr a with ptr := q } }

def setSize (s : Heap) (a n : ℕ) : Heap := { s with hdr := Function.update s.hdr a { s.hdr a with size := n % 2 ^ 32 } }

def ptr (s : Heap) (a : ℕ) : ℕ := (s.hdr a).ptr

def size (s : Heap) (a : ℕ) : ℕ := (s.hdr a).size

/-- `for(p = freep; !(bp > p && bp < p->s.ptr); p = p->s.ptr)` with the test in its body -/
def freeLoop (s : Heap) (bp : ℕ) : ℕ → ℕ → Option ℕ
  | 0, _ => none
  | fuel + 1, p =>
    if bp > p ∧ bp < s.ptr p then some p
    else if p ≥ s.ptr p ∧ (bp > p ∨ bp < s.ptr p) then some p
    else s.freeLoop bp fuel (s.ptr p)

/-- `if(bp + bp->s.size == p->s.ptr) … else …` -/
def joinUpper (s : Heap) (bp p : ℕ) : Heap :=
  if plus bp (s.size bp) = s.ptr p then
    let s := s.setSize bp (s.size bp + s.size (s.ptr p))
    s.setPtr bp (s.ptr (s.ptr p))
  else s.setPtr bp (s.ptr p)

/-- `if(p + p->s.size == bp) … else …` -/
def joinLower (s : Heap) (bp p : ℕ) : Heap :=
  if plus p (s.size p) = bp then
    let s := s.setSize p (s.size p + s.size bp)
    s.setPtr p (s.ptr bp)
  else s.setPtr p bp

def free (fuel : ℕ) (s : Heap) (ap : ℕ) : Option Heap :=
  let bp := ap - 16
  (s.freeLoop bp fuel s.freep).map fun p => { (s.joinUpper bp p).joinLower bp p with freep := p }

def ask (nu : ℕ) : ℕ := if nu < 4096 then 4096 else nu

/-- `morecore(nu)`, when `sbrk` returns `ans`, `none` for -1. -/
def morecore (fuel : ℕ) (s : Heap) (nu : ℕ) (ans : Option ℕ) : Option (Heap × ℕ) :=
  match ans with
  | none => some (s,0)
  | some p =>
    let s := { s with regions := s.regions ++ [(p,ask nu)], top := plus p (ask nu) }
    let s := s.setSize p (ask nu)
    (s.free fuel (p + 16)).map fun s => (s,s.freep)

/-- The body of the `if(p->s.size >= nunits)` of `malloc`. -/
def take (s : Heap) (nunits prevp p : ℕ) : Heap × ℕ :=
  if s.size p = nunits then
    let s := s.setPtr prevp (s.ptr p)
    ({ s with freep := prevp },p + 16)
  else
    let s := s.setSize p (s.size p - nunits)
    let p := plus p (s.size p)
    let s := s.setSize p nunits
    ({ s with freep := prevp },p + 16)

/-- The loop of `malloc`; `ans` are the answers of `sbrk` still to come, -1 when there are none. -/
def mallocLoop (nunits : ℕ) : ℕ → Heap → ℕ → ℕ → List (Option ℕ) → Option (Heap × ℕ)
  | 0, _, _, _, _ => none
  | fuel + 1, s, prevp, p, ans =>
    if s.size p ≥ nunits then some (s.take nunits prevp p)
    else if p = s.freep then
      match s.morecore fuel nunits (ans.headD none) with
      | none => none
      | some (s',p') =>
        if p' = 0 then some (s',0) else mallocLoop nunits fuel s' p' (s'.ptr p') ans.tail
    else mallocLoop nunits fuel s p (s.ptr p) ans

end Heap

/-- `(nbytes + sizeof(Header) - 1)/sizeof(Header) + 1` -/
def units (nbytes : ℕ) : ℕ := (nbytes + 15) / 16 + 1

def Heap.start (base : ℕ) (s : Heap) : Heap := { (s.setPtr base base).setSize base 0 with freep := base }

/-- `malloc(nbytes)`; `base` is `&base`. The result 0 is a null pointer. -/
def Heap.malloc (base fuel : ℕ) (s : Heap) (nbytes : ℕ) (ans : List (Option ℕ)) : Option (Heap × ℕ) :=
  let s := if s.freep = 0 then s.start base else s
  Heap.mallocLoop (units nbytes) fuel s s.freep (s.ptr s.freep) ans

end Xv6.Umalloc
