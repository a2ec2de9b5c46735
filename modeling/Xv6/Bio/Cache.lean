import Xv6.Kernel.State
import Xv6.Library.Ring

/-! # `bio.c`: the buffer cache

The fields of `struct buf` that `bcache.lock` protects, and each section under that
lock as one function. A node of the list is a buffer, or `none` for `bcache.head`.
-/
namespace Xv6
open Library
open Function (update)

abbrev Buf := Fin NBUF

structure Bcache where
  links : Links (Option Buf)
  dev : Buf → ℕ
  blockno : Buf → ℕ
  refcnt : Buf → ℕ
  valid : Buf → Bool

namespace Bcache

def binit : Bcache where
  links := (List.finRange NBUF).foldl (fun l b => l.insert none (some b)) ⟨fun _ => none,fun _ => none⟩
  dev := fun _ => 0
  blockno := fun _ => 0
  refcnt := fun _ => 0
  valid := fun _ => false

/-- Is the block already cached? Most recently used buffers are looked at first. -/
def lookup (c : Bcache) (dev blockno : ℕ) : Option Buf :=
  (Links.walk c.links.next none
    (fun x => x.any (fun b => c.dev b = dev ∧ c.blockno b = blockno)) (NBUF + 1) (c.links.next none)).join

def victim (c : Bcache) : Option Buf :=
  (Links.walk c.links.prev none
    (fun x => x.any (fun b => c.refcnt b = 0)) (NBUF + 1) (c.links.prev none)).join

def bget (c : Bcache) (dev blockno : ℕ) : Except Panic (Buf × Bcache) :=
  match c.lookup dev blockno with
  | some b => .ok (b,{ c with refcnt := update c.refcnt b (c.refcnt b + 1) })
  | none =>
    match c.victim with
    | some b => .ok (b,{ c with
        dev := update c.dev b dev
        blockno := update c.blockno b blockno
        valid := update c.valid b false
        refcnt := update c.refcnt b 1 })
    | none => .error .bgetNoBuffers

def fill (c : Bcache) (b : Buf) : Bcache := { c with valid := update c.valid b true }

def bput (c : Bcache) (b : Buf) : Bcache :=
  let c := { c with refcnt := update c.refcnt b (c.refcnt b - 1) }
  if c.refcnt b = 0 then { c with links := (c.links.unlink (some b)).insert none (some b) } else c

def bpin (c : Bcache) (b : Buf) : Bcache :=
  { c with refcnt := update c.refcnt b (c.refcnt b + 1) }

def bunpin (c : Bcache) (b : Buf) : Bcache :=
  { c with refcnt := update c.refcnt b (c.refcnt b - 1) }

/-! ## The list of buffers -/

structure Order (c : Bcache) (xs : List Buf) : Prop where
  ring : c.links.Ring none (xs.map some)
  all : ∀ b, b ∈ xs

variable {c : Bcache} {xs : List Buf} {b : Buf}

theorem Order.nodup (h : c.Order xs) : xs.Nodup :=
  (List.nodup_cons.mp h.ring.nodup).2.of_map

theorem Order.length (h : c.Order xs) : xs.length = NBUF := by
  have hperm : xs.Perm (List.finRange NBUF) :=
    (List.perm_ext_iff_of_nodup h.nodup (List.nodup_finRange NBUF)).mpr fun b =>
      ⟨fun _ => List.mem_finRange b,fun _ => h.all b⟩
  rw [hperm.length_eq,List.length_finRange]

private theorem find?_map_some {α : Type} (f : α → Bool) (xs : List α) :
    ((xs.map some).find? (fun x => x.any f)).join = xs.find? f := by
  induction xs with
  | nil => rfl
  | cons x xs ih =>
    rw [List.map_cons,List.find?_cons,List.find?_cons,Option.any_some]
    cases f x with
    | true => rfl
    | false => exact ih

theorem Order.lookup_eq (h : c.Order xs) (dev blockno : ℕ) :
    c.lookup dev blockno = xs.find? (fun b => c.dev b = dev ∧ c.blockno b = blockno) := by
  rw [lookup,h.ring.linked.walk_next (by simp) (by simp [h.length]),find?_map_some]

theorem Order.victim_eq (h : c.Order xs) : c.victim = xs.reverse.find? (fun b => c.refcnt b = 0) := by
  rw [victim,h.ring.linked.walk_prev (by simp) (by simp [h.length]),← List.map_reverse,find?_map_some]

/-- What `bget` can do: take another reference to the block's buffer, or recycle the
least recently used buffer without references. -/
theorem Order.bget_cases (h : c.Order xs) {dev blockno : ℕ} {c' : Bcache}
    (hb : c.bget dev blockno = .ok (b,c')) :
    (c.dev b = dev ∧ c.blockno b = blockno ∧
      c' = { c with refcnt := update c.refcnt b (c.refcnt b + 1) }) ∨
    ((∀ a, c.dev a = dev → c.blockno a ≠ blockno) ∧ c.refcnt b = 0 ∧
      (∃ ys zs, xs = ys ++ b :: zs ∧ ∀ a ∈ zs, c.refcnt a ≠ 0) ∧
      c' = { c with
        dev := update c.dev b dev
        blockno := update c.blockno b blockno
        valid := update c.valid b false
        refcnt := update c.refcnt b 1 }) := by
  unfold bget at hb
  rw [h.lookup_eq,h.victim_eq] at hb
  cases hf : xs.find? (fun b => c.dev b = dev ∧ c.blockno b = blockno) with
  | some a =>
    rw [hf] at hb
    cases hb
    have := List.find?_some hf
    simp only [decide_eq_true_eq] at this
    exact .inl ⟨this.1,this.2,rfl⟩
  | none =>
    rw [hf] at hb
    cases hv : xs.reverse.find? (fun b => c.refcnt b = 0) with
    | none =>
      rw [hv] at hb
      cases hb
    | some a =>
      rw [hv] at hb
      cases hb
      refine .inr ⟨?_,by simpa using List.find?_some hv,?_,rfl⟩
      · intro a hd hn
        have := List.find?_eq_none.mp hf a (h.all a)
        simp [hd,hn] at this
      · obtain ⟨-,ys,zs,hxs,hzs⟩ := List.find?_eq_some_iff_append.mp hv
        refine ⟨zs.reverse,ys.reverse,?_,?_⟩
        · rw [← List.reverse_reverse xs,hxs]
          simp
        · intro a ha
          simpa using hzs a (List.mem_reverse.mp ha)

theorem Order.moveFront (h : c.Order xs) (b : Buf) :
    ∃ ys zs, xs = ys ++ b :: zs ∧
      ({ c with links := (c.links.unlink (some b)).insert none (some b) } : Bcache).Order (b :: (ys ++ zs)) := by
  obtain ⟨ys,zs,rfl⟩ := List.append_of_mem (h.all b)
  have hnd := h.nodup
  have hring := h.ring
  rw [List.map_append,List.map_cons] at hring
  refine ⟨ys,zs,rfl,?_,?_⟩
  · rw [List.map_cons,List.map_append]
    refine hring.unlink.insert ?_
    rw [List.nodup_middle,List.nodup_cons] at hnd
    simpa [List.mem_append] using hnd.1
  · intro a
    have := h.all a
    simp only [List.mem_append,List.mem_cons] at this ⊢
    tauto

private theorem insertAll_ring {l : Links (Option Buf)} {xs : List Buf} (h : l.Ring none (xs.map some))
    (bs : List Buf) (hnd : (bs.reverse ++ xs).Nodup) :
    (bs.foldl (fun l b => l.insert none (some b)) l).Ring none ((bs.reverse ++ xs).map some) := by
  induction bs generalizing l xs with
  | nil => exact h
  | cons b bs ih =>
    have hb : b ∉ xs := by
      rw [List.reverse_cons,List.append_assoc,List.singleton_append,List.nodup_middle,
        List.nodup_cons] at hnd
      exact fun hm => hnd.1 (List.mem_append_right _ hm)
    have hring : (l.insert none (some b)).Ring none ((b :: xs).map some) :=
      h.insert (by simpa using hb)
    simpa [List.reverse_cons,List.append_assoc] using ih hring (by simpa using hnd)

theorem binit_order : binit.Order (List.finRange NBUF).reverse where
  ring := by
    have h : (⟨fun _ => none,fun _ => none⟩ : Links (Option Buf)).Ring none (([] : List Buf).map some) :=
      ⟨by simp,rfl,rfl⟩
    have hall := insertAll_ring h (List.finRange NBUF) (by simpa using List.nodup_finRange NBUF)
    rw [List.append_nil] at hall
    exact hall
  all := fun b => List.mem_reverse.mpr (List.mem_finRange b)

end Bcache

end Xv6
