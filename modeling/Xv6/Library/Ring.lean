import Mathlib

/-! # Circular doubly linked lists

Nodes with `next` and `prev` pointers, linked in a ring through a head node that
carries no value. The pointer assignments of removal and of insertion behind the head
are applied one after the other; the ring is described by the list of its nodes.
-/
namespace Xv6.Library
open Function (update update_of_ne update_self)

structure Links (N : Type) where
  next : N → N
  prev : N → N

namespace Links
variable {N : Type}

/-- `xs` are the nodes strictly between `a` and `b`, in both directions. -/
def Linked (l : Links N) : N → List N → N → Prop
  | a, [], b => l.next a = b ∧ l.prev b = a
  | a, x :: xs, b => l.next a = x ∧ l.prev x = a ∧ l.Linked x xs b

/-- The nodes `xs` hang in one ring through `head`, each once. -/
structure Ring (l : Links N) (head : N) (xs : List N) : Prop where
  nodup : (head :: xs).Nodup
  linked : l.Linked head xs head

variable {l : Links N} {a b x head : N} {xs ys : List N}

theorem linked_append : l.Linked a (xs ++ x :: ys) b ↔ l.Linked a xs x ∧ l.Linked x ys b := by
  induction xs generalizing a with
  | nil => simp only [List.nil_append,Linked,and_assoc]
  | cons y xs ih => simp only [List.cons_append,Linked,ih,and_assoc]

theorem linked_concat : l.Linked a (xs ++ [x]) b ↔ l.Linked a xs x ∧ l.next x = b ∧ l.prev b = x := by
  rw [linked_append,Linked]

/-- Only `next` of the nodes before and `prev` of the nodes after matter. -/
theorem Linked.congr {m : Links N} (h : l.Linked a xs b)
    (hn : ∀ y ∈ a :: xs, m.next y = l.next y) (hp : ∀ y ∈ b :: xs, m.prev y = l.prev y) :
    m.Linked a xs b := by
  induction xs generalizing a with
  | nil =>
    obtain ⟨h₁,h₂⟩ := h
    exact ⟨by rw [hn a (by simp),h₁],by rw [hp b (by simp),h₂]⟩
  | cons x xs ih =>
    obtain ⟨h₁,h₂,h₃⟩ := h
    refine ⟨by rw [hn a (by simp),h₁],by rw [hp x (by simp),h₂],ih h₃ ?_ ?_⟩
    · exact fun y hy => hn y (List.mem_cons_of_mem a hy)
    · intro y hy
      rcases List.mem_cons.mp hy with rfl | hy
      · exact hp y (by simp)
      · exact hp y (List.mem_cons_of_mem _ (List.mem_cons_of_mem x hy))

/-! ## Pointer assignments -/

section Assign
variable [DecidableEq N]

def setNext (l : Links N) (a b : N) : Links N := { l with next := update l.next a b }
def setPrev (l : Links N) (a b : N) : Links N := { l with prev := update l.prev a b }

@[simp] theorem setNext_next (l : Links N) (a b : N) : (l.setNext a b).next = update l.next a b := rfl
@[simp] theorem setNext_prev (l : Links N) (a b : N) : (l.setNext a b).prev = l.prev := rfl
@[simp] theorem setPrev_next (l : Links N) (a b : N) : (l.setPrev a b).next = l.next := rfl
@[simp] theorem setPrev_prev (l : Links N) (a b : N) : (l.setPrev a b).prev = update l.prev a b := rfl

/-- `b->next->prev = b->prev; b->prev->next = b->next;` -/
def unlink (l : Links N) (b : N) : Links N :=
  let l := l.setPrev (l.next b) (l.prev b)
  l.setNext (l.prev b) (l.next b)

/-- `b->next = head.next; b->prev = &head; head.next->prev = b; head.next = b;` -/
def insert (l : Links N) (head b : N) : Links N :=
  let l := l.setNext b (l.next head)
  let l := l.setPrev b head
  let l := l.setPrev (l.next head) b
  l.setNext head b

theorem unlink_eq (l : Links N) (b : N) : l.unlink b =
    ⟨update l.next (l.prev b) (l.next b),update l.prev (l.next b) (l.prev b)⟩ := by
  have hb : update l.prev (l.next b) (l.prev b) b = l.prev b := by
    by_cases h : b = l.next b
    · rw [← h,update_self]
    · rw [update_of_ne h]
  simp only [unlink,setNext,setPrev,hb]

theorem Ring.unlink (h : l.Ring head (xs ++ x :: ys)) : (l.unlink x).Ring head (xs ++ ys) := by
  obtain ⟨hnd,hl⟩ := h
  rw [unlink_eq]
  refine ⟨by grind,?_⟩
  obtain ⟨h₁,h₂⟩ := linked_append.mp hl
  -- the neighbours of `x` are nodes or the head
  rcases List.eq_nil_or_concat' xs with rfl | ⟨xs,u,rfl⟩
  · cases ys with
    | nil =>
      obtain ⟨h₁,h₁'⟩ := h₁
      obtain ⟨h₂,h₂'⟩ := h₂
      simp [Linked,h₁',h₂]
    | cons v ys =>
      obtain ⟨-,h₁⟩ := h₁
      obtain ⟨h₂,-,h₃⟩ := h₂
      refine ⟨by simp [h₁,h₂],by simp [h₁,h₂],h₃.congr ?_ ?_⟩
      · intro y hy
        exact update_of_ne (by grind) _ _
      · intro y hy
        exact update_of_ne (by grind) _ _
  · rw [linked_concat] at h₁
    obtain ⟨h₁,-,h₁'⟩ := h₁
    cases ys with
    | nil =>
      obtain ⟨h₂,-⟩ := h₂
      rw [List.append_nil,linked_concat]
      refine ⟨h₁.congr ?_ ?_,by simp [h₁',h₂],by simp [h₁',h₂]⟩
      · intro y hy
        exact update_of_ne (by grind) _ _
      · intro y hy
        exact update_of_ne (by grind) _ _
    | cons v ys =>
      obtain ⟨h₂,-,h₃⟩ := h₂
      rw [List.append_assoc,List.singleton_append,linked_append]
      refine ⟨h₁.congr ?_ ?_,by simp [h₁',h₂],by simp [h₁',h₂],h₃.congr ?_ ?_⟩
      all_goals
        intro y hy
        exact update_of_ne (by grind) _ _

/-- A node outside the ring is inserted right behind the head. -/
theorem Ring.insert (h : l.Ring head xs) (hx : x ∉ head :: xs) : (l.insert head x).Ring head (x :: xs) := by
  obtain ⟨hnd,hl⟩ := h
  refine ⟨by grind,?_⟩
  have hxh : head ≠ x := by grind
  simp only [Links.insert,setNext,setPrev]
  rw [update_of_ne hxh]
  cases xs with
  | nil =>
    obtain ⟨h₁,h₂⟩ := hl
    simp [Linked,h₁,hxh.symm]
  | cons v xs =>
    obtain ⟨h₁,-,h₂⟩ := hl
    rw [h₁]
    have hxv : x ≠ v := by grind
    refine ⟨by simp,by simp [hxv],by simp [hxh.symm],by simp,h₂.congr ?_ ?_⟩
    all_goals
      intro y hy
      exact (update_of_ne (by grind) _ _).trans (update_of_ne (by grind) _ _)

end Assign

/-! ## Traversal -/

section Walk
variable [DecidableEq N]

/-- `for(b = start; b != &head; b = step(b)) if(test(b)) return b;` with a bound on
the number of rounds. -/
def walk (step : N → N) (head : N) (test : N → Bool) : ℕ → N → Option N
  | 0, _ => none
  | fuel + 1, b =>
    if b = head then none
    else if test b then some b
    else walk step head test fuel (step b)

/-- Walking along `next` finds the first node of the ring that passes. -/
theorem Linked.walk_next {test : N → Bool} {fuel : ℕ} (h : l.Linked a xs head) (hx : head ∉ xs)
    (hf : xs.length < fuel) : walk l.next head test fuel (l.next a) = xs.find? test := by
  induction xs generalizing a fuel with
  | nil =>
    cases fuel with
    | zero => cases hf
    | succ fuel => simp [walk,h.1]
  | cons x xs ih =>
    cases fuel with
    | zero => cases hf
    | succ fuel =>
      obtain ⟨h₁,-,h₂⟩ := h
      simp only [List.mem_cons,not_or] at hx
      rw [h₁,walk,if_neg (Ne.symm hx.1),List.find?_cons]
      cases hb : test x with
      | true => rfl
      | false => exact ih h₂ hx.2 (Nat.lt_of_succ_lt_succ hf)

theorem Linked.walk_prev {test : N → Bool} {fuel : ℕ} (h : l.Linked head xs b) (hx : head ∉ xs)
    (hf : xs.length < fuel) : walk l.prev head test fuel (l.prev b) = xs.reverse.find? test := by
  induction xs using List.reverseRecOn generalizing b fuel with
  | nil =>
    cases fuel with
    | zero => cases hf
    | succ fuel => simp [walk,h.2]
  | append_singleton xs x ih =>
    cases fuel with
    | zero => cases hf
    | succ fuel =>
      rw [linked_concat] at h
      obtain ⟨h₁,-,h₂⟩ := h
      simp only [List.mem_append,List.mem_singleton,not_or] at hx
      rw [h₂,walk,if_neg (Ne.symm hx.2),List.reverse_append,List.reverse_singleton,
        List.singleton_append,List.find?_cons]
      cases hb : test x with
      | true => rfl
      | false => exact ih h₁ hx.1 (by simpa using hf)

end Walk

end Links

end Xv6.Library
