import Mathlib

/-! # Which blocks an address is in

A block is its start and its length. How many blocks of a list an address is in is additive in the
list, so that splitting and joining blocks is arithmetic; a list is disjoint if no address is in
more than one.
-/
namespace Xv6.Library

def covers (b : ℕ × ℕ) (x : ℕ) : ℕ := if b.1 ≤ x ∧ x < b.1 + b.2 then 1 else 0

def cover (l : List (ℕ × ℕ)) (x : ℕ) : ℕ := (l.map fun b => covers b x).sum

section Cover
variable {a m n x : ℕ} {b c : ℕ × ℕ} {l l' : List (ℕ × ℕ)}

@[simp] theorem cover_nil : cover [] x = 0 := rfl

@[simp] theorem cover_cons : cover (b :: l) x = covers b x + cover l x := by simp [cover]

@[simp] theorem cover_append : cover (l ++ l') x = cover l x + cover l' x := by simp [cover]

theorem covers_add : covers (a,m + n) x = covers (a,m) x + covers (a + m,n) x := by
  simp only [covers]
  split_ifs <;> omega

@[simp] theorem covers_zero : covers (a,0) x = 0 := if_neg fun h => absurd (h.1.trans_lt h.2) (by simp)

theorem covers_eq_one (h₁ : b.1 ≤ x) (h₂ : x < b.1 + b.2) : covers b x = 1 := if_pos ⟨h₁,h₂⟩

theorem covers_le_one : covers b x ≤ 1 := by
  unfold covers
  split_ifs <;> simp

theorem covers_of_lt (h : x < b.1) : covers b x = 0 := if_neg fun h' => absurd h'.1 (by omega)

theorem cover_pos_iff : 0 < cover l x ↔ ∃ b ∈ l, b.1 ≤ x ∧ x < b.1 + b.2 := by
  induction l with
  | nil => simp
  | cons b l ih =>
    rw [cover_cons]
    by_cases h : b.1 ≤ x ∧ x < b.1 + b.2
    · exact iff_of_true (by simp [covers,h]) ⟨b,by simp,h⟩
    · simp [covers,h,ih]

theorem le_cover (hb : b ∈ l) : covers b x ≤ cover l x := by
  obtain ⟨l₁,l₂,rfl⟩ := List.append_of_mem hb
  simp only [cover_append,cover_cons]
  omega

/-- Two blocks that no address is in both of lie one after the other. -/
theorem disjoint_of_covers (h : ∀ x, covers b x + covers c x ≤ 1) (hb : 0 < b.2) (hc : 0 < c.2) :
    b.1 + b.2 ≤ c.1 ∨ c.1 + c.2 ≤ b.1 := by
  by_contra hne
  rw [not_or,Nat.not_le,Nat.not_le] at hne
  have := h (max b.1 c.1)
  rw [covers_eq_one (by omega) (by omega),covers_eq_one (by omega) (by omega)] at this
  omega

theorem pairwise_disjoint_of_cover (h : ∀ x, cover l x ≤ 1) (hpos : ∀ b ∈ l, 0 < b.2) :
    l.Pairwise fun b c => b.1 + b.2 ≤ c.1 ∨ c.1 + c.2 ≤ b.1 := by
  induction l with
  | nil => exact List.Pairwise.nil
  | cons b l ih =>
    refine List.Pairwise.cons (fun c hc => ?_) (ih (fun x => ?_) fun c hc => hpos c (List.mem_cons_of_mem _ hc))
    · refine disjoint_of_covers (fun x => ?_) (hpos b (by simp)) (hpos c (by simp [hc]))
      exact (Nat.add_le_add_left (le_cover hc) _).trans (cover_cons (l := l) ▸ h x)
    · have := h x
      rw [cover_cons] at this
      omega

end Cover

end Xv6.Library
