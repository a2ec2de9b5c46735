import Mathlib

/-! # A pool of processes

Quantities that a finite pool of processes contributes to, one summand for each
process, and how they change when one process moves.
-/
namespace Xv6.Library.Pool
open Function (update update_of_ne update_self)
variable {P α : Type} [Fintype P] [DecidableEq P]

/-- The sum over all processes of what each contributes by its position. -/
def total (g : α → ℕ) (pos : P → α) : ℕ := ∑ p, g (pos p)

theorem total_update (g : α → ℕ) (pos : P → α) (p : P) (x : α) :
    total g (update pos p x) + g (pos p) = total g pos + g x := by
  have hx : total g (update pos p x) = g x + ∑ q ∈ Finset.univ.erase p, g (pos q) := by
    rw [total,← Finset.add_sum_erase _ _ (Finset.mem_univ p),update_self]
    congr 1
    refine Finset.sum_congr rfl fun q hq => ?_
    rw [update_of_ne (Finset.ne_of_mem_erase hq)]
  have h : total g pos = g (pos p) + ∑ q ∈ Finset.univ.erase p, g (pos q) :=
    (Finset.add_sum_erase _ _ (Finset.mem_univ p)).symm
  omega

omit [DecidableEq P] in
theorem le_total (g : α → ℕ) (pos : P → α) (p : P) : g (pos p) ≤ total g pos :=
  Finset.single_le_sum (f := fun q => g (pos q)) (fun _ _ => Nat.zero_le _) (Finset.mem_univ p)

omit [DecidableEq P] in
theorem total_eq_zero {g : α → ℕ} {pos : P → α} : total g pos = 0 ↔ ∀ p, g (pos p) = 0 := by
  simp [total]

end Xv6.Library.Pool
