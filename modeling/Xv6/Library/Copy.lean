import Mathlib.Data.BitVec
import Mathlib.Tactic.Ring

/-! # Copying within one memory

A range is copied one cell at a time, upwards or downwards, in a memory with wrapping addresses.
Where the copy of a cell could overwrite one that is still to be read is a condition on the
distance of the two ranges.
-/
namespace Xv6.Library
open Function (update update_of_ne update_self)

variable {w : ℕ} {α : Type*}

/-- `n` cells are copied, `d` and `s` going up. -/
def copyUp : ℕ → BitVec w → BitVec w → (BitVec w → α) → BitVec w → α
  | 0, _, _, m => m
  | n + 1, d, s, m => copyUp n (d + 1#w) (s + 1#w) (update m d (m s))

/-- `n` cells are copied, `d` and `s` going down before each. -/
def copyDown : ℕ → BitVec w → BitVec w → (BitVec w → α) → BitVec w → α
  | 0, _, _, m => m
  | n + 1, d, s, m => copyDown n (d - 1#w) (s - 1#w) (update m (d - 1#w) (m (s - 1#w)))

/-- The memory in which the `n` cells from `d` on are those that `m` has from `s` on. -/
def copied (n : ℕ) (d s : BitVec w) (m : BitVec w → α) : BitVec w → α :=
  fun a => if (a - d).toNat < n then m (s + (a - d)) else m a

theorem toNat_pred {x : BitVec w} (h : x ≠ 0) : (x - 1#w).toNat = x.toNat - 1 := by
  have hx : x.toNat ≠ 0 := fun h0 => h (BitVec.eq_of_toNat_eq (by simpa using h0))
  have hlt := x.isLt
  have hone : (1#w).toNat = 1 := Nat.mod_eq_of_lt (by omega)
  rw [BitVec.toNat_sub_of_le (by rw [BitVec.le_def,hone]; omega),hone]

theorem toNat_neg_one : (-1#w).toNat = 2 ^ w - 1 := by
  rw [BitVec.neg_one_eq_allOnes,BitVec.toNat_allOnes]

/-- Upwards nothing is lost if `d` is `s`, or not among the cells to be read after the first. -/
theorem copyUp_eq {n : ℕ} {d s : BitVec w} (m : BitVec w → α) (hn : n ≤ 2 ^ w) (h : d = s ∨ n ≤ (d - s).toNat) :
    copyUp n d s m = copied n d s m := by
  induction n generalizing d s m with
  | zero =>
    funext a
    rw [copyUp,copied,if_neg (Nat.not_lt_zero _)]
  | succ n ih =>
    have hsame : d + 1#w - (s + 1#w) = d - s := by ring
    have hnext : d + 1#w = s + 1#w ∨ n ≤ (d + 1#w - (s + 1#w)).toNat := by
      rw [hsame]
      exact h.imp (congrArg (· + 1#w)) fun h => by omega
    rw [copyUp,ih _ (by omega) hnext]
    funext a
    have hoff : a - (d + 1#w) = a - d - 1#w := by ring
    have hsrc : s + 1#w + (a - d - 1#w) = s + (a - d) := by ring
    rw [copied,copied,hoff,hsrc]
    by_cases ha : a = d
    · -- the cell that has just been written
      subst ha
      have hlast : ¬(a - a - 1#w).toNat < n := by
        rw [sub_self,zero_sub,toNat_neg_one]
        omega
      rw [if_neg hlast,update_self,sub_self,add_zero,if_pos (by simp)]
    · have hne : a - d ≠ 0 := sub_ne_zero.mpr ha
      have hpos : (a - d).toNat ≠ 0 := fun h0 => hne (BitVec.eq_of_toNat_eq (by simpa using h0))
      rw [toNat_pred hne,update_of_ne ha]
      by_cases hlt : (a - d).toNat < n + 1
      · rw [if_pos (by omega),if_pos hlt,update_of_ne]
        intro he
        have hd : a - d = d - s := eq_sub_of_add_eq' he
        rcases h with rfl | h
        · rw [sub_self] at hd
          exact hne hd
        · rw [hd] at hlt
          omega
      · rw [if_neg (by omega),if_neg hlt]

/-- Downwards nothing is lost if `s` is `d`, or not among the cells written before the last. -/
theorem copyDown_eq {n : ℕ} {d s : BitVec w} (m : BitVec w → α) (hn : n ≤ 2 ^ w) (h : s = d ∨ n ≤ (s - d).toNat) :
    copyDown n (d + BitVec.ofNat w n) (s + BitVec.ofNat w n) m = copied n d s m := by
  induction n generalizing m with
  | zero =>
    funext a
    rw [copyDown,copied,if_neg (Nat.not_lt_zero _)]
  | succ n ih =>
    have hback : ∀ x : BitVec w, x + BitVec.ofNat w (n + 1) - 1#w = x + BitVec.ofNat w n := by
      intro x
      rw [BitVec.ofNat_add]
      ring
    rw [copyDown,hback,hback,ih _ (by omega) (h.imp_right fun h => by omega)]
    have hofNat : (BitVec.ofNat w n).toNat = n := Nat.mod_eq_of_lt (by omega)
    funext a
    rw [copied,copied]
    by_cases ha : a = d + BitVec.ofNat w n
    · -- the cell that is written first
      subst ha
      rw [add_sub_cancel_left,hofNat,if_neg (Nat.lt_irrefl n),if_pos (Nat.lt_succ_self n),update_self]
    · have hne : (a - d).toNat ≠ n := by
        intro he
        refine ha (sub_eq_iff_eq_add'.mp (BitVec.eq_of_toNat_eq ?_))
        rw [he,hofNat]
      rw [update_of_ne ha]
      by_cases hlt : (a - d).toNat < n
      · rw [if_pos hlt,if_pos (by omega),update_of_ne]
        intro he
        -- the cell would have been read after it was overwritten
        have hdist : s - d = BitVec.ofNat w n - (a - d) := by
          rw [eq_sub_iff_add_eq,← sub_eq_of_eq_add' he]
          ring
        rcases h with rfl | h
        · rw [sub_self,eq_comm,sub_eq_zero] at hdist
          exact hne (by rw [← hdist,hofNat])
        · rw [hdist,BitVec.toNat_sub_of_le (by rw [BitVec.le_def,hofNat]; omega),hofNat] at h
          omega
      · rw [if_neg hlt,if_neg (by omega)]

end Xv6.Library
