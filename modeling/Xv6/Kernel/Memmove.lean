import Xv6.Library.Bytes
import Xv6.Library.Copy

/-! # `memmove` in `kernel/string.c` and `user/ulib.c`

The two choose the direction by different tests; neither loses a byte however the ranges overlap.
Addresses have 64 bits and wrap.
-/
namespace Xv6
open Library

abbrev Memory := BitVec 64 → Byte

/-- `memmove(dst, src, n)` of the kernel; `n` is a `uint`. -/
def memmove (dst src : BitVec 64) (n : BitVec 32) (m : Memory) : Memory :=
  if n = 0 then m
  else if src < dst ∧ dst < src + n.setWidth 64 then
    copyDown n.toNat (dst + n.setWidth 64) (src + n.setWidth 64) m
  else copyUp n.toNat dst src m

namespace User

/-- `memmove(vdst, vsrc, n)` of the user library; `n` is an `int`, and neither loop does anything if it is negative. -/
def memmove (vdst vsrc : BitVec 64) (n : BitVec 32) (m : Memory) : Memory :=
  if vdst < vsrc then copyUp n.toInt.toNat vdst vsrc m
  else copyDown n.toInt.toNat (vdst + n.signExtend 64) (vsrc + n.signExtend 64) m

end User

section
variable {dst src : BitVec 64} {n : BitVec 32}

theorem setWidth_eq (n : BitVec 32) : n.setWidth 64 = BitVec.ofNat 64 n.toNat := by
  apply BitVec.eq_of_toNat_eq
  rw [BitVec.toNat_setWidth,BitVec.toNat_ofNat]

theorem memmove_eq (m : Memory) (hsrc : src.toNat + n.toNat ≤ 2 ^ 64) (hdst : dst.toNat + n.toNat ≤ 2 ^ 64) :
    memmove dst src n m = copied n.toNat dst src m := by
  have hn := n.isLt
  have hle : n.toNat ≤ 2 ^ 64 := by omega
  have hsum : (src + n.setWidth 64).toNat = (src.toNat + n.toNat) % 2 ^ 64 := by
    rw [BitVec.toNat_add,BitVec.toNat_setWidth,Nat.add_mod_mod]
  rw [memmove]
  split
  · rename_i h
    subst h
    exact (copyUp_eq m hle (.inr (Nat.zero_le _)))
  split
  · rename_i h
    obtain ⟨h₁,-⟩ := h
    rw [BitVec.lt_def] at h₁
    rw [setWidth_eq]
    refine copyDown_eq m hle (.inr ?_)
    rw [BitVec.toNat_sub]
    omega
  · rename_i h
    rw [BitVec.lt_def,BitVec.lt_def,hsum] at h
    refine copyUp_eq m hle ?_
    by_cases he : dst = src
    · exact .inl he
    · have hne : dst.toNat ≠ src.toNat := fun h => he (BitVec.eq_of_toNat_eq h)
      have hlt := dst.isLt
      right
      rw [BitVec.toNat_sub]
      omega

theorem User.memmove_eq (m : Memory) (hpos : n.toNat < 2 ^ 31) (hsrc : src.toNat + n.toNat ≤ 2 ^ 64)
    (hdst : dst.toNat + n.toNat ≤ 2 ^ 64) : User.memmove dst src n m = copied n.toNat dst src m := by
  have hint : n.toInt.toNat = n.toNat := by
    rw [BitVec.toInt_eq_toNat_of_lt (by omega),Int.toNat_natCast]
  have hext : n.signExtend 64 = BitVec.ofNat 64 n.toNat := by
    rw [BitVec.signExtend_eq_setWidth_of_msb_false (BitVec.msb_eq_false_iff_two_mul_lt.mpr (by omega)),setWidth_eq]
  have hle : n.toNat ≤ 2 ^ 64 := by omega
  rw [User.memmove,hint,hext]
  split
  · rename_i h
    rw [BitVec.lt_def] at h
    refine copyUp_eq m hle (.inr ?_)
    rw [BitVec.toNat_sub]
    omega
  · rename_i h
    rw [BitVec.lt_def] at h
    refine copyDown_eq m hle ?_
    by_cases he : src = dst
    · exact .inl he
    · have hne : src.toNat ≠ dst.toNat := fun h => he (BitVec.eq_of_toNat_eq h)
      right
      rw [BitVec.toNat_sub]
      omega

theorem copied_bytes (src : BitVec 64) (m : Memory) {k : ℕ} (hk : dst.toNat + k ≤ 2 ^ 64) :
    (∀ i, i < k → copied k dst src m (dst + BitVec.ofNat 64 i) = m (src + BitVec.ofNat 64 i)) ∧
      ∀ a : BitVec 64, a.toNat < dst.toNat ∨ dst.toNat + k ≤ a.toNat → copied k dst src m a = m a := by
  constructor
  · intro i hi
    have hi' : (BitVec.ofNat 64 i).toNat = i := Nat.mod_eq_of_lt (by omega)
    rw [copied,add_sub_cancel_left,hi',if_pos hi]
  · intro a ha
    have hlt := a.isLt
    rw [copied,if_neg]
    rw [BitVec.toNat_sub]
    omega

end

/-- Both `memmove`s copy as if through a temporary. -/
theorem memmove_copies (m : Memory) (dst src : BitVec 64) (n : BitVec 32) (hsrc : src.toNat + n.toNat ≤ 2 ^ 64)
    (hdst : dst.toNat + n.toNat ≤ 2 ^ 64) :
    ((∀ i, i < n.toNat → memmove dst src n m (dst + BitVec.ofNat 64 i) = m (src + BitVec.ofNat 64 i)) ∧
      ∀ a : BitVec 64, a.toNat < dst.toNat ∨ dst.toNat + n.toNat ≤ a.toNat → memmove dst src n m a = m a) ∧
    (0 ≤ n.toInt →
      ((∀ i, i < n.toNat → User.memmove dst src n m (dst + BitVec.ofNat 64 i) = m (src + BitVec.ofNat 64 i)) ∧
        ∀ a : BitVec 64, a.toNat < dst.toNat ∨ dst.toNat + n.toNat ≤ a.toNat → User.memmove dst src n m a = m a) ∧
      User.memmove dst src n m = memmove dst src n m) := by
  have hbytes := copied_bytes src m hdst
  refine ⟨?_,fun hpos => ?_⟩
  · rw [memmove_eq m hsrc hdst]
    exact hbytes
  · have hlt : n.toNat < 2 ^ 31 := by
      have := BitVec.toInt_eq_toNat_cond n
      split at this <;> omega
    rw [User.memmove_eq m hlt hsrc hdst,memmove_eq m hsrc hdst]
    exact ⟨hbytes,rfl⟩

/-- Three bytes are moved up by one. -/
theorem memmove_copies_overlapping :
    memmove 1 0 3 (fun a => BitVec.ofNat 8 a.toNat) 3 = 2 ∧ User.memmove 1 0 3 (fun a => BitVec.ofNat 8 a.toNat) 3 = 2 := by
  have h := memmove_copies (fun a => BitVec.ofNat 8 a.toNat) 1 0 3 (by decide) (by decide)
  exact ⟨h.1.1 2 (by decide),(h.2 (by decide)).1.1 2 (by decide)⟩

end Xv6
