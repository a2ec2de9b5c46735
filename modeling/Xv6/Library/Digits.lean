import Xv6.Library.Bytes

/-! # Integers as text, through a buffer filled from the lowest digit on

A do-while loop stores the digits of a number into an array of bounded size, a sign may follow, and
the array is then read backwards.
-/
namespace Xv6.Library

section
variable (digit : ℕ → Byte) (base : ℕ)

/-- The loop with `room` places left in the array; `none` is a store beyond it. -/
def storeDigits : (room x : ℕ) → (buf : List Byte) → Option (List Byte)
  | 0, _, _ => none
  | room + 1, x, buf =>
    if x / base ≠ 0 then storeDigits room (x / base) (buf ++ [digit (x % base)])
    else some (buf ++ [digit (x % base)])

/-- The text of `x`, with a minus sign if `neg` is set, through an array of `size` bytes. -/
def putInt (size : ℕ) (neg : Bool) (x : ℕ) : Option (List Byte) :=
  (storeDigits digit base size x []).bind fun buf =>
    if neg then
      if buf.length < size then some (buf ++ [ascii '-']).reverse else none
    else some buf.reverse

variable {digit base} {letter : Char → Byte} (hd : ∀ d, d < base → digit d = letter d.digitChar)

include hd in
theorem storeDigits_eq (hb : 1 < base) (room x : ℕ) (buf : List Byte) :
    storeDigits digit base room x buf =
      if (Nat.toDigits base x).length ≤ room then some (buf ++ ((Nat.toDigits base x).map letter).reverse) else none := by
  induction room generalizing x buf with
  | zero =>
    have hpos : 0 < (Nat.toDigits base x).length := Nat.length_toDigits_pos
    rw [storeDigits,if_neg (by omega)]
  | succ room ih =>
    have hmod : digit (x % base) = letter (x % base).digitChar := hd _ (Nat.mod_lt _ (by omega))
    rw [storeDigits,hmod]
    by_cases hx : x / base = 0
    · have hlt : x < base := (Nat.div_eq_zero_iff.mp hx).resolve_left (by omega)
      rw [if_neg (not_not.mpr hx),Nat.toDigits_of_lt_base hlt,Nat.mod_eq_of_lt hlt]
      simp
    · have hle : base ≤ x := by
        by_contra h
        exact hx (Nat.div_eq_of_lt (by omega))
      rw [if_pos hx,ih,Nat.toDigits_of_base_le hb hle]
      simp [List.append_assoc]

include hd in
theorem putInt_eq (hb : 1 < base) (size : ℕ) (neg : Bool) (x : ℕ) :
    putInt digit base size neg x =
      if (Nat.toDigits base x).length + neg.toNat ≤ size then
        some ((if neg then [ascii '-'] else []) ++ (Nat.toDigits base x).map letter)
      else none := by
  rw [putInt,storeDigits_eq hd hb]
  by_cases hfit : (Nat.toDigits base x).length ≤ size
  · rw [if_pos hfit]
    cases neg with
    | false => simp [hfit]
    | true =>
      by_cases hsign : (Nat.toDigits base x).length < size
      · simp [hsign,Nat.succ_le_of_lt hsign]
      · simp [hsign,show ¬(Nat.toDigits base x).length + 1 ≤ size by omega]
  · have hno : ¬(Nat.toDigits base x).length + neg.toNat ≤ size := by omega
    rw [if_neg hfit,if_neg hno]
    rfl

end

/-! ## Two's complement values -/

theorem toNat_neg_of_neg {w : ℕ} {x : BitVec w} (h : x.toInt < 0) : (-x).toNat = x.toInt.natAbs := by
  have hx := x.isLt
  have hcond := BitVec.toInt_eq_toNat_cond x
  rw [BitVec.toNat_neg]
  split at hcond
  · omega
  · rw [Nat.mod_eq_of_lt (by omega)]
    omega

theorem toNat_of_nonneg {w : ℕ} {x : BitVec w} (h : 0 ≤ x.toInt) : x.toNat = x.toInt.natAbs := by
  have hx := x.isLt
  have hcond := BitVec.toInt_eq_toNat_cond x
  split at hcond
  · omega
  · omega

theorem toList_toString (z : ℤ) :
    (toString z).toList = (if z < 0 then ['-'] else []) ++ Nat.toDigits 10 z.natAbs := by
  cases z with
  | ofNat n =>
    have hn : ¬Int.ofNat n < 0 := by simp
    rw [if_neg hn]
    exact String.toList_ofList
  | negSucc n =>
    rw [if_pos (Int.negSucc_lt_zero n)]
    change ("-" ++ Nat.repr (n + 1)).toList = _
    rw [String.toList_append]
    exact congrArg (['-'] ++ ·) String.toList_ofList

theorem length_toString_le_iff (z : ℤ) (k : ℕ) :
    (toString z).toList.length ≤ k + 2 ↔ -10 ^ (k + 1) < z ∧ z < 10 ^ (k + 2) := by
  have hpos : (0 : ℤ) < 10 ^ (k + 1) := by positivity
  have hpow : (10 : ℤ) ^ (k + 2) = 10 * 10 ^ (k + 1) := pow_succ' 10 (k + 1)
  rw [toList_toString,List.length_append]
  by_cases hz : z < 0
  · have hlen := Nat.length_toDigits_le_iff (n := z.natAbs) (k := k + 1) (b := 10) (by omega) (by omega)
    rw [if_pos hz,List.length_singleton,Nat.add_comm,Nat.add_le_add_iff_right,hlen]
    zify
    rw [abs_of_neg hz]
    omega
  · have hlen := Nat.length_toDigits_le_iff (n := z.natAbs) (k := k + 2) (b := 10) (by omega) (by omega)
    rw [if_neg hz,List.length_nil,Nat.zero_add,hlen]
    zify
    rw [abs_of_nonneg (by omega)]
    omega

section
variable {digit : ℕ → Byte} {letter : Char → Byte}

/-- A signed value goes through the array exactly if its text fits. -/
theorem putInt_signed (hd : ∀ d, d < 10 → digit d = letter d.digitChar) (hminus : letter '-' = ascii '-') (size : ℕ)
    {w : ℕ} (v : BitVec w) :
    putInt digit 10 size (decide (v.toInt < 0)) (if v.toInt < 0 then -v else v).toNat =
      if (toString v.toInt).toList.length ≤ size then some ((toString v.toInt).toList.map letter) else none := by
  rw [putInt_eq hd (by omega),toList_toString]
  by_cases hneg : v.toInt < 0
  · simp [hneg,toNat_neg_of_neg hneg,hminus,Nat.add_comm]
  · simp [hneg,toNat_of_nonneg (not_lt.mp hneg)]

/-! ## Telling values apart by their texts -/

theorem exists_of_mem_toDigits {b n : ℕ} (hb : 1 < b) {c : Char} (h : c ∈ Nat.toDigits b n) : ∃ d < b, c = d.digitChar := by
  induction n using Nat.strongRecOn with
  | ind n ih =>
    rw [Nat.toDigits_eq_if hb] at h
    split at h
    · rename_i hn
      exact ⟨n,hn,List.mem_singleton.mp h⟩
    · rename_i hn
      rcases List.mem_append.mp h with h | h
      · exact ih _ (Nat.div_lt_self (by omega) hb) h
      · exact ⟨n % b,Nat.mod_lt n (by omega),List.mem_singleton.mp h⟩

theorem toDigits_map_inj {b : ℕ} (hb : 1 < b) (hinj : ∀ d < b, ∀ e < b, letter d.digitChar = letter e.digitChar → d = e)
    {m n : ℕ} (h : (Nat.toDigits b m).map letter = (Nat.toDigits b n).map letter) : m = n := by
  induction m using Nat.strongRecOn generalizing n with
  | ind m ih =>
    have hpos : ∀ k, (Nat.toDigits b k).length ≠ 0 := fun k => Nat.length_toDigits_pos.ne'
    have hlen := congrArg List.length h
    rw [Nat.toDigits_eq_if hb,Nat.toDigits_eq_if (n := n) hb] at h hlen
    by_cases hm : m < b <;> by_cases hn : n < b <;> simp only [hm,hn,if_true,if_false] at h hlen
    · exact hinj m hm n hn (List.cons.inj h).1
    · exact absurd hlen (by simp [hpos])
    · exact absurd hlen (by simp [hpos])
    · rw [List.map_append,List.map_append] at h
      obtain ⟨hdiv,hmod⟩ := List.append_inj' h rfl
      have hdiv := ih _ (Nat.div_lt_self (by omega) hb) hdiv
      have hmod := hinj _ (Nat.mod_lt m (by omega)) _ (Nat.mod_lt n (by omega)) (List.cons.inj hmod).1
      rw [← Nat.div_add_mod m b,hdiv,hmod,Nat.div_add_mod]

/-- Signed values with as many digits are told apart by the beginning of a text. -/
theorem toString_map_inj (hinj : ∀ d < 10, ∀ e < 10, letter d.digitChar = letter e.digitChar → d = e)
    (hminus : ∀ d < 10, letter d.digitChar ≠ letter '-') {u v : ℤ} {x y : List Byte}
    (hlen : (Nat.toDigits 10 u.natAbs).length = (Nat.toDigits 10 v.natAbs).length)
    (h : (toString u).toList.map letter ++ x = (toString v).toList.map letter ++ y) : u = v := by
  have hfirst : ∀ (n : ℕ) (x y : List Byte), letter '-' :: x ≠ (Nat.toDigits 10 n).map letter ++ y := by
    intro n x y heq
    obtain ⟨c,t,hct⟩ := List.exists_cons_of_ne_nil (Nat.toDigits_ne_nil (b := 10) (n := n))
    obtain ⟨d,hd,rfl⟩ := exists_of_mem_toDigits (by omega) (hct ▸ List.mem_cons_self : c ∈ Nat.toDigits 10 n)
    rw [hct] at heq
    exact hminus d hd (List.cons.inj heq).1.symm
  have hsame : ∀ {x y : List Byte}, (Nat.toDigits 10 u.natAbs).map letter ++ x = (Nat.toDigits 10 v.natAbs).map letter ++ y →
      u.natAbs = v.natAbs := fun heq =>
    toDigits_map_inj (by omega) hinj (List.append_inj heq (by rw [List.length_map,List.length_map,hlen])).1
  rw [toList_toString,toList_toString] at h
  by_cases hu : u < 0 <;> by_cases hv : v < 0 <;>
    simp only [hu,hv,if_true,if_false,List.nil_append,List.map_cons,List.cons_append] at h
  · have := hsame (List.cons.inj h).2
    omega
  · exact absurd h (hfirst _ _ _)
  · exact absurd h.symm (hfirst _ _ _)
  · have := hsame h
    omega

end

end Xv6.Library
