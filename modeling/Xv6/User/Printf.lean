import Xv6.Kernel.Printf

/-! # `vprintf` of the user library

The loop remembers in `state` that it has just seen a `%`, where the kernel's looks ahead at once. Digits are in
upper case, and `printint` takes an `int`.
-/
namespace Xv6.User
open Library

def digits (d : ℕ) : Byte := (text "0123456789ABCDEF").getD d 0

def printint (xx : BitVec 32) (base : ℕ) (sgn : Bool) : Option (List Byte) :=
  let neg := sgn && decide (xx.toInt < 0)
  putInt digits base 16 neg (if neg then -xx else xx).toNat

def printptr (x : BitVec 64) : List Byte := text "0x" ++ ptrDigits digits 16 x

section
variable (str : BitVec 64 → List Byte)

def convert (a : BitVec 64) : Conversion → Option (List Byte)
  | .int false base sgn => printint (a.setWidth 32) base sgn
  -- `va_arg(ap, uint64)` is converted to `printint`'s `int`
  | .int true base sgn => printint (a.setWidth 32) base sgn
  | .ptr => some (printptr a)
  | .str => some (if a = 0 then text "(null)" else str a)
  | .percent => some [ascii '%']
  | .unknown c0 => some [ascii '%',c0]

/-- The loop over what is left of the format; `state` is set after a `%`. -/
def vprintf : (state : Bool) → List Byte → Stream' (BitVec 64) → Option (List Byte)
  | _, [], _ => some []
  | false, c0 :: rest, ap =>
    if c0 = 0 then some []
    else if c0 = ascii '%' then vprintf true rest ap
    else (vprintf false rest ap).map (c0 :: ·)
  | true, c0 :: rest, ap =>
    if c0 = 0 then some []
    else
      let c1 := rest.getD 0 0
      let c2 := if c1 ≠ 0 then rest.getD 1 0 else 0
      let c := conversion c0 c1 c2
      (convert str ap.head c.1).bind fun out => (vprintf false (rest.drop c.2) (c.1.rest ap)).map (out ++ ·)
termination_by _ fmt => fmt.length
decreasing_by all_goals simp only [List.length_cons,List.length_drop]; omega

theorem vprintf_conversion {p : Piece} {c : Conversion} (hc : p.conversion = some c) (rest : List Byte)
    (ap : Stream' (BitVec 64)) :
    vprintf str false (p.bytes ++ rest) ap =
      (convert str ap.head c).bind fun out => (vprintf str false rest (p.rest ap)).map (out ++ ·) := by
  obtain ⟨c0,t,hbytes,hne,hconv⟩ := conversion_piece hc rest
  have hpercent : ascii '%' ≠ 0 := by decide
  rw [hbytes,List.cons_append,List.cons_append,vprintf,if_neg hpercent,if_pos rfl,vprintf,if_neg hne]
  simp only [hconv _ _ rfl rfl]
  rw [rest_of_conversion hc,List.drop_left]

theorem vprintf_lit {b : Byte} (h : b ≠ 0 ∧ b ≠ ascii '%') (rest : List Byte) (ap : Stream' (BitVec 64)) :
    vprintf str false (b :: rest) ap = (vprintf str false rest ap).map (b :: ·) := by
  rw [vprintf,if_neg h.1,if_neg h.2]

end

/-! ## Integers -/

def upper (c : Char) : Byte := ascii c.toUpper

theorem digits_eq : ∀ d, d < 16 → digits d = upper d.digitChar := by decide

theorem printint_decimal (v : BitVec 32) : printint v 10 true = some ((toString v.toInt).toList.map upper) := by
  have hle := BitVec.toInt_lt (x := v)
  have hge := BitVec.le_toInt (x := v)
  have h := putInt_signed (fun d hd => digits_eq d (by omega)) rfl 16 v
  rw [if_pos ((length_toString_le_iff v.toInt 14).mpr (by omega))] at h
  simpa only [printint,Bool.true_and,decide_eq_true_eq] using h

theorem printint_unsigned (v : BitVec 32) {base : ℕ} (hb : 10 ≤ base) (hb' : base ≤ 16) :
    printint v base false = some ((Nat.toDigits base v.toNat).map upper) := by
  have hv : v.toNat < base ^ 16 :=
    calc v.toNat < 10 ^ 16 := by omega
      _ ≤ base ^ 16 := Nat.pow_le_pow_left hb 16
  have hd : ∀ d, d < base → digits d = upper d.digitChar := fun d hd => digits_eq d (by omega)
  have h := putInt_eq hd (by omega) 16 false v.toNat
  rw [Bool.toNat_false,Nat.add_zero,if_pos ((Nat.length_toDigits_le_iff (by omega) (by omega)).mpr hv)] at h
  exact h

/-! ## Whole formats -/

/-- The values that `vprintf` renders: those that fit in 32 bits. -/
def Short : Piece → BitVec 64 → Prop
  | .int .int _, _ => True
  | .int _ .d, a => -2 ^ 31 ≤ a.toInt ∧ a.toInt < 2 ^ 31
  | .int _ _, a => a.toNat < 2 ^ 32
  | _, _ => True

theorem toInt_low {a : BitVec 64} (h : -2 ^ 31 ≤ a.toInt ∧ a.toInt < 2 ^ 31) : (a.setWidth 32).toInt = a.toInt := by
  have ha := BitVec.toInt_eq_toNat_cond a
  have hlow := BitVec.toInt_eq_toNat_cond (a.setWidth 32)
  rw [BitVec.toNat_setWidth] at hlow
  split at ha <;> split at hlow <;> omega

theorem toNat_low {a : BitVec 64} (h : a.toNat < 2 ^ 32) : (a.setWidth 32).toNat = a.toNat := by
  rw [BitVec.toNat_setWidth,Nat.mod_eq_of_lt h]

def width (l : List Byte) : ℕ := l.countP (· != ascii '-')

theorem upper_inj : ∀ d < 10, ∀ e < 10, upper d.digitChar = upper e.digitChar → d = e := by decide

theorem width_toDigits {base : ℕ} (hb : 1 < base) (hb' : base ≤ 16) (n : ℕ) :
    width ((Nat.toDigits base n).map upper) = (Nat.toDigits base n).length := by
  have hdigit : ∀ d < 16, upper d.digitChar ≠ ascii '-' := by decide
  rw [width,List.countP_map,List.countP_eq_length]
  intro c hc
  obtain ⟨d,hd,rfl⟩ := exists_of_mem_toDigits hb hc
  exact bne_iff_ne.mpr (hdigit d (by omega))

theorem width_toString (z : ℤ) : width ((toString z).toList.map upper) = (Nat.toDigits 10 z.natAbs).length := by
  rw [toList_toString,List.map_append,width,List.countP_append,← width,← width,width_toDigits (by omega) (by omega)]
  split
  · exact Nat.zero_add _
  · exact Nat.zero_add _

theorem length_toDigits_le {m n : ℕ} (hm : m < 2 ^ 32) (hn : 2 ^ 31 ≤ n) :
    (Nat.toDigits 10 m).length ≤ (Nat.toDigits 10 n).length := by
  have hten := (Nat.length_toDigits_le_iff (n := m) (b := 10) (k := 10) (by omega) (by omega)).mpr (by omega)
  have hnine := mt (Nat.length_toDigits_le_iff (n := n) (b := 10) (k := 9) (by omega) (by omega)).mp (by omega)
  omega

/-- A text that cannot stand for the meant one, whatever follows: it has fewer digits, or as many and begins differently. -/
def Differs (out meant : List Byte) : Prop :=
  width out ≤ width meant ∧ (width out = width meant → ∀ x y, out ++ x ≠ meant ++ y)

theorem differs_decimal {u v : ℤ} (hu : u.natAbs < 2 ^ 32) (hv : 2 ^ 31 ≤ v.natAbs) (hne : u ≠ v) :
    Differs ((toString u).toList.map upper) ((toString v).toList.map upper) := by
  rw [Differs,width_toString,width_toString]
  exact ⟨length_toDigits_le hu hv,fun hlen x y heq => hne (toString_map_inj upper_inj (by decide) hlen heq)⟩

theorem differs_hex {m n : ℕ} (hm : m < 2 ^ 32) (hn : ¬n < 2 ^ 32) :
    Differs ((Nat.toDigits 16 m).map upper) ((Nat.toDigits 16 n).map upper) := by
  have h₁ := (Nat.length_toDigits_le_iff (n := m) (b := 16) (k := 8) (by omega) (by omega)).mpr hm
  have h₂ := mt (Nat.length_toDigits_le_iff (n := n) (b := 16) (k := 8) (by omega) (by omega)).mp hn
  rw [Differs,width_toDigits (by omega) (by omega),width_toDigits (by omega) (by omega)]
  exact ⟨by omega,fun heq => by omega⟩

section
variable {str : BitVec 64 → List Byte}

/-- A value is printed as meant or is beyond 32 bits, and then the text tells. -/
theorem convert_exact {p : Piece} {c : Conversion} (hc : p.conversion = some c) (a : BitVec 64) :
    convert str a c = some (p.meant upper str a) ∧ Short p a ∨
      ¬Short p a ∧ ∀ out, convert str a c = some out → Differs out (p.meant upper str a) := by
  have hunsigned : printint (a.setWidth 32) 10 false = some ((toString (a.setWidth 32).toNat).toList.map upper) :=
    (printint_unsigned _ (by omega) (by omega)).trans
      (congrArg (fun l => some (List.map upper l)) String.toList_ofList.symm)
  have hhex : printint (a.setWidth 32) 16 false = some ((Nat.toDigits 16 (a.setWidth 32).toNat).map upper) :=
    printint_unsigned _ (by omega) (by omega)
  have hlow := (a.setWidth 32).isLt
  rcases p with ⟨b,h⟩ | ⟨size,style⟩ | _ | _ | _
  · cases hc
  · cases style with
    | d =>
      cases size with
      | int =>
        cases hc
        exact .inl ⟨printint_decimal _,trivial⟩
      | long | longLong =>
        cases hc
        by_cases ha : -2 ^ 31 ≤ a.toInt ∧ a.toInt < 2 ^ 31
        · refine .inl ⟨(printint_decimal _).trans ?_,ha⟩
          rw [toInt_low ha]
          rfl
        · refine .inr ⟨ha,fun out hout => ?_⟩
          have hle := BitVec.toInt_lt (x := a.setWidth 32)
          have hge := BitVec.le_toInt (x := a.setWidth 32)
          obtain rfl := Option.some.inj ((printint_decimal _).symm.trans hout)
          exact differs_decimal (v := a.toInt) (by omega) (by omega) (by omega)
    | u =>
      cases size with
      | int =>
        cases hc
        exact .inl ⟨hunsigned,trivial⟩
      | long | longLong =>
        cases hc
        by_cases ha : a.toNat < 2 ^ 32
        · refine .inl ⟨hunsigned.trans ?_,ha⟩
          rw [toNat_low ha]
          rfl
        · refine .inr ⟨ha,fun out hout => ?_⟩
          obtain rfl := Option.some.inj (hunsigned.symm.trans hout)
          exact differs_decimal (u := (a.setWidth 32).toNat) (v := a.toNat) (by omega) (by omega) (by omega)
    | x =>
      cases size with
      | int =>
        cases hc
        exact .inl ⟨hhex,trivial⟩
      | long | longLong =>
        cases hc
        by_cases ha : a.toNat < 2 ^ 32
        · refine .inl ⟨hhex.trans ?_,ha⟩
          rw [toNat_low ha]
          rfl
        · refine .inr ⟨ha,fun out hout => ?_⟩
          obtain rfl := Option.some.inj (hhex.symm.trans hout)
          exact differs_hex hlow ha
  · cases hc
    rw [convert,printptr,ptrDigits_eq]
    refine .inl ⟨congrArg (fun l => some (text "0x" ++ l)) (List.map_congr_left fun j _ => ?_),trivial⟩
    exact digits_eq _ (Nat.mod_lt _ (by omega))
  · cases hc
    exact .inl ⟨rfl,trivial⟩
  · cases hc
    exact .inl ⟨rfl,trivial⟩

end

/-- `vprintf` prints what the format means, its digits in upper case, if and only if every value fits in 32 bits:
one wrong text cannot make up for another. -/
theorem vprintf_meant (str : BitVec 64 → List Byte) (ps : List Piece) (ap : Stream' (BitVec 64)) :
    vprintf str false (ps.flatMap Piece.bytes) ap = some (meant upper str ps ap) ↔ Throughout Short ps ap := by
  refine (meant_iff_steps (vprintf str false) (convert str) (fun l => -width l) (fun x y => ?_) (fun ap => ?_) (vprintf_lit str)
    (vprintf_conversion str) (fun _ _ => trivial) (fun {p c} hc a => ?_) ps ap).2
  · rw [width,List.countP_append,Nat.cast_add,neg_add]
    rfl
  · rw [vprintf]
  · refine (convert_exact hc a).imp_right fun ⟨hno,hwrong⟩ => ⟨hno,fun out hout => ?_⟩
    obtain ⟨hle,hne⟩ := hwrong out hout
    exact ⟨by omega,fun heq => hne (by omega)⟩

example :
    vprintf (fun _ => []) false (text "%x%%%ld") (Stream'.cons (-1) (Stream'.const (-7))) = some (text "FFFFFFFF%-7") := by
  decide +kernel

/-- Only the low half of a 64-bit value is printed. -/
theorem vprintf_long_truncated :
    vprintf (fun _ => []) false (text "%lu") (Stream'.const 0x100000000) = some (text "0") ∧
      meant upper (fun _ => []) [.int .long .u] (Stream'.const 0x100000000) = text "4294967296" := by
  have hu := vprintf_conversion (fun _ => []) (p := .int .long .u) rfl [] (Stream'.const 0x100000000)
  rw [vprintf] at hu
  exact ⟨hu.trans (by decide +kernel),by decide +kernel⟩

end Xv6.User
