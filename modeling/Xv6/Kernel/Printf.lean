import Xv6.Library.Digits

/-! # `printf` of the kernel

A `va_list` is the stream of the 64-bit slots that hold the arguments; `va_arg(ap, int)` reads the low half of one.
`str` gives the characters of the string at an address. A run is `none` if it stores beyond `printint`'s buffer.
-/
namespace Xv6
open Library

/-! ## Conversions, as `printf` and `vprintf` of the user library dispatch them -/

inductive Conversion where
  | int (long : Bool) (base : ℕ) (sign : Bool)
  | ptr
  | str
  | percent
  | unknown (c0 : Byte)
deriving DecidableEq

/-- The chain of tests on the characters after a `%`, and by how much it moves `i`. -/
def conversion (c0 c1 c2 : Byte) : Conversion × ℕ :=
  if c0 = ascii 'd' then (.int false 10 true,0)
  else if c0 = ascii 'l' ∧ c1 = ascii 'd' then (.int true 10 true,1)
  else if c0 = ascii 'l' ∧ c1 = ascii 'l' ∧ c2 = ascii 'd' then (.int true 10 true,2)
  else if c0 = ascii 'u' then (.int false 10 false,0)
  else if c0 = ascii 'l' ∧ c1 = ascii 'u' then (.int true 10 false,1)
  else if c0 = ascii 'l' ∧ c1 = ascii 'l' ∧ c2 = ascii 'u' then (.int true 10 false,2)
  else if c0 = ascii 'x' then (.int false 16 false,0)
  else if c0 = ascii 'l' ∧ c1 = ascii 'x' then (.int true 16 false,1)
  else if c0 = ascii 'l' ∧ c1 = ascii 'l' ∧ c2 = ascii 'x' then (.int true 16 false,2)
  else if c0 = ascii 'p' then (.ptr,0)
  else if c0 = ascii 's' then (.str,0)
  else if c0 = ascii '%' then (.percent,0)
  else (.unknown c0,0)

def Conversion.takes : Conversion → Bool
  | .int _ _ _ | .ptr | .str => true
  | .percent | .unknown _ => false

def Conversion.rest (c : Conversion) (ap : Stream' (BitVec 64)) : Stream' (BitVec 64) :=
  if c.takes then ap.tail else ap

/-- The digits of a pointer from the highest on, `k` of them. -/
def ptrDigits (digit : ℕ → Byte) : (k : ℕ) → BitVec 64 → List Byte
  | 0, _ => []
  | k + 1, x => digit (x >>> 60).toNat :: ptrDigits digit k (x <<< 4)

/-! ## The kernel's -/

def digits (d : ℕ) : Byte := (text "0123456789abcdef").getD d 0

def printint (xx : BitVec 64) (base : ℕ) (sign : Bool) : Option (List Byte) :=
  let sign := sign && decide (xx.toInt < 0)
  putInt digits base 16 sign (if sign then -xx else xx).toNat

def printptr (x : BitVec 64) : List Byte := text "0x" ++ ptrDigits digits 16 x

section
variable (str : BitVec 64 → List Byte)

def convert (a : BitVec 64) : Conversion → Option (List Byte)
  -- `va_arg(ap, int)` is widened with its sign to `printint`'s `long long`, whatever the conversion
  | .int false base sign => printint ((a.setWidth 32).signExtend 64) base sign
  | .int true base sign => printint a base sign
  | .ptr => some (printptr a)
  | .str => some (if a = 0 then text "(null)" else str a)
  | .percent => some [ascii '%']
  | .unknown c0 => some [ascii '%',c0]

def printf : List Byte → Stream' (BitVec 64) → Option (List Byte)
  | [], _ => some []
  | cx :: rest, ap =>
    if cx = 0 then some []
    else if cx ≠ ascii '%' then (printf rest ap).map (cx :: ·)
    else
      let c0 := rest.getD 0 0
      let c1 := if c0 ≠ 0 then rest.getD 1 0 else 0
      let c2 := if c1 ≠ 0 then rest.getD 2 0 else 0
      if c0 = 0 then some []
      else
        let c := conversion c0 c1 c2
        (convert str ap.head c.1).bind fun out => (printf (rest.drop (1 + c.2)) (c.1.rest ap)).map (out ++ ·)
termination_by fmt => fmt.length
decreasing_by all_goals simp only [List.length_cons,List.length_drop]; omega

end

/-! ## What a format means -/

inductive Size where
  | int
  | long
  | longLong
deriving DecidableEq

inductive Style where
  | d
  | u
  | x
deriving DecidableEq

inductive Piece where
  | lit (b : Byte) (h : b ≠ 0 ∧ b ≠ ascii '%')
  | int (size : Size) (style : Style)
  | ptr
  | str
  | percent
deriving DecidableEq

def Size.bytes : Size → List Byte
  | .int => []
  | .long => text "l"
  | .longLong => text "ll"

def Style.byte : Style → Byte
  | .d => ascii 'd'
  | .u => ascii 'u'
  | .x => ascii 'x'

namespace Piece

def bytes : Piece → List Byte
  | .lit b _ => [b]
  | .int size style => ascii '%' :: (size.bytes ++ [style.byte])
  | .ptr => text "%p"
  | .str => text "%s"
  | .percent => text "%%"

def takes : Piece → Bool
  | .int _ _ | .ptr | .str => true
  | .lit _ _ | .percent => false

def rest (p : Piece) (ap : Stream' (BitVec 64)) : Stream' (BitVec 64) := if p.takes then ap.tail else ap

end Piece

def Style.meant (style : Style) {w : ℕ} (v : BitVec w) : List Char :=
  match style with
  | .d => (toString v.toInt).toList
  | .u => (toString v.toNat).toList
  | .x => Nat.toDigits 16 v.toNat

def Size.value (size : Size) (a : BitVec 64) : (w : ℕ) × BitVec w :=
  match size with
  | .int => ⟨32,a.setWidth 32⟩
  | .long | .longLong => ⟨64,a⟩

section
variable (letter : Char → Byte) (str : BitVec 64 → List Byte)

/-- What a piece is to print; `letter` fixes the case of the digits. -/
def Piece.meant (a : BitVec 64) : Piece → List Byte
  | .lit b _ => [b]
  | .int size style => (style.meant (size.value a).2).map letter
  | .ptr => text "0x" ++ (List.range 16).map fun j => letter (a.toNat / 16 ^ (15 - j) % 16).digitChar
  | .str => if a = 0 then text "(null)" else str a
  | .percent => [ascii '%']

def meant : List Piece → Stream' (BitVec 64) → List Byte
  | [], _ => []
  | p :: ps, ap => p.meant letter str ap.head ++ meant ps (p.rest ap)

end

def Throughout (C : Piece → BitVec 64 → Prop) : List Piece → Stream' (BitVec 64) → Prop
  | [], _ => True
  | p :: ps, ap => C p ap.head ∧ Throughout C ps (p.rest ap)

/-! ## Dispatch -/

def Piece.conversion : Piece → Option Conversion
  | .lit _ _ => none
  | .int size .d => some (.int (size ≠ .int) 10 true)
  | .int size .u => some (.int (size ≠ .int) 10 false)
  | .int size .x => some (.int (size ≠ .int) 16 false)
  | .ptr => some .ptr
  | .str => some .str
  | .percent => some .percent

/-- The look-ahead never mistakes a conversion for a shorter or a longer one, whatever follows. -/
theorem conversion_piece {p : Piece} {c : Conversion} (hc : p.conversion = some c) (rest : List Byte) :
    ∃ c0 t, p.bytes = ascii '%' :: c0 :: t ∧ c0 ≠ 0 ∧
      ∀ c1 c2, c1 = (t ++ rest).getD 0 0 → c2 = (if c1 ≠ 0 then (t ++ rest).getD 1 0 else 0) →
        Xv6.conversion c0 c1 c2 = (c,t.length) := by
  rcases p with ⟨b,h⟩ | ⟨size,style⟩ | _ | _ | _
  · cases hc
  · cases size <;> cases style <;> cases hc <;>
      exact ⟨_,_,rfl,by decide,by rintro _ _ rfl rfl; rfl⟩
  · cases hc
    exact ⟨_,_,rfl,by decide,fun _ _ _ _ => rfl⟩
  · cases hc
    exact ⟨_,_,rfl,by decide,fun _ _ _ _ => rfl⟩
  · cases hc
    exact ⟨_,_,rfl,by decide,fun _ _ _ _ => rfl⟩

theorem rest_of_conversion {p : Piece} {c : Conversion} (hc : p.conversion = some c) (ap : Stream' (BitVec 64)) :
    c.rest ap = p.rest ap := by
  rcases p with ⟨b,h⟩ | ⟨size,style⟩ | _ | _ | _
  · cases hc
  · cases style <;> cases hc <;> rfl
  all_goals
    cases hc
    rfl

section
variable (str : BitVec 64 → List Byte)

theorem printf_conversion {p : Piece} {c : Conversion} (hc : p.conversion = some c) (rest : List Byte)
    (ap : Stream' (BitVec 64)) :
    printf str (p.bytes ++ rest) ap =
      (convert str ap.head c).bind fun out => (printf str rest (p.rest ap)).map (out ++ ·) := by
  obtain ⟨c0,t,hbytes,hne,hconv⟩ := conversion_piece hc rest
  have hpercent : ascii '%' ≠ 0 := by decide
  rw [hbytes,List.cons_append,List.cons_append,printf,if_neg hpercent,if_neg (not_not.mpr rfl)]
  simp only [List.getD_cons_zero,List.getD_cons_succ,if_neg hne,if_pos hne,hconv _ _ rfl rfl]
  rw [rest_of_conversion hc,Nat.add_comm 1,List.drop_succ_cons,List.drop_left]

theorem printf_lit {b : Byte} (h : b ≠ 0 ∧ b ≠ ascii '%') (rest : List Byte) (ap : Stream' (BitVec 64)) :
    printf str (b :: rest) ap = (printf str rest ap).map (b :: ·) := by
  rw [printf,if_neg h.1,if_pos h.2]

end

/-! ## Integers -/

theorem digits_eq : ∀ d, d < 16 → digits d = ascii d.digitChar := by decide

theorem printint_signed (xx : BitVec 64) :
    printint xx 10 true =
      if (toString xx.toInt).toList.length ≤ 16 then some ((toString xx.toInt).toList.map ascii) else none := by
  rw [← putInt_signed (fun d hd => digits_eq d (by omega)) rfl 16 xx,printint]
  simp only [Bool.true_and,decide_eq_true_eq]

theorem printint_unsigned (xx : BitVec 64) {base : ℕ} (hb : 1 < base) (hb' : base ≤ 16) :
    printint xx base false =
      if (Nat.toDigits base xx.toNat).length ≤ 16 then some ((Nat.toDigits base xx.toNat).map ascii) else none := by
  have h := putInt_eq (fun d hd => digits_eq d (by omega)) hb 16 false xx.toNat
  simpa only [printint,Bool.false_and,Bool.toNat_false,Nat.add_zero,Bool.false_eq_true,if_false,List.nil_append]
    using h

theorem printint_decimal (v : BitVec 64) : printint v 10 true =
    if -10 ^ 15 < v.toInt ∧ v.toInt < 10 ^ 16 then some ((toString v.toInt).toList.map ascii) else none := by
  rw [printint_signed]
  exact if_congr (length_toString_le_iff v.toInt 14) rfl rfl

theorem printint_unsigned_decimal (v : BitVec 64) : printint v 10 false =
    if v.toNat < 10 ^ 16 then some ((toString v.toNat).toList.map ascii) else none := by
  rw [printint_unsigned v (by omega) (by omega)]
  exact if_congr (Nat.length_toDigits_le_iff (by omega) (by omega))
    (congrArg (fun l => some (List.map ascii l)) String.toList_ofList.symm) rfl

theorem printint_hex (v : BitVec 64) : printint v 16 false = some ((Nat.toDigits 16 v.toNat).map ascii) := by
  have hv : v.toNat < 16 ^ 16 := v.isLt
  rw [printint_unsigned v (by omega) (by omega),if_pos ((Nat.length_toDigits_le_iff (by omega) (by omega)).mpr hv)]

theorem toInt_widened (a : BitVec 64) : ((a.setWidth 32).signExtend 64).toInt = (a.setWidth 32).toInt :=
  BitVec.toInt_signExtend_of_le (by omega)

theorem toNat_widened {a : BitVec 64} (h : (a.setWidth 32).toNat < 2 ^ 31) :
    ((a.setWidth 32).signExtend 64).toNat = (a.setWidth 32).toNat := by
  rw [BitVec.signExtend_eq_setWidth_of_msb_false (BitVec.msb_eq_false_iff_two_mul_lt.mpr (by omega)),
    BitVec.toNat_setWidth,Nat.mod_eq_of_lt (by omega)]

theorem le_toNat_widened {a : BitVec 64} (h : ¬(a.setWidth 32).toNat < 2 ^ 31) :
    2 ^ 64 - 2 ^ 31 ≤ ((a.setWidth 32).signExtend 64).toNat := by
  rw [BitVec.signExtend_eq_not_setWidth_not_of_msb_true (BitVec.msb_eq_true_iff_two_mul_ge.mpr (by omega)),
    BitVec.toNat_not,BitVec.toNat_setWidth,BitVec.toNat_not]
  omega

theorem ptrDigits_eq (digit : ℕ → Byte) (x : BitVec 64) :
    ptrDigits digit 16 x = (List.range 16).map fun j => digit (x.toNat / 16 ^ (15 - j) % 16) := by
  have hstep : ∀ (k : ℕ) (y : BitVec 64), ptrDigits digit k y =
      (List.range k).map fun j => digit ((y <<< (4 * j)) >>> 60).toNat := by
    intro k
    induction k with
    | zero => exact fun _ => rfl
    | succ k ih =>
      intro y
      rw [ptrDigits,ih,List.range_succ_eq_map,List.map_cons,List.map_map]
      have htail : ∀ j ∈ List.range k, digit (y <<< 4 <<< (4 * j) >>> 60).toNat =
          ((fun j => digit (y <<< (4 * j) >>> 60).toNat) ∘ Nat.succ) j := fun j _ => by
        rw [Function.comp_apply,← BitVec.shiftLeft_add,Nat.mul_succ,Nat.add_comm]
      rw [List.map_congr_left htail,Nat.mul_zero,BitVec.shiftLeft_zero]
  rw [hstep]
  apply List.map_congr_left
  intro j hj
  have hx := x.isLt
  have hj := List.mem_range.mp hj
  congr 1
  rw [BitVec.toNat_ushiftRight,BitVec.toNat_shiftLeft,Nat.shiftRight_eq_div_pow,Nat.shiftLeft_eq]
  interval_cases j <;> omega

/-! ## Whole formats -/

section
variable {letter : Char → Byte} {str : BitVec 64 → List Byte} {C : Piece → BitVec 64 → Prop}

/-- A loop that prints one piece after the other prints what the format means exactly if each piece comes out
right, provided that no piece makes up for another: `μ` is at least what is meant for every piece, and where it is
the same a wrong text shows at once. -/
theorem meant_iff_steps (run : List Byte → Stream' (BitVec 64) → Option (List Byte))
    (convert : BitVec 64 → Conversion → Option (List Byte)) (μ : List Byte → ℤ) (hμ : ∀ x y, μ (x ++ y) = μ x + μ y)
    (hnil : ∀ ap, run [] ap = some [])
    (hlit : ∀ {b}, b ≠ 0 ∧ b ≠ ascii '%' → ∀ rest ap, run (b :: rest) ap = (run rest ap).map (b :: ·))
    (hconv : ∀ {p : Piece} {c}, p.conversion = some c → ∀ rest ap,
      run (p.bytes ++ rest) ap = (convert ap.head c).bind fun out => (run rest (p.rest ap)).map (out ++ ·))
    (hC : ∀ {b} (hb : b ≠ 0 ∧ b ≠ ascii '%') (a), C (.lit b hb) a)
    (hexact : ∀ {p : Piece} {c}, p.conversion = some c → ∀ a, convert a c = some (p.meant letter str a) ∧ C p a ∨
      ¬C p a ∧ ∀ out, convert a c = some out → μ (p.meant letter str a) ≤ μ out ∧
        (μ out = μ (p.meant letter str a) → ∀ x y, out ++ x ≠ p.meant letter str a ++ y))
    (ps : List Piece) (ap : Stream' (BitVec 64)) :
    (∀ out, run (ps.flatMap Piece.bytes) ap = some out → μ (meant letter str ps ap) ≤ μ out) ∧
      (run (ps.flatMap Piece.bytes) ap = some (meant letter str ps ap) ↔ Throughout C ps ap) := by
  induction ps generalizing ap with
  | nil =>
    refine ⟨fun out hout => ?_,iff_of_true (hnil ap) trivial⟩
    rw [List.flatMap_nil,hnil,Option.some_inj] at hout
    exact hout ▸ le_rfl
  | cons p ps ih =>
    obtain ⟨hle,hiff⟩ := ih (p.rest ap)
    rw [List.flatMap_cons,meant]
    generalize ps.flatMap Piece.bytes = fmt at hle hiff ⊢
    generalize meant letter str ps (p.rest ap) = late at hle hiff ⊢
    -- a piece that comes out as it is meant
    have hright : ∀ {o : Option (List Byte)}, o = (run fmt (p.rest ap)).map (p.meant letter str ap.head ++ ·) → C p ap.head →
        (∀ out, o = some out → μ (p.meant letter str ap.head ++ late) ≤ μ out) ∧
          (o = some (p.meant letter str ap.head ++ late) ↔ Throughout C (p :: ps) ap) := by
      rintro _ rfl hCp
      refine ⟨fun out hout => ?_,?_⟩
      · obtain ⟨x,hx,rfl⟩ := Option.map_eq_some_iff.mp hout
        rw [hμ,hμ]
        exact Int.add_le_add_left (hle x hx) _
      · rw [Throughout,and_iff_right hCp,← hiff,Option.map_eq_some_iff]
        exact ⟨fun ⟨x,hx,heq⟩ => List.append_cancel_left heq ▸ hx,fun h => ⟨_,h,rfl⟩⟩
    cases hc : p.conversion with
    | none =>
      cases p with
      | lit b hb => exact hright (hlit hb fmt ap) (hC hb _)
      | int size style => cases style <;> cases hc
      | ptr | str | percent => cases hc
    | some c =>
      rw [hconv hc]
      rcases hexact hc ap.head with ⟨hout,hCp⟩ | ⟨hCp,hwrong⟩
      · rw [hout]
        exact hright rfl hCp
      · have hout : ∀ out, ((convert ap.head c).bind fun out => (run fmt (p.rest ap)).map (out ++ ·)) = some out →
            ∃ u x, convert ap.head c = some u ∧ run fmt (p.rest ap) = some x ∧ out = u ++ x := by
          intro out h
          obtain ⟨u,hu,h⟩ := Option.bind_eq_some_iff.mp h
          obtain ⟨x,hx,rfl⟩ := Option.map_eq_some_iff.mp h
          exact ⟨u,x,hu,hx,rfl⟩
        refine ⟨fun out h => ?_,iff_of_false (fun h => ?_) fun h => hCp h.1⟩
        · obtain ⟨u,x,hu,hx,rfl⟩ := hout out h
          rw [hμ,hμ]
          exact Int.add_le_add (hwrong u hu).1 (hle x hx)
        · obtain ⟨u,x,hu,hx,heq⟩ := hout _ h
          have hsum := congrArg μ heq
          rw [hμ,hμ] at hsum
          have h₁ := (hwrong u hu).1
          have h₂ := hle x hx
          exact (hwrong u hu).2 (by omega) x late heq.symm

end

/-- The values that the kernel's `printf` renders: an unsigned 32-bit value must look like a nonnegative `int`,
and a 64-bit decimal must fit in 16 characters. -/
def Piece.Fits : Piece → BitVec 64 → Prop
  | .int .int .d, _ => True
  | .int .int _, a => (a.setWidth 32).toNat < 2 ^ 31
  | .int _ .d, a => -10 ^ 15 < a.toInt ∧ a.toInt < 10 ^ 16
  | .int _ .u, a => a.toNat < 10 ^ 16
  | _, _ => True

section
variable {str : BitVec 64 → List Byte}

theorem convert_exact {p : Piece} {c : Conversion} (hc : p.conversion = some c) (a : BitVec 64) :
    convert str a c = some (p.meant ascii str a) ∧ p.Fits a ∨
      ¬p.Fits a ∧ ∀ out, convert str a c = some out → (p.meant ascii str a).length < out.length := by
  have hlow := (a.setWidth 32).isLt
  -- a 64-bit decimal is printed, or runs over the buffer
  have hlong : ∀ {P : Prop} [Decidable P] {o : Option (List Byte)} {l : List Byte}, o = (if P then some l else none) →
      o = some l ∧ P ∨ ¬P ∧ ∀ out, o = some out → l.length < out.length := by
    rintro P _ _ l rfl
    by_cases hP : P
    · exact .inl ⟨if_pos hP,hP⟩
    · refine .inr ⟨hP,fun out hout => ?_⟩
      rw [if_neg hP] at hout
      cases hout
  rcases p with ⟨b,h⟩ | ⟨size,style⟩ | _ | _ | _
  · cases hc
  · cases style with
    | d =>
      cases size with
      | int =>
        cases hc
        have hle := BitVec.toInt_lt (x := a.setWidth 32)
        have hge := BitVec.le_toInt (x := a.setWidth 32)
        refine .inl ⟨(printint_decimal _).trans ?_,trivial⟩
        rw [toInt_widened,if_pos (by omega)]
        rfl
      | long | longLong =>
        cases hc
        exact (hlong (printint_decimal a) :)
    | u =>
      cases size with
      | int =>
        cases hc
        have hprint := printint_unsigned_decimal ((a.setWidth 32).signExtend 64)
        by_cases ha : (a.setWidth 32).toNat < 2 ^ 31
        · rw [toNat_widened ha,if_pos (by omega)] at hprint
          exact .inl ⟨hprint,ha⟩
        · have hbig := le_toNat_widened ha
          rw [if_neg (by omega)] at hprint
          exact .inr ⟨ha,fun out hout => absurd (hprint.symm.trans hout) (Option.some_ne_none _).symm⟩
      | long | longLong =>
        cases hc
        exact (hlong (printint_unsigned_decimal a) :)
    | x =>
      cases size with
      | int =>
        cases hc
        have hprint := printint_hex ((a.setWidth 32).signExtend 64)
        by_cases ha : (a.setWidth 32).toNat < 2 ^ 31
        · rw [toNat_widened ha] at hprint
          exact .inl ⟨hprint,ha⟩
        · refine .inr ⟨ha,fun out hout => ?_⟩
          -- 32 bits are at most 8 digits, and the widened value has more
          have hbig := le_toNat_widened ha
          have hmeant := (Nat.length_toDigits_le_iff (n := (a.setWidth 32).toNat) (b := 16) (k := 8) (by omega) (by omega)).mpr hlow
          have hout' := mt (Nat.length_toDigits_le_iff (n := ((a.setWidth 32).signExtend 64).toNat) (b := 16) (k := 8)
            (by omega) (by omega)).mp (by omega)
          obtain rfl := Option.some.inj (hprint.symm.trans hout)
          change ((Nat.toDigits 16 (a.setWidth 32).toNat).map ascii).length < _
          rw [List.length_map,List.length_map]
          omega
      | long | longLong =>
        cases hc
        exact .inl ⟨printint_hex a,trivial⟩
  · cases hc
    rw [convert,printptr,ptrDigits_eq]
    refine .inl ⟨congrArg (fun l => some (text "0x" ++ l)) (List.map_congr_left fun j _ => ?_),trivial⟩
    exact digits_eq _ (Nat.mod_lt _ (by omega))
  · cases hc
    exact .inl ⟨rfl,trivial⟩
  · cases hc
    exact .inl ⟨rfl,trivial⟩

end

/-- The kernel prints what the format means, within its buffer, if and only if every value fits: a wrong text is
longer than the right one. -/
theorem printf_meant (str : BitVec 64 → List Byte) (ps : List Piece) (ap : Stream' (BitVec 64)) :
    printf str (ps.flatMap Piece.bytes) ap = some (meant ascii str ps ap) ↔ Throughout Piece.Fits ps ap := by
  refine (meant_iff_steps (printf str) (convert str) (fun l => l.length) (fun x y => ?_) (fun ap => ?_) (printf_lit str)
    (printf_conversion str) (fun _ _ => trivial) (fun {p c} hc a => ?_) ps ap).2
  · rw [List.length_append,Nat.cast_add]
  · rw [printf]
  · refine (convert_exact hc a).imp_right fun ⟨hno,hlong⟩ => ⟨hno,fun out hout => ?_⟩
    have := hlong out hout
    exact ⟨by omega,fun heq => by omega⟩

example :
    printf (fun _ => []) (text "%d%%%lu") (Stream'.cons (-42) (Stream'.const 1000000)) = some (text "-42%1000000") := by
  decide +kernel

/-- `%u` of an `int` that is negative runs over the buffer and `%x` prints sixteen digits; the least `long` does not fit. -/
theorem printf_large_values :
    printf (fun _ => []) (text "%u") (Stream'.const 0xffffffff) = none ∧
      printf (fun _ => []) (text "%x") (Stream'.const 0xffffffff) = some (text "ffffffffffffffff") ∧
      printf (fun _ => []) (text "%ld") (Stream'.const (BitVec.intMin 64)) = none := by
  have hu := printf_conversion (fun _ => []) (p := .int .int .u) rfl [] (Stream'.const 0xffffffff)
  have hx := printf_conversion (fun _ => []) (p := .int .int .x) rfl [] (Stream'.const 0xffffffff)
  have hd := printf_conversion (fun _ => []) (p := .int .long .d) rfl [] (Stream'.const (BitVec.intMin 64))
  rw [printf] at hu hx hd
  refine ⟨hu.trans ?_,hx.trans ?_,hd.trans ?_⟩
  · decide +kernel
  · decide +kernel
  · decide +kernel

end Xv6
