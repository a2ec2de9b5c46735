import Mathlib

/-! # Fixed-size byte arrays with records and bits

Records are written by splicing their little-endian bytes into the array and read
by slicing them out again. The two lemmas about a slice after a splice (the same
range, or a disjoint one) carry all reasoning about fields; single bits get the
same pair of facts.
-/
namespace Xv6.Library

abbrev Byte := BitVec 8

/-- The byte of an ASCII character. -/
def ascii (c : Char) : Byte := BitVec.ofNat 8 c.toNat

def text (s : String) : List Byte := s.toList.map ascii

def newline : Byte := 10

/-- The `w` low-order bytes of `v`, least significant first. -/
def leBytes : ℕ → ℕ → List Byte
  | 0, _ => []
  | w + 1, v => BitVec.ofNat 8 v :: leBytes w (v / 256)

def ofLe : List Byte → ℕ
  | [] => 0
  | x :: xs => x.toNat + 256 * ofLe xs

@[simp] theorem leBytes_length (w v : ℕ) : (leBytes w v).length = w := by
  induction w generalizing v with
  | zero => rfl
  | succ w ih => simp [leBytes,ih]

theorem ofLe_leBytes (w v : ℕ) : ofLe (leBytes w v) = v % 256 ^ w := by
  induction w generalizing v with
  | zero => simp [leBytes,ofLe,Nat.mod_one]
  | succ w ih =>
    simp only [leBytes,ofLe,ih,BitVec.toNat_ofNat]
    rw [show (2 : ℕ) ^ 8 = 256 from rfl,pow_succ',Nat.mod_mul]

theorem ofLe_leBytes_of_lt {w v : ℕ} (hv : v < 256 ^ w) : ofLe (leBytes w v) = v := by
  rw [ofLe_leBytes,Nat.mod_eq_of_lt hv]

theorem ofLe_lt (xs : List Byte) : ofLe xs < 256 ^ xs.length := by
  induction xs with
  | nil => simp [ofLe]
  | cons x xs ih =>
    have hx := x.isLt
    simp only [ofLe,List.length_cons,pow_succ']
    omega

@[simp] theorem ofLe_replicate_zero (w : ℕ) : ofLe (List.replicate w 0) = 0 := by
  induction w with
  | zero => rfl
  | succ w ih =>
    rw [List.replicate_succ,ofLe,ih]
    rfl

/-- Reading the `k`-th piece of a concatenation of pieces of one length. -/
theorem take_drop_flatMap {α : Type*} {f : α → List Byte} {c : ℕ} {l : List α}
    (hf : ∀ a ∈ l, (f a).length = c) {k : ℕ} (hk : k < l.length) :
    ((l.flatMap f).drop (c * k)).take c = f l[k] := by
  induction l generalizing k with
  | nil => simp at hk
  | cons a l ih =>
    have ha : (f a).length = c := hf a (by simp)
    cases k with
    | zero => simp [List.flatMap_cons,← ha]
    | succ k =>
      have hl : k < l.length := by simpa using hk
      have he : c * (k + 1) = (f a).length + c * k := by rw [ha]; ring
      rw [List.flatMap_cons,he,List.drop_length_add_append]
      simpa using ih (fun b hb => hf b (by simp [hb])) hl

theorem length_flatMap_const {α : Type*} {f : α → List Byte} {c : ℕ} {l : List α}
    (hf : ∀ a ∈ l, (f a).length = c) : (l.flatMap f).length = c * l.length := by
  induction l with
  | nil => simp
  | cons a l ih =>
    rw [List.flatMap_cons,List.length_append,hf a (by simp),ih (fun b hb => hf b (by simp [hb]))]
    simp only [List.length_cons]
    ring

/-- `n` bytes of storage. -/
def Bytes (n : ℕ) := Fin n → Byte

namespace Bytes
variable {n : ℕ}

def zero : Bytes n := fun _ => 0

instance : Inhabited (Bytes n) := ⟨zero⟩

def get (b : Bytes n) (i : ℕ) : Byte := if h : i < n then b ⟨i,h⟩ else 0

/-- The array with `xs` written from offset `off` on. -/
def splice (b : Bytes n) (off : ℕ) (xs : List Byte) : Bytes n :=
  fun j => if off ≤ j.val ∧ j.val < off + xs.length then xs.getD (j.val - off) 0 else b j

def slice (b : Bytes n) (off len : ℕ) : List Byte :=
  (List.range len).map (fun i => b.get (off + i))

theorem ext_get {a b : Bytes n} (h : ∀ i, i < n → a.get i = b.get i) : a = b := by
  funext i
  simpa [get] using h i.val i.isLt

theorem get_of_ge (b : Bytes n) {i : ℕ} (hi : n ≤ i) : b.get i = 0 := by
  simp [get,Nat.not_lt.mpr hi]

@[simp] theorem get_zero (i : ℕ) : (zero : Bytes n).get i = 0 := by
  unfold get zero
  split <;> rfl

theorem get_splice (b : Bytes n) (off : ℕ) (xs : List Byte) {i : ℕ} (hi : i < n) :
    (b.splice off xs).get i =
      if off ≤ i ∧ i < off + xs.length then xs.getD (i - off) 0 else b.get i := by
  simp [get,splice,hi]

theorem get_splice_outside (b : Bytes n) {off : ℕ} {xs : List Byte} {i : ℕ}
    (hi : i < off ∨ off + xs.length ≤ i) : (b.splice off xs).get i = b.get i := by
  rcases lt_or_ge i n with h | h
  · rw [get_splice b off xs h,if_neg (by omega)]
  · rw [get_of_ge _ h,get_of_ge _ h]

@[simp] theorem length_slice (b : Bytes n) (off len : ℕ) : (b.slice off len).length = len := by
  simp [slice]

theorem slice_getD (b : Bytes n) (off len : ℕ) {i : ℕ} (hi : i < len) :
    (b.slice off len).getD i 0 = b.get (off + i) := by
  simp [slice,hi]

theorem slice_congr {a b : Bytes n} {off len : ℕ}
    (h : ∀ i, off ≤ i → i < off + len → a.get i = b.get i) : a.slice off len = b.slice off len := by
  apply List.map_congr_left
  intro i hi
  have hl := List.mem_range.mp hi
  exact h (off + i) (by omega) (by omega)

theorem slice_splice_same (b : Bytes n) {off : ℕ} {xs : List Byte} (h : off + xs.length ≤ n) :
    (b.splice off xs).slice off xs.length = xs := by
  apply List.ext_getElem (by simp)
  intro i h₁ h₂
  simp only [slice,List.getElem_map,List.getElem_range]
  rw [get_splice b off xs (by omega),if_pos (by omega)]
  simp [h₂]

theorem slice_add (b : Bytes n) (off k l : ℕ) : b.slice off (k + l) = b.slice off k ++ b.slice (off + k) l := by
  simp only [slice,List.range_add,List.map_append,List.map_map,Function.comp_def,Nat.add_assoc]

theorem slice_splice_sub (b : Bytes n) {off j len : ℕ} {xs : List Byte} (hj : j + len ≤ xs.length)
    (h : off + xs.length ≤ n) : (b.splice off xs).slice (off + j) len = (xs.drop j).take len := by
  apply List.ext_getElem (by simp; omega)
  intro i h₁ h₂
  have hi : i < len := by simpa using h₁
  simp only [slice,List.getElem_map,List.getElem_range,List.getElem_take,List.getElem_drop]
  rw [get_splice b off xs (by omega),if_pos (by omega),show off + j + i - off = j + i by omega]
  exact List.getD_eq_getElem xs 0 (by omega)

theorem slice_splice_disjoint (b : Bytes n) {off off' len : ℕ} {xs : List Byte}
    (h : off' + len ≤ off ∨ off + xs.length ≤ off') :
    (b.splice off xs).slice off' len = b.slice off' len := by
  apply slice_congr
  intro i h₁ h₂
  exact get_splice_outside b (by omega)

theorem slice_splice_end (b : Bytes n) (off : ℕ) (xs : List Byte) (h : off + xs.length ≤ n) :
    (b.splice off xs).slice 0 (off + xs.length) = b.slice 0 off ++ xs := by
  rw [slice_add,slice_splice_disjoint b (.inl (by omega)),Nat.zero_add,slice_splice_same b h]

@[simp] theorem slice_zero (off len : ℕ) :
    (zero : Bytes n).slice off len = List.replicate len 0 := by
  apply List.ext_getElem (by simp)
  intro i h₁ h₂
  simp [slice]

/-- Bit `k` of the array, eight to a byte. -/
def bit (b : Bytes n) (k : ℕ) : Bool := (b.get (k / 8)).getLsbD (k % 8)

/-- `data[k/8] |= 1 << (k%8)` -/
def setBit (b : Bytes n) (k : ℕ) : Bytes n :=
  b.splice (k / 8) [b.get (k / 8) ||| (1#8 <<< (k % 8))]

/-- `data[k/8] &= ~(1 << (k%8))` -/
def clearBit (b : Bytes n) (k : ℕ) : Bytes n :=
  b.splice (k / 8) [b.get (k / 8) &&& ~~~(1#8 <<< (k % 8))]

private theorem getLsbD_shiftOne {k j : ℕ} (hk : k < 8) (hj : j < 8) :
    (1#8 <<< k).getLsbD j = decide (j = k) := by
  interval_cases k <;> interval_cases j <;> rfl

/-- The allocator's test of one bit, as it is written in C. -/
theorem and_shiftOne_eq_zero (x : Byte) {k : ℕ} (hk : k < 8) :
    x &&& (1#8 <<< k) = 0#8 ↔ x.getLsbD k = false := by
  constructor
  · intro h
    have hb := congrArg (fun y : Byte => y.getLsbD k) h
    simpa [BitVec.getLsbD_and,getLsbD_shiftOne hk hk] using hb
  · intro h
    apply BitVec.eq_of_getLsbD_eq
    intro j hj
    rw [BitVec.getLsbD_and,getLsbD_shiftOne hk hj]
    by_cases he : j = k
    · simp [he,h]
    · simp [he]

private theorem bit_splice_byte (b : Bytes n) {k : ℕ} (hk : k < 8 * n) (x : Byte) (j : ℕ) :
    (b.splice (k / 8) [x]).bit j = if j / 8 = k / 8 then x.getLsbD (j % 8) else b.bit j := by
  unfold bit
  by_cases he : j / 8 = k / 8
  · rw [if_pos he,he,get_splice b _ _ (by omega),if_pos (by simp)]
    simp
  · rw [if_neg he,get_splice_outside b (by simp; omega)]

theorem bit_setBit (b : Bytes n) {k : ℕ} (hk : k < 8 * n) (j : ℕ) :
    (b.setBit k).bit j = if j = k then true else b.bit j := by
  rw [setBit,bit_splice_byte b hk]
  have h8 := Nat.mod_lt k (by omega : 8 > 0)
  have hj8 := Nat.mod_lt j (by omega : 8 > 0)
  by_cases he : j / 8 = k / 8
  · rw [if_pos he,BitVec.getLsbD_or,getLsbD_shiftOne h8 hj8]
    by_cases hjk : j = k
    · simp [hjk]
    · have hm : j % 8 ≠ k % 8 := by omega
      simp [hjk,hm,bit,he]
  · rw [if_neg he,if_neg (by intro h; exact he (by rw [h]))]

theorem bit_clearBit (b : Bytes n) {k : ℕ} (hk : k < 8 * n) (j : ℕ) :
    (b.clearBit k).bit j = if j = k then false else b.bit j := by
  rw [clearBit,bit_splice_byte b hk]
  have h8 := Nat.mod_lt k (by omega : 8 > 0)
  have hj8 := Nat.mod_lt j (by omega : 8 > 0)
  by_cases he : j / 8 = k / 8
  · rw [if_pos he,BitVec.getLsbD_and,BitVec.getLsbD_not,getLsbD_shiftOne h8 hj8]
    by_cases hjk : j = k
    · simp [hjk]
    · have hm : j % 8 ≠ k % 8 := by omega
      simp [hjk,hm,bit,he,hj8]
  · rw [if_neg he,if_neg (by intro h; exact he (by rw [h]))]

theorem bit_zero (k : ℕ) : (zero : Bytes n).bit k = false := by
  simp [bit]

theorem bit_foldl_setBit {l : List ℕ} (hl : ∀ k ∈ l, k < 8 * n) (b : Bytes n) (j : ℕ) :
    (l.foldl setBit b).bit j = (decide (j ∈ l) || b.bit j) := by
  induction l generalizing b with
  | nil => simp
  | cons k l ih =>
    rw [List.foldl_cons,ih (fun i hi => hl i (List.mem_cons_of_mem _ hi)),bit_setBit b (hl k List.mem_cons_self)]
    by_cases hjk : j = k
    · simp [hjk]
    · simp [hjk]

end Bytes

/-! ## Strings that a zero byte ends -/

/-- The string `w` stands at `p`, within the first `size` bytes of `mem`. -/
structure CStr (size : ℕ) (mem : ℕ → Byte) (p : ℕ) (w : List Byte) : Prop where
  bytes : ∀ i b, w[i]? = some b → mem (p + i) = b
  nul : mem (p + w.length) = 0
  free : 0 ∉ w
  bound : p + w.length < size

namespace CStr
variable {size : ℕ} {mem mem' : ℕ → Byte} {p : ℕ} {b : Byte} {w v : List Byte}

theorem tail (h : CStr size mem p (b :: w)) : CStr size mem (p + 1) w := by
  refine ⟨fun i x hi => ?_,?_,?_,?_⟩
  · rw [Nat.add_assoc,Nat.add_comm 1]
    exact h.bytes (i + 1) x hi
  · rw [Nat.add_assoc,Nat.add_comm 1]
    exact h.nul
  · exact fun hm => h.free (List.mem_cons_of_mem b hm)
  · have := h.bound
    rw [List.length_cons] at this
    omega

theorem head (h : CStr size mem p (b :: w)) : mem p = b := h.bytes 0 b rfl

theorem head_ne (h : CStr size mem p (b :: w)) : b ≠ 0 := fun hb => h.free (by simp [hb])

theorem nil_iff (h : CStr size mem p w) : mem p = 0 ↔ w = [] := by
  cases w with
  | nil => exact iff_of_true h.nul rfl
  | cons b w => exact iff_of_false (h.head ▸ h.head_ne) (List.cons_ne_nil b w)

theorem congr (h : CStr size mem p w) (hle : ∀ q, p ≤ q → q ≤ p + w.length → mem' q = mem q) : CStr size mem' p w := by
  refine ⟨fun i b hi => ?_,?_,h.free,h.bound⟩
  · have hlt := (List.getElem?_eq_some_iff.mp hi).1
    rw [hle _ (by omega) (by omega)]
    exact h.bytes i b hi
  · rw [hle _ (by omega) (by omega)]
    exact h.nul

/-- The first part of a string is one of its own once the byte after it is zero. -/
theorem first (h : CStr size mem p (w ++ v)) (hsame : ∀ q, q < p + w.length → mem' q = mem q)
    (hnul : mem' (p + w.length) = 0) : CStr size mem' p w := by
  refine ⟨fun i b hi => ?_,hnul,fun hm => h.free (List.mem_append_left v hm),?_⟩
  · have hlt := (List.getElem?_eq_some_iff.mp hi).1
    rw [hsame _ (by omega)]
    exact h.bytes i b (by rw [List.getElem?_append_left hlt,hi])
  · have := h.bound
    rw [List.length_append] at this
    omega

theorem drop (h : CStr size mem p (w ++ v)) : CStr size mem (p + w.length) v := by
  induction w generalizing p with
  | nil => exact h
  | cons b w ih =>
    have htail := ih h.tail
    rwa [Nat.add_assoc,Nat.add_comm 1] at htail

theorem room (h : CStr size mem p w) : size - p = size - (p + 1) + 1 := by
  have := h.bound
  omega

theorem takeWhile_eq (h : CStr size mem p w) : ((List.range' p (size - p)).map mem).takeWhile (· != 0) = w := by
  induction w generalizing p with
  | nil =>
    have hz : mem p = 0 := h.nul
    rw [h.room,List.range'_succ,List.map_cons,List.takeWhile_cons_of_neg (by simp [hz])]
  | cons b w ih =>
    rw [h.room,List.range'_succ,List.map_cons,h.head,List.takeWhile_cons_of_pos (by simpa using h.head_ne)]
    exact congrArg (b :: ·) (ih h.tail)

theorem slice_eq {buf : Bytes size} (h : CStr size buf.get p w) : buf.slice p w.length = w := by
  refine List.ext_getElem (Bytes.length_slice ..) fun i _ hi => ?_
  simp only [Bytes.slice,List.getElem_map,List.getElem_range]
  exact h.bytes i _ (List.getElem?_eq_getElem hi)

end CStr

end Xv6.Library
