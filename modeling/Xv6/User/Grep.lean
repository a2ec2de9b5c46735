import Xv6.Library.Bytes

/-! # The matcher of `grep.c`

A string is the list of its characters, without the NUL that ends it: `*text` is NUL when the list is
empty. A pattern denotes a list of items, and `match` looks for a part of the text that the items
match one after another.
-/
namespace Xv6.Grep
open Library

abbrev Str := List Byte

def star : Byte := 42
def dot : Byte := 46
def dollar : Byte := 36
def caret : Byte := 94

/-! ## `grep.c` -/

/-- Search for `c*re` at the beginning of `text`; `matchhere` is `matchhere(re, _)`. -/
def matchstar (matchhere : Str → Bool) (c : Byte) : Str → Bool
  | [] => matchhere []
  | t :: text => matchhere (t :: text) || (t == c || c == dot) && matchstar matchhere c text

/-- The end of `matchhere`: one character, and then `matchhere(re+1, _)`. -/
def matchone (matchhere : Str → Bool) (c : Byte) : Str → Bool
  | [] => false
  | t :: text => (c == dot || c == t) && matchhere text

def matchhere : Str → Str → Bool
  | [], _ => true
  | [c], text => if c = dollar then text.isEmpty else matchone (fun _ => true) c text
  | c :: d :: re, text => if d = star then matchstar (matchhere re) c text else matchone (matchhere (d :: re)) c text

def matchFrom (re : Str) : Str → Bool
  | [] => matchhere re []
  | t :: text => matchhere re (t :: text) || matchFrom re text

def matchRe (re text : Str) : Bool :=
  if re.head? = some caret then matchhere re.tail text else matchFrom re text

/-! ## The language of patterns -/

inductive Item
  | star (c : Byte)
  | any
  | lit (c : Byte)
  | eol

def single (c : Byte) : Item := if c = dot then .any else .lit c

def items : Str → List Item
  | [] => []
  | [c] => if c = dollar then [.eol] else [single c]
  | c :: d :: re => if d = star then .star c :: items re else single c :: items (d :: re)

/-- An item matches `w` when `after` is what follows in the text. -/
def Item.Matches : Item → Str → Str → Prop
  | star c, w, _ => ∀ x ∈ w, x = c ∨ c = dot
  | any, w, _ => ∃ x, w = [x]
  | lit c, w, _ => w = [c]
  | eol, w, after => w = [] ∧ after = []

def Matched : List Item → Str → Str → Prop
  | [], w, _ => w = []
  | i :: is, w, after => ∃ u v, w = u ++ v ∧ i.Matches u (v ++ after) ∧ Matched is v after

def Begins (is : List Item) (text : Str) : Prop := ∃ w after, text = w ++ after ∧ Matched is w after

theorem begins_nil (text : Str) : Begins [] text := ⟨[],text,rfl,rfl⟩

theorem begins_cons {i : Item} {is : List Item} {text : Str} :
    Begins (i :: is) text ↔ ∃ u rest, text = u ++ rest ∧ i.Matches u rest ∧ Begins is rest := by
  constructor
  · rintro ⟨w,after,rfl,u,v,rfl,hu,hv⟩
    exact ⟨u,v ++ after,List.append_assoc u v after,hu,v,after,rfl,hv⟩
  · rintro ⟨u,rest,rfl,hu,v,after,rfl,hv⟩
    exact ⟨u ++ v,after,(List.append_assoc u v after).symm,u,v,rfl,hu,hv⟩

theorem begins_single {c : Byte} {is : List Item} {text : Str} :
    Begins (single c :: is) text ↔ ∃ t rest, text = t :: rest ∧ (c = dot ∨ c = t) ∧ Begins is rest := by
  rw [begins_cons]
  by_cases hc : c = dot
  · rw [single,if_pos hc]
    constructor
    · rintro ⟨_,rest,rfl,⟨x,rfl⟩,h⟩
      exact ⟨x,rest,rfl,.inl hc,h⟩
    · rintro ⟨t,rest,rfl,-,h⟩
      exact ⟨[t],rest,rfl,⟨t,rfl⟩,h⟩
  · rw [single,if_neg hc]
    constructor
    · rintro ⟨_,rest,rfl,rfl,h⟩
      exact ⟨c,rest,rfl,.inr rfl,h⟩
    · rintro ⟨t,rest,rfl,ht,h⟩
      exact ⟨[t],rest,rfl,by rw [ht.resolve_left hc]; rfl,h⟩

theorem begins_star_nil {c : Byte} {is : List Item} : Begins (.star c :: is) [] ↔ Begins is [] := by
  rw [begins_cons]
  constructor
  · rintro ⟨u,rest,h,-,hrest⟩
    obtain ⟨-,rfl⟩ := List.append_eq_nil_iff.mp h.symm
    exact hrest
  · intro h
    exact ⟨[],[],rfl,fun _ hx => absurd hx List.not_mem_nil,h⟩

theorem begins_star_cons {c t : Byte} {is : List Item} {text : Str} :
    Begins (.star c :: is) (t :: text) ↔ Begins is (t :: text) ∨ (t = c ∨ c = dot) ∧ Begins (.star c :: is) text := by
  rw [begins_cons,begins_cons]
  constructor
  · rintro ⟨u,rest,h,hu,hrest⟩
    cases u with
    | nil =>
      obtain rfl : t :: text = rest := h
      exact .inl hrest
    | cons x u =>
      obtain ⟨rfl,rfl⟩ := List.cons.inj h
      exact .inr ⟨hu t List.mem_cons_self,u,rest,rfl,fun y hy => hu y (List.mem_cons_of_mem t hy),hrest⟩
  · rintro (h | ⟨ht,u,rest,rfl,hu,hrest⟩)
    · exact ⟨[],t :: text,rfl,fun _ hx => absurd hx List.not_mem_nil,h⟩
    · refine ⟨t :: u,rest,rfl,fun y hy => ?_,hrest⟩
      rcases List.mem_cons.mp hy with rfl | hy
      · exact ht
      · exact hu y hy

theorem begins_eol {text : Str} : Begins [.eol] text ↔ text = [] := by
  rw [begins_cons]
  constructor
  · rintro ⟨u,rest,rfl,⟨rfl,rfl⟩,-⟩
    rfl
  · rintro rfl
    exact ⟨[],[],rfl,⟨rfl,rfl⟩,begins_nil []⟩

/-! ## The matcher decides the language -/

theorem matchstar_iff {here : Str → Bool} {is : List Item} (hhere : ∀ text, here text = true ↔ Begins is text) (c : Byte)
    (text : Str) : matchstar here c text = true ↔ Begins (.star c :: is) text := by
  induction text with
  | nil => rw [matchstar,hhere,begins_star_nil]
  | cons t text ih =>
    rw [matchstar,begins_star_cons,Bool.or_eq_true,Bool.and_eq_true,Bool.or_eq_true,hhere,ih,beq_iff_eq,beq_iff_eq]

theorem matchone_iff {here : Str → Bool} {is : List Item} (hhere : ∀ text, here text = true ↔ Begins is text) (c : Byte)
    (text : Str) : matchone here c text = true ↔ Begins (single c :: is) text := by
  rw [begins_single]
  cases text with
  | nil => exact iff_of_false Bool.false_ne_true fun ⟨t,rest,h,_⟩ => List.cons_ne_nil t rest h.symm
  | cons t text =>
    rw [matchone,Bool.and_eq_true,Bool.or_eq_true,beq_iff_eq,beq_iff_eq,hhere]
    constructor
    · rintro ⟨ht,h⟩
      exact ⟨t,text,rfl,ht,h⟩
    · rintro ⟨t',rest,h,ht,hrest⟩
      obtain ⟨rfl,rfl⟩ := List.cons.inj h
      exact ⟨ht,hrest⟩

theorem matchhere_iff (re text : Str) : matchhere re text = true ↔ Begins (items re) text := by
  induction re using items.induct generalizing text with
  | case1 => exact iff_of_true rfl (begins_nil text)
  | case2 =>
    rw [matchhere,items,if_pos rfl,if_pos rfl,begins_eol,List.isEmpty_iff]
  | case3 c hc =>
    rw [matchhere,items,if_neg hc,if_neg hc]
    exact matchone_iff (fun text => iff_of_true rfl (begins_nil text)) c text
  | case4 c re ih =>
    rw [matchhere,items,if_pos rfl,if_pos rfl]
    exact matchstar_iff ih c text
  | case5 c d re hd ih =>
    rw [matchhere,items,if_neg hd,if_neg hd]
    exact matchone_iff ih c text

theorem matchFrom_iff (re text : Str) :
    matchFrom re text = true ↔ ∃ before rest, text = before ++ rest ∧ matchhere re rest = true := by
  induction text with
  | nil =>
    rw [matchFrom]
    constructor
    · intro h
      exact ⟨[],[],rfl,h⟩
    · rintro ⟨before,rest,h,hrest⟩
      obtain ⟨-,rfl⟩ := List.append_eq_nil_iff.mp h.symm
      exact hrest
  | cons t text ih =>
    rw [matchFrom,Bool.or_eq_true,ih]
    constructor
    · rintro (h | ⟨before,rest,rfl,h⟩)
      · exact ⟨[],t :: text,rfl,h⟩
      · exact ⟨t :: before,rest,rfl,h⟩
    · rintro ⟨before,rest,h,hrest⟩
      cases before with
      | nil => exact .inl (by rwa [h])
      | cons x before =>
        obtain ⟨rfl,rfl⟩ := List.cons.inj h
        exact .inr ⟨before,rest,rfl,hrest⟩

def body (re : Str) : Str := if re.head? = some caret then re.tail else re

/-- `match` accepts exactly the texts with a part that the items of the pattern match: a part at the
beginning if the pattern starts with `^`. -/
theorem match_language (re text : Str) : matchRe re text = true ↔
    ∃ before w after, text = before ++ w ++ after ∧ (re.head? = some caret → before = []) ∧ Matched (items (body re)) w after := by
  rw [matchRe,body]
  by_cases hre : re.head? = some caret
  · rw [if_pos hre,if_pos hre,matchhere_iff]
    constructor
    · rintro ⟨w,after,rfl,h⟩
      exact ⟨[],w,after,rfl,fun _ => rfl,h⟩
    · rintro ⟨before,w,after,rfl,hnil,h⟩
      rw [hnil hre]
      exact ⟨w,after,rfl,h⟩
  · rw [if_neg hre,if_neg hre,matchFrom_iff]
    constructor
    · rintro ⟨before,rest,rfl,h⟩
      obtain ⟨w,after,rfl,hw⟩ := (matchhere_iff re rest).mp h
      exact ⟨before,w,after,(List.append_assoc before w after).symm,fun h => absurd h hre,hw⟩
    · rintro ⟨before,w,after,rfl,-,h⟩
      exact ⟨before,w ++ after,List.append_assoc before w after,(matchhere_iff re _).mpr ⟨w,after,rfl,h⟩⟩

end Xv6.Grep
