import Xv6.Library.Cover
import Xv6.User.Umalloc

/-! # The free list

The list of the free blocks, as (address, units), is kept beside the heap; `base` is the first of
them, with no units. It is in order of address, with a gap between any two blocks, and following
`ptr` goes through it and back to `base`.
-/
namespace Xv6.Umalloc

open Library

namespace Heap
variable (s : Heap) (a v : ℕ)

@[simp] theorem setPtr_ptr : (s.setPtr a v).ptr = Function.update s.ptr a v := by
  funext x
  by_cases h : x = a <;> simp [setPtr,ptr,Function.update,h]

@[simp] theorem setPtr_size : (s.setPtr a v).size = s.size := by
  funext x
  by_cases h : x = a <;> simp [setPtr,size,Function.update,h]

@[simp] theorem setSize_ptr : (s.setSize a v).ptr = s.ptr := by
  funext x
  by_cases h : x = a <;> simp [setSize,ptr,Function.update,h]

@[simp] theorem setSize_size : (s.setSize a v).size = Function.update s.size a (v % 2 ^ 32) := by
  funext x
  by_cases h : x = a <;> simp [setSize,size,Function.update,h]

end Heap

/-! ### Lists of blocks -/

def bytes (l : List (ℕ × ℕ)) : List (ℕ × ℕ) := l.map fun b => (b.1,16 * b.2)

def total (l : List (ℕ × ℕ)) : ℕ := (l.map Prod.snd).sum

def addrs (l : List (ℕ × ℕ)) : List ℕ := l.map Prod.fst

def Spaced (l : List (ℕ × ℕ)) : Prop := l.Pairwise fun b c => plus b.1 b.2 < c.1

def grow (b : ℕ × ℕ) : List (ℕ × ℕ) → ℕ × ℕ
  | [] => b
  | c :: _ => if plus b.1 b.2 = c.1 then (b.1,b.2 + c.2) else b

def rest (b : ℕ × ℕ) : List (ℕ × ℕ) → List (ℕ × ℕ)
  | [] => []
  | c :: l => if plus b.1 b.2 = c.1 then l else c :: l

section Blocks
variable {b c : ℕ × ℕ} {l l' : List (ℕ × ℕ)} {x : ℕ}

@[simp] theorem bytes_cons : bytes (b :: l) = (b.1,16 * b.2) :: bytes l := rfl

@[simp] theorem bytes_append : bytes (l ++ l') = bytes l ++ bytes l' := List.map_append

@[simp] theorem total_cons : total (b :: l) = b.2 + total l := rfl

@[simp] theorem total_append : total (l ++ l') = total l + total l' := by simp [total]

@[simp] theorem addrs_nil : addrs [] = [] := rfl

@[simp] theorem addrs_cons : addrs (b :: l) = b.1 :: addrs l := rfl

@[simp] theorem addrs_append : addrs (l ++ l') = addrs l ++ addrs l' := List.map_append

@[simp] theorem mem_addrs : x ∈ addrs l ↔ ∃ b ∈ l, b.1 = x := List.mem_map

theorem le_plus (p n : ℕ) : p ≤ plus p n := Nat.le_add_right _ _

theorem Spaced.sorted (h : Spaced l) : (addrs l).Pairwise (· < ·) := by
  rw [addrs,List.pairwise_map]
  exact h.imp fun {b c} h => (le_plus b.1 b.2).trans_lt h

@[simp] theorem grow_fst : (grow b l).1 = b.1 := by
  cases l with
  | nil => rfl
  | cons c l => simp only [grow]; split_ifs <;> rfl

theorem le_grow : b.2 ≤ (grow b l).2 := by
  cases l with
  | nil => exact Nat.le_refl _
  | cons c l => simp only [grow]; split_ifs <;> simp

theorem grow_of_ne (h : ¬plus b.1 b.2 = c.1) : grow b (c :: l) = b := if_neg h

theorem rest_of_ne (h : ¬plus b.1 b.2 = c.1) : rest b (c :: l) = c :: l := if_neg h

theorem rest_subset (h : c ∈ rest b l) : c ∈ l := by
  cases l with
  | nil => exact h
  | cons d l =>
    simp only [rest] at h
    split_ifs at h
    · exact List.mem_cons_of_mem _ h
    · exact h

theorem total_grow : total (grow b l :: rest b l) = total (b :: l) := by
  cases l with
  | nil => rfl
  | cons c l => simp only [grow,rest]; split_ifs <;> simp [Nat.add_assoc]

theorem cover_grow : cover (bytes (grow b l :: rest b l)) x = cover (bytes (b :: l)) x := by
  cases l with
  | nil => rfl
  | cons c l =>
    simp only [grow,rest]
    split_ifs with h
    · simp only [bytes_cons,cover_cons]
      rw [Nat.mul_add,covers_add,← h,plus,Nat.add_assoc]
    · rfl

theorem exists_grow_of_mem (h : b ∈ grow c l :: rest c l) : ∃ d ∈ c :: l, d.1 = b.1 ∧ d.2 ≤ b.2 := by
  rcases List.mem_cons.mp h with rfl | h
  · exact ⟨c,by simp,grow_fst.symm,le_grow⟩
  · exact ⟨b,List.mem_cons_of_mem _ (rest_subset h),rfl,Nat.le_refl _⟩

theorem exists_mem_grow (h : b ∈ c :: l) : ∃ d ∈ grow c l :: rest c l, b.2 ≤ d.2 := by
  rcases List.mem_cons.mp h with rfl | h
  · exact ⟨_,List.mem_cons_self,le_grow⟩
  cases l with
  | nil => cases h
  | cons d l =>
    simp only [grow,rest]
    split_ifs
    · rcases List.mem_cons.mp h with rfl | h
      · exact ⟨_,List.mem_cons_self,Nat.le_add_left _ _⟩
      · exact ⟨b,by simp [h],Nat.le_refl _⟩
    · exact ⟨b,List.mem_cons_of_mem _ h,Nat.le_refl _⟩

theorem Spaced.grow (h : Spaced l) (hle : ∀ c ∈ l, plus b.1 b.2 ≤ c.1) : Spaced (grow b l :: rest b l) := by
  cases l with
  | nil => exact List.pairwise_singleton _ _
  | cons c l =>
    obtain ⟨hc,hl⟩ := List.pairwise_cons.mp h
    simp only [Umalloc.grow,rest]
    split_ifs with heq
    · refine List.pairwise_cons.mpr ⟨fun d hd => ?_,hl⟩
      have := hc d hd
      simp only [plus] at *
      omega
    · have hlt := (hle c (by simp)).lt_of_ne heq
      refine List.pairwise_cons.mpr ⟨fun d hd => ?_,h⟩
      rcases List.mem_cons.mp hd with rfl | hd
      · exact hlt
      · exact hlt.trans ((le_plus _ _).trans_lt (hc d hd))

end Blocks

def Links (f : ℕ → ℕ) (xs : List ℕ) : Prop := xs.IsChain fun a b => f a = b

theorem Links.congr {f g : ℕ → ℕ} {xs : List ℕ} {e : ℕ} (h : Links f (xs ++ [e])) (hg : ∀ x ∈ xs, g x = f x) :
    Links g (xs ++ [e]) := by
  induction xs with
  | nil => exact List.isChain_singleton _
  | cons x xs ih =>
    rw [List.cons_append,Links,List.isChain_cons] at h ⊢
    exact ⟨fun y hy => (hg x (by simp)).trans (h.1 y hy),ih h.2 fun y hy => hg y (List.mem_cons_of_mem _ hy)⟩

theorem Links.update {f : ℕ → ℕ} {xs : List ℕ} {a e v : ℕ} (h : Links f (xs ++ [e])) (ha : a ∉ xs) :
    Links (Function.update f a v) (xs ++ [e]) :=
  h.congr fun _ hx => Function.update_of_ne (ne_of_mem_of_not_mem hx ha) _ _

theorem Links.push {f : ℕ → ℕ} {xs : List ℕ} {a d e : ℕ} (h : Links f (d :: xs ++ [e])) (ha : a ∉ d :: xs) :
    Links (Function.update f a d) (a :: d :: xs ++ [e]) :=
  List.isChain_cons_cons.mpr ⟨Function.update_self _ _ _,h.update ha⟩

theorem Links.replace {f : ℕ → ℕ} {xs : List ℕ} {a d e : ℕ} (h : Links f (d :: xs ++ [e])) (ha : a ∉ d :: xs) :
    Links (Function.update f a (f d)) (a :: xs ++ [e]) := by
  refine List.IsChain.imp_head (fun {z} hz => ?_) (h.update ha)
  rw [Function.update_of_ne (List.ne_of_not_mem_cons ha).symm] at hz
  rw [Function.update_self,hz]

structure FreeList (s : Heap) (base : ℕ) (l : List (ℕ × ℕ)) : Prop where
  links : Links s.ptr (base :: addrs l ++ [base])
  size : ∀ b ∈ (base,0) :: l, s.size b.1 = b.2
  spaced : Spaced ((base,0) :: l)
  above : ∀ b ∈ l, base + 16 ≤ b.1
  pos : ∀ b ∈ l, 0 < b.2

/-! ### The search of `free` -/

section Search
variable {s : Heap} {base bp p r n : ℕ} {xs ys : List ℕ}

theorem freeLoop_mono {m : ℕ} (h : s.freeLoop bp n p = some r) (hle : n ≤ m) : s.freeLoop bp m p = some r := by
  induction n generalizing m p with
  | zero => cases h
  | succ n ih =>
    obtain ⟨m,rfl⟩ : ∃ k, m = k + 1 := ⟨m - 1,by omega⟩
    simp only [Heap.freeLoop] at h ⊢
    split_ifs at h ⊢ with h₁ h₂
    · exact h
    · exact h
    · exact ih h (by omega)

theorem freeLoop_up (hl : Links s.ptr (xs ++ r :: ys ++ [base])) (hsort : (xs ++ [r]).Pairwise (· < ·))
    (hr : r < bp) (hys : ∀ y ∈ ys, bp < y) (hbase : base ≤ r) (hp : (xs ++ [r]).head? = some p) :
    ∃ n, s.freeLoop bp n p = some r := by
  induction xs generalizing p with
  | nil =>
    obtain rfl : r = p := by simpa using hp
    refine ⟨1,?_⟩
    cases ys with
    | nil =>
      have hn : s.ptr r = base := (List.isChain_cons_cons.mp hl).1
      simp [Heap.freeLoop,hn,hr,hbase]
    | cons y ys =>
      have hn : s.ptr r = y := (List.isChain_cons_cons.mp hl).1
      have := hys y (by simp)
      simp [Heap.freeLoop,hn,hr,this]
  | cons x xs ih =>
    obtain rfl : x = p := by simpa using hp
    obtain ⟨hx,hsort⟩ := List.pairwise_cons.mp hsort
    obtain ⟨q,hq⟩ : ∃ q, (xs ++ [r]).head? = some q := by cases xs <;> simp
    have hmem : q ∈ xs ++ [r] := List.mem_of_mem_head? hq
    have hn : s.ptr x = q := by
      refine (List.isChain_cons.mp hl).1 q ?_
      cases xs <;> simp_all
    obtain ⟨n,h⟩ := ih (List.isChain_cons.mp hl).2 hsort hq
    have hle : q ≤ r := by
      rcases List.mem_append.mp hmem with hmem | hmem
      · exact ((List.pairwise_append.mp hsort).2.2 q hmem r (by simp)).le
      · exact (List.mem_singleton.mp hmem).le
    have := hx q hmem
    refine ⟨n + 1,?_⟩
    rw [Heap.freeLoop,hn,if_neg (by omega),if_neg (by omega),h]

theorem freeLoop_wrap (hl : Links s.ptr (p :: ys ++ [base])) (hsort : (p :: ys).Pairwise (· < ·))
    (hys : ∀ y ∈ p :: ys, bp < y) (hbase : base < bp) (h : s.freeLoop bp n base = some r) :
    ∃ n, s.freeLoop bp n p = some r := by
  have hp := hys p (by simp)
  induction ys generalizing p with
  | nil =>
    have hn : s.ptr p = base := (List.isChain_cons_cons.mp hl).1
    refine ⟨n + 1,?_⟩
    rw [Heap.freeLoop,hn,if_neg (by omega),if_neg (by omega),h]
  | cons y ys ih =>
    obtain ⟨hn,hl⟩ := List.isChain_cons_cons.mp hl
    obtain ⟨hlt,hsort⟩ := List.pairwise_cons.mp hsort
    have hy := hys y (by simp)
    obtain ⟨n,h'⟩ := ih hl hsort (fun y hy => hys y (List.mem_cons_of_mem _ hy)) hy
    have := hlt y (by simp)
    refine ⟨n + 1,?_⟩
    rw [Heap.freeLoop,hn,if_neg (by omega),if_neg (by omega),h']

end Search

section FreeList
variable {s : Heap} {base bp n p : ℕ} {l l₁ l₂ : List (ℕ × ℕ)} {b c : ℕ × ℕ}

theorem FreeList.freeLoop_eq (hf : FreeList s base l) (hp : p ∈ base :: addrs l) (hbase : base < bp)
    (hcut : (base,0) :: l = l₁ ++ c :: l₂) (hc : c.1 < bp) (h₂ : ∀ b ∈ l₂, bp < b.1) :
    ∃ n, s.freeLoop bp n p = some c.1 := by
  have hsort := hf.spaced.sorted
  have hl := hf.links
  have haddrs : base :: addrs l = addrs l₁ ++ c.1 :: addrs l₂ := by
    rw [← addrs_cons,← addrs_append,← hcut,addrs_cons]
  have h₂' : ∀ a ∈ addrs l₂, bp < a := by simpa [addrs] using h₂
  have hbc : base ≤ c.1 := by
    cases l₁ with
    | nil => rw [show c = (base,0) from (List.cons.inj hcut).1.symm]
    | cons d l₁ =>
      rw [addrs_cons,haddrs,← (List.cons.inj hcut).1] at hsort
      exact ((List.pairwise_cons.mp hsort).1 c.1 (by simp)).le
  rw [addrs_cons,haddrs] at hsort
  rw [haddrs] at hl hp
  have hsub : (addrs l₁ ++ [c.1]).Sublist (addrs l₁ ++ c.1 :: addrs l₂) := by simp
  rcases List.mem_append.mp hp with hp | hp
  · obtain ⟨us,vs,huv⟩ := List.append_of_mem hp
    rw [huv] at hl hsort hsub
    have hl' : Links s.ptr (p :: vs ++ c.1 :: addrs l₂ ++ [base]) := List.IsChain.suffix hl ⟨us,by simp⟩
    exact freeLoop_up hl' ((hsort.sublist hsub).sublist (by simp)) hc h₂' hbc (by simp)
  rcases List.mem_cons.mp hp with rfl | hp
  · have hl' : Links s.ptr ([] ++ c.1 :: addrs l₂ ++ [base]) := List.IsChain.suffix hl ⟨addrs l₁,by simp⟩
    exact freeLoop_up hl' (by simp) hc h₂' hbc (by simp)
  · have hhead : (addrs l₁ ++ [c.1]).head? = some base := by
      cases l₁ with
      | nil => simp [show c = (base,0) from (List.cons.inj hcut).1.symm]
      | cons d l₁ => simp [← (List.cons.inj hcut).1]
    obtain ⟨n,hn⟩ := freeLoop_up hl (hsort.sublist hsub) hc h₂' hbc hhead
    obtain ⟨us,vs,huv⟩ := List.append_of_mem hp
    rw [huv] at hl hsort h₂'
    have hl' : Links s.ptr (p :: vs ++ [base]) := List.IsChain.suffix hl ⟨addrs l₁ ++ c.1 :: us,by simp⟩
    refine freeLoop_wrap hl' (hsort.sublist ?_) (fun y hy => h₂' y (List.mem_append_right _ hy)) hbase hn
    rw [show addrs l₁ ++ c.1 :: (us ++ p :: vs) = addrs l₁ ++ c.1 :: us ++ p :: vs by simp]
    exact List.sublist_append_right _ _

/-! ### The two joins of `free` -/

theorem joinUpper_ptr : (s.joinUpper bp p).ptr =
    Function.update s.ptr bp (if plus bp (s.size bp) = s.ptr p then s.ptr (s.ptr p) else s.ptr p) := by
  unfold Heap.joinUpper
  split_ifs <;> simp

theorem joinUpper_size : (s.joinUpper bp p).size =
    Function.update s.size bp (if plus bp (s.size bp) = s.ptr p then (s.size bp + s.size (s.ptr p)) % 2 ^ 32 else s.size bp) := by
  unfold Heap.joinUpper
  split_ifs <;> simp

theorem joinLower_ptr : (s.joinLower bp p).ptr =
    Function.update s.ptr p (if plus p (s.size p) = bp then s.ptr bp else bp) := by
  unfold Heap.joinLower
  split_ifs <;> simp

theorem joinLower_size : (s.joinLower bp p).size =
    Function.update s.size p (if plus p (s.size p) = bp then (s.size p + s.size bp) % 2 ^ 32 else s.size p) := by
  unfold Heap.joinLower
  split_ifs <;> simp

theorem joinUpper_regions : (s.joinUpper bp p).regions = s.regions := by
  unfold Heap.joinUpper
  split_ifs <;> rfl

theorem joinUpper_top : (s.joinUpper bp p).top = s.top := by
  unfold Heap.joinUpper
  split_ifs <;> rfl

theorem joinLower_regions : (s.joinLower bp p).regions = s.regions := by
  unfold Heap.joinLower
  split_ifs <;> rfl

theorem joinLower_top : (s.joinLower bp p).top = s.top := by
  unfold Heap.joinLower
  split_ifs <;> rfl

theorem joinUpper_size_of_ne {x : ℕ} (h : x ≠ bp) : (s.joinUpper bp p).size x = s.size x := by
  rw [joinUpper_size,Function.update_of_ne h]

theorem joinLower_size_of_ne {x : ℕ} (h : x ≠ p) : (s.joinLower bp p).size x = s.size x := by
  rw [joinLower_size,Function.update_of_ne h]

theorem joinUpper_links (hl : Links s.ptr (p :: addrs l ++ [base])) (hs : ∀ c ∈ b :: l, s.size c.1 = c.2)
    (hb : b.1 ∉ addrs l) (hbase : base < b.1) :
    Links (s.joinUpper b.1 p).ptr (b.1 :: addrs (rest b l) ++ [base]) := by
  have hbs := hs b (by simp)
  rw [joinUpper_ptr,hbs]
  cases l with
  | nil =>
    have hp : s.ptr p = base := (List.isChain_cons_cons.mp hl).1
    have hne : ¬plus b.1 b.2 = base := fun h => absurd (h ▸ le_plus b.1 b.2) (by omega)
    simp [rest,Links,hp,hne]
  | cons c l =>
    obtain ⟨hp,hl⟩ := List.isChain_cons_cons.mp hl
    rw [hp]
    simp only [rest]
    split_ifs with h
    · exact Links.replace hl hb
    · exact Links.push hl hb

theorem joinUpper_self (hl : Links s.ptr (p :: addrs l ++ [base])) (hs : ∀ c ∈ b :: l, s.size c.1 = c.2)
    (hbase : base < b.1) (hlim : total (b :: l) < 2 ^ 32) :
    (s.joinUpper b.1 p).size b.1 = (grow b l).2 := by
  have hbs := hs b (by simp)
  rw [joinUpper_size,hbs,Function.update_self]
  cases l with
  | nil =>
    have hp : s.ptr p = base := (List.isChain_cons_cons.mp hl).1
    have hne : ¬plus b.1 b.2 = base := fun h => absurd (h ▸ le_plus b.1 b.2) (by omega)
    rw [hp,if_neg hne,grow]
  | cons c l =>
    have hp : s.ptr p = c.1 := (List.isChain_cons_cons.mp hl).1
    rw [hp,hs c (by simp),grow]
    split_ifs
    · exact Nat.mod_eq_of_lt (by simp at hlim; omega)
    · rfl

theorem joinLower_links (hl : Links s.ptr (b.1 :: addrs l ++ [base])) (hs : s.size c.1 = c.2)
    (hc : c.1 ∉ addrs (b :: l)) : Links (s.joinLower b.1 c.1).ptr (c.1 :: addrs (rest c (b :: l)) ++ [base]) := by
  rw [joinLower_ptr,hs]
  simp only [rest]
  split_ifs with h
  · exact Links.replace hl hc
  · exact Links.push hl hc

theorem joinLower_self (hs : ∀ d ∈ [c,b], s.size d.1 = d.2) (hlim : c.2 + b.2 < 2 ^ 32) :
    (s.joinLower b.1 c.1).size c.1 = (grow c (b :: l)).2 := by
  rw [joinLower_size,hs c (by simp),hs b (by simp),Function.update_self,grow]
  split_ifs
  · exact Nat.mod_eq_of_lt hlim
  · rfl

theorem exists_cut (h : Spaced (c :: l)) (hc : c.1 < b.1) (hle : plus c.1 c.2 ≤ b.1) (hpos : ∀ d ∈ l, 0 < d.2)
    (hdis : ∀ d ∈ l, plus d.1 d.2 ≤ b.1 ∨ plus b.1 b.2 ≤ d.1) :
    ∃ l₁ d l₂, c :: l = l₁ ++ d :: l₂ ∧ d.1 < b.1 ∧ plus d.1 d.2 ≤ b.1 ∧ ∀ e ∈ l₂, plus b.1 b.2 ≤ e.1 := by
  induction l generalizing c with
  | nil => exact ⟨[],c,[],rfl,hc,hle,by simp⟩
  | cons d l ih =>
    obtain ⟨-,hl⟩ := List.pairwise_cons.mp h
    rcases hdis d (by simp) with hd | hd
    · have hd' : d.1 < b.1 := by
        have := hpos d (by simp)
        simp only [plus] at hd
        omega
      obtain ⟨l₁,e,l₂,heq,h⟩ := ih hl hd' hd (fun e he => hpos e (by simp [he])) (fun e he => hdis e (by simp [he]))
      exact ⟨c :: l₁,e,l₂,by rw [heq,List.cons_append],h⟩
    · refine ⟨[],c,d :: l,rfl,hc,hle,fun e he => ?_⟩
      rcases List.mem_cons.mp he with rfl | he
      · exact hd
      · exact hd.trans ((le_plus _ _).trans ((List.pairwise_cons.mp hl).1 e he).le)

def put (l₁ : List (ℕ × ℕ)) (c b : ℕ × ℕ) (l₂ : List (ℕ × ℕ)) : List (ℕ × ℕ) :=
  l₁ ++ grow c (grow b l₂ :: rest b l₂) :: rest c (grow b l₂ :: rest b l₂)

section Put

variable (l₁ c b l₂) in
theorem total_put : total (put l₁ c b l₂) = b.2 + total (l₁ ++ c :: l₂) := by
  rw [put,total_append,total_grow,total_cons,total_grow,total_append,total_cons,total_cons]
  omega

variable (l₁ c b l₂) in
theorem cover_put (x : ℕ) : cover (bytes (put l₁ c b l₂)) x = covers (b.1,16 * b.2) x + cover (bytes (l₁ ++ c :: l₂)) x := by
  rw [put,bytes_append,cover_append,cover_grow,bytes_cons,cover_cons,cover_grow]
  simp only [bytes_cons,bytes_append,cover_append,cover_cons]
  omega

theorem exists_of_mem_put {d : ℕ × ℕ} (h : d ∈ put l₁ c b l₂) : ∃ e ∈ b :: (l₁ ++ c :: l₂), e.1 = d.1 ∧ e.2 ≤ d.2 := by
  rcases List.mem_append.mp h with h | h
  · exact ⟨d,by simp [h],rfl,Nat.le_refl _⟩
  obtain ⟨e,he,h₁,h₂⟩ := exists_grow_of_mem h
  rcases List.mem_cons.mp he with rfl | he
  · exact ⟨e,by simp,h₁,h₂⟩
  obtain ⟨e',he',h₁',h₂'⟩ := exists_grow_of_mem he
  refine ⟨e',?_,h₁'.trans h₁,h₂'.trans h₂⟩
  rcases List.mem_cons.mp he' with rfl | he'
  · simp
  · simp [he']

variable (l₁ c b l₂) in
theorem exists_mem_put : ∃ d ∈ put l₁ c b l₂, b.2 ≤ d.2 := by
  have hb : grow b l₂ ∈ c :: grow b l₂ :: rest b l₂ := by simp
  obtain ⟨d,hd,hle⟩ := exists_mem_grow hb
  exact ⟨d,List.mem_append_right _ hd,le_grow.trans hle⟩

variable (hc : plus c.1 c.2 ≤ b.1) (hb : ∀ d ∈ l₂, plus b.1 b.2 ≤ d.1)

include hc hb

theorem plus_le_of_mem_grow {d : ℕ × ℕ} (hd : d ∈ grow b l₂ :: rest b l₂) : plus c.1 c.2 ≤ d.1 := by
  obtain ⟨e,he,h₁,-⟩ := exists_grow_of_mem hd
  rw [← h₁]
  rcases List.mem_cons.mp he with rfl | he
  · exact hc
  · exact hc.trans ((le_plus _ _).trans (hb e he))

theorem Spaced.put (h : Spaced (l₁ ++ c :: l₂)) : Spaced (put l₁ c b l₂) := by
  obtain ⟨hl₁,hcl₂,hlt⟩ := List.pairwise_append.mp h
  have hm : Spaced (Umalloc.grow b l₂ :: rest b l₂) := Spaced.grow (List.pairwise_cons.mp hcl₂).2 hb
  refine List.pairwise_append.mpr ⟨hl₁,hm.grow fun d hd => plus_le_of_mem_grow hc hb hd,fun d hd e he => ?_⟩
  refine (hlt d hd c (by simp)).trans_le ?_
  obtain ⟨e',he',h₁,-⟩ := exists_grow_of_mem he
  rw [← h₁]
  rcases List.mem_cons.mp he' with rfl | he'
  · exact Nat.le_refl _
  · exact (le_plus _ _).trans (plus_le_of_mem_grow hc hb he')

end Put

section Joins
variable (hl : Links s.ptr (addrs l₁ ++ c.1 :: addrs l₂ ++ [base])) (hs : ∀ d ∈ b :: (l₁ ++ c :: l₂), s.size d.1 = d.2)
  (hlt : ∀ d ∈ l₁, d.1 < c.1) (hcb : c.1 < b.1) (hb : ∀ d ∈ l₂, b.1 < d.1) (hbase : base < b.1)

include hb in
theorem le_of_mem_grow {d : ℕ × ℕ} (hd : d ∈ grow b l₂ :: rest b l₂) : b.1 ≤ d.1 := by
  obtain ⟨e,he,h₁,-⟩ := exists_grow_of_mem hd
  rw [← h₁]
  rcases List.mem_cons.mp he with rfl | he
  · exact Nat.le_refl _
  · exact (hb e he).le

include hl hs hlt hcb hb hbase

theorem joins_links : Links ((s.joinUpper b.1 c.1).joinLower b.1 c.1).ptr (addrs (put l₁ c b l₂) ++ [base]) := by
  rw [List.append_assoc,List.cons_append,Links,List.isChain_split] at hl
  obtain ⟨hlow,hup⟩ := hl
  have hnot : ∀ a, c.1 ≤ a → a ∉ addrs l₁ := fun a ha h => by
    obtain ⟨d,hd,rfl⟩ := mem_addrs.mp h
    exact absurd (hlt d hd) (by omega)
  have hlow' : Links ((s.joinUpper b.1 c.1).joinLower b.1 c.1).ptr (addrs l₁ ++ [c.1]) := by
    rw [joinLower_ptr,joinUpper_ptr]
    exact Links.update (Links.update hlow (hnot _ hcb.le)) (hnot _ (Nat.le_refl _))
  have hup' : Links (s.joinUpper b.1 c.1).ptr ((grow b l₂).1 :: addrs (rest b l₂) ++ [base]) := by
    rw [grow_fst]
    refine joinUpper_links hup (fun d hd => hs d ?_) (fun h => ?_) hbase
    · rcases List.mem_cons.mp hd with rfl | hd <;> simp_all
    · obtain ⟨d,hd,h⟩ := mem_addrs.mp h
      exact absurd (hb d hd) (by omega)
  have hc : (s.joinUpper b.1 c.1).size c.1 = c.2 := (joinUpper_size_of_ne hcb.ne).trans (hs c (by simp))
  have hlast := joinLower_links hup' hc fun h => by
    obtain ⟨d,hd,h⟩ := mem_addrs.mp h
    exact absurd (le_of_mem_grow hb hd) (by omega)
  rw [grow_fst] at hlast
  rw [put,addrs_append,addrs_cons,grow_fst,List.append_assoc,List.cons_append]
  exact List.isChain_split.mpr ⟨hlow',hlast⟩

theorem joins_size (hlim : total (b :: (l₁ ++ c :: l₂)) < 2 ^ 32) :
    ∀ d ∈ put l₁ c b l₂, ((s.joinUpper b.1 c.1).joinLower b.1 c.1).size d.1 = d.2 := by
  rw [List.append_assoc,List.cons_append,Links,List.isChain_split] at hl
  have htot : total (grow b l₂ :: rest b l₂) = total (b :: l₂) := total_grow
  simp only [total_cons,total_append] at hlim htot
  have hb' : (s.joinUpper b.1 c.1).size b.1 = (grow b l₂).2 := by
    refine joinUpper_self hl.2 (fun d hd => hs d ?_) hbase (by rw [total_cons]; omega)
    rcases List.mem_cons.mp hd with rfl | hd <;> simp_all
  have hc : (s.joinUpper b.1 c.1).size c.1 = c.2 := (joinUpper_size_of_ne hcb.ne).trans (hs c (by simp))
  intro d hd
  rcases List.mem_append.mp hd with hd | hd
  · have := hlt d hd
    rw [joinLower_size_of_ne (by omega),joinUpper_size_of_ne (by omega),hs d (by simp [hd])]
  rcases List.mem_cons.mp hd with rfl | hd
  · rw [grow_fst,← grow_fst (l := l₂)]
    refine joinLower_self (fun d hd => ?_) (by omega)
    rcases List.mem_cons.mp hd with rfl | hd
    · rw [grow_fst,hc]
    · rw [List.mem_singleton.mp hd,grow_fst,hb']
  have hd := rest_subset hd
  have hle := le_of_mem_grow hb hd
  rw [joinLower_size_of_ne (by omega)]
  rcases List.mem_cons.mp hd with rfl | hd
  · rw [grow_fst,hb']
  · have hd := rest_subset hd
    rw [joinUpper_size_of_ne (hb d hd).ne',hs d (by simp [hd])]

end Joins

/-- What `free` does to a block `b` that is not in the list. -/
structure Freed (s : Heap) (base : ℕ) (l : List (ℕ × ℕ)) (b : ℕ × ℕ) (s' : Heap) (l' : List (ℕ × ℕ)) : Prop where
  list : FreeList s' base l'
  freep : s'.freep ∈ base :: addrs l'
  cover : ∀ x, cover (bytes l') x = covers (b.1,16 * b.2) x + Library.cover (bytes l) x
  total : total l' = b.2 + total l
  large : ∃ c ∈ l', b.2 ≤ c.2
  size : ∀ x ∉ b.1 :: base :: addrs l, s'.size x = s.size x
  regions : s'.regions = s.regions
  top : s'.top = s.top

theorem FreeList.free (hf : FreeList s base l) (hp : s.freep ∈ base :: addrs l) (hbase : base + 16 ≤ b.1)
    (hs : s.size b.1 = b.2) (hpos : 0 < b.2) (hdis : ∀ d ∈ l, plus d.1 d.2 ≤ b.1 ∨ plus b.1 b.2 ≤ d.1)
    (hlim : b.2 + total l < 2 ^ 32) :
    ∃ fuel s' l', s.free fuel (b.1 + 16) = some s' ∧ Freed s base l b s' l' := by
  have hbase' : base < b.1 := by omega
  obtain ⟨l₁,c,l₂,heq,hcb,hc,hb⟩ := exists_cut hf.spaced hbase' (by simp [plus]; omega) hf.pos hdis
  have hb' : ∀ d ∈ l₂, b.1 < d.1 := fun d hd => by
    have := hb d hd
    simp only [plus] at this
    omega
  obtain ⟨fuel,hloop⟩ := hf.freeLoop_eq hp hbase' heq hcb hb'
  have hsp := hf.spaced
  have hl : Links s.ptr (addrs ((base,0) :: l) ++ [base]) := hf.links
  have hsize : ∀ d ∈ b :: ((base,0) :: l), s.size d.1 = d.2 := List.forall_mem_cons.mpr ⟨hs,hf.size⟩
  have hlim' : Umalloc.total (b :: ((base,0) :: l)) < 2 ^ 32 := by simpa using hlim
  rw [heq] at hsp hl hsize hlim'
  rw [addrs_append,addrs_cons] at hl
  have hlt : ∀ d ∈ l₁, d.1 < c.1 := fun d hd =>
    (le_plus _ _).trans_lt ((List.pairwise_append.mp hsp).2.2 d hd c (by simp))
  have hsp' := Spaced.put hc hb hsp
  -- `base` is still the first
  obtain ⟨l',heq'⟩ : ∃ l', put l₁ c b l₂ = (base,0) :: l' := by
    cases l₁ with
    | nil =>
      obtain rfl : (base,0) = c := (List.cons.inj heq).1
      have hne : ¬plus base 0 = b.1 := by simp [plus]; omega
      refine ⟨grow b l₂ :: rest b l₂,?_⟩
      rw [put,grow_of_ne (by rwa [grow_fst]),rest_of_ne (by rwa [grow_fst]),List.nil_append]
    | cons d l₁ => exact ⟨_,by rw [put,List.cons_append,(List.cons.inj heq).1]⟩
  have horig : ∀ d ∈ l', ∃ e ∈ b :: l, e.1 = d.1 ∧ e.2 ≤ d.2 := fun d hd => by
    have hmem : d ∈ put l₁ c b l₂ := by rw [heq']; exact List.mem_cons_of_mem _ hd
    obtain ⟨e,he,h₁,h₂⟩ := exists_of_mem_put hmem
    rw [← heq] at he
    have hlt : base < d.1 := by
      rw [heq'] at hsp'
      simpa [plus] using (List.pairwise_cons.mp hsp').1 d hd
    refine ⟨e,?_,h₁,h₂⟩
    rcases List.mem_cons.mp he with rfl | he
    · simp
    rcases List.mem_cons.mp he with rfl | he
    · exact absurd h₁ hlt.ne
    · simp [he]
  refine ⟨fuel,{ (s.joinUpper b.1 c.1).joinLower b.1 c.1 with freep := c.1 },l',?_,?_⟩
  · simp [Heap.free,hloop]
  · constructor
    case list =>
      constructor
      · have := joins_links hl hsize hlt hcb hb' hbase'
        rwa [heq'] at this
      · have := joins_size hl hsize hlt hcb hb' hbase' hlim'
        rwa [heq'] at this
      · rwa [heq'] at hsp'
      · intro d hd
        obtain ⟨e,he,h₁,-⟩ := horig d hd
        rw [← h₁]
        rcases List.mem_cons.mp he with rfl | he
        · exact hbase
        · exact hf.above e he
      · intro d hd
        obtain ⟨e,he,-,h₂⟩ := horig d hd
        refine Nat.lt_of_lt_of_le ?_ h₂
        rcases List.mem_cons.mp he with rfl | he
        · exact hpos
        · exact hf.pos e he
    case freep =>
      have : c.1 ∈ addrs (put l₁ c b l₂) := mem_addrs.mpr ⟨_,List.mem_append_right _ List.mem_cons_self,grow_fst⟩
      rwa [heq'] at this
    case cover =>
      intro x
      have := cover_put l₁ l₂ b c x
      rw [heq',← heq] at this
      simpa using this
    case total =>
      have := total_put l₁ l₂ b c
      rw [heq',← heq] at this
      simpa using this
    case large =>
      obtain ⟨d,hd,hle⟩ := exists_mem_put l₁ l₂ b c
      rw [heq'] at hd
      rcases List.mem_cons.mp hd with rfl | hd
      · exact absurd hle (by simp; omega)
      · exact ⟨d,hd,hle⟩
    case size =>
      intro x hx
      have hxc : x ≠ c.1 := by
        rintro rfl
        apply hx
        have : c.1 ∈ addrs ((base,0) :: l) := by simp [heq]
        exact List.mem_cons_of_mem _ this
      have hxb : x ≠ b.1 := fun h => hx (by simp [h])
      exact (joinLower_size_of_ne hxc).trans (joinUpper_size_of_ne hxb)
    case regions => exact joinLower_regions.trans joinUpper_regions
    case top => exact joinLower_top.trans joinUpper_top

end FreeList

end Xv6.Umalloc
