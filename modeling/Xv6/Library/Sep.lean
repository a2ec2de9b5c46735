import Mathlib
import Xv6.Library.Moves

/-! # Programs over owned cells

What a program may touch is a heap: the cells it owns. Assertions about heaps form a commutative
quantale, whose product splits a heap in two; so disjointness of cells never has to be said. A
program's precondition says that each operation stays within the owned cells, whatever an
operation with several outcomes does, and leaves every other cell alone.
-/
namespace Xv6.Library
open Function (update update_of_ne update_self)

def Heap (K V : Type) := K → Option V

namespace Heap
variable {K V : Type} {f g h : Heap K V}

def empty : Heap K V := fun _ => none

def Apart (f g : Heap K V) : Prop := ∀ x, f x = none ∨ g x = none

def join (f g : Heap K V) : Heap K V := fun x => (f x).or (g x)

def set [DecidableEq K] (f : Heap K V) (x : K) (v : Option V) : Heap K V := fun y => if y = x then v else f y

def single [DecidableEq K] (x : K) (v : V) : Heap K V := empty.set x (some v)

theorem Apart.symm (h : f.Apart g) : g.Apart f := fun x => (h x).symm

theorem join_comm (h : f.Apart g) : f.join g = g.join f := by
  funext x
  rcases h x with hx | hx <;> simp [join,hx]

theorem join_assoc : (f.join g).join h = f.join (g.join h) := by
  funext x
  simp only [join]
  cases f x <;> rfl

@[simp] theorem join_empty : f.join empty = f := by
  funext x
  simp [join,empty]

@[simp] theorem empty_join : empty.join f = f := by
  funext x
  simp [join,empty]

@[simp] theorem apart_empty : f.Apart empty := fun _ => .inr rfl

@[simp] theorem empty_apart : empty.Apart f := fun _ => .inl rfl

theorem join_eq_none {x : K} : f.join g x = none ↔ f x = none ∧ g x = none := by
  simp [join]

theorem join_ne_none {x : K} : f.join g x ≠ none ↔ f x ≠ none ∨ g x ≠ none := by
  rw [Ne,join_eq_none,not_and_or]

theorem join_apart : (f.join g).Apart h ↔ f.Apart h ∧ g.Apart h := by
  simp only [Apart,join_eq_none]
  constructor
  · intro hx
    exact ⟨fun x => (hx x).imp_left And.left,fun x => (hx x).imp_left And.right⟩
  · rintro ⟨hf,hg⟩ x
    rcases hf x with hfx | hhx
    · exact (hg x).imp_left fun hgx => ⟨hfx,hgx⟩
    · exact .inr hhx

theorem join_left {x : K} {v : V} (hx : f x = some v) : f.join g x = some v := by
  simp [join,hx]

theorem join_of_ne {x : K} (hx : f x ≠ none) : f.join g x = f x := by
  obtain ⟨v,hv⟩ := Option.ne_none_iff_exists'.mp hx
  rw [join_left hv,hv]

theorem Apart.none_of_ne {x : K} (h : f.Apart g) (hx : f x ≠ none) : g x = none := (h x).resolve_left hx

section Set
variable [DecidableEq K] {x y : K} {v : Option V}

@[simp] theorem set_self : f.set x v x = v := if_pos rfl

theorem set_of_ne (h : y ≠ x) : f.set x v y = f y := if_neg h

@[simp] theorem set_set {u : Option V} : (f.set x u).set x v = f.set x v := by
  funext y
  by_cases h : y = x <;> simp [set,h]

theorem set_eq_self (h : f x = v) : f.set x v = f := by
  funext y
  by_cases hy : y = x <;> simp [set,hy,h]

theorem Apart.set (h : f.Apart g) (hx : g x = none) : (f.set x v).Apart g := by
  intro y
  by_cases hy : y = x
  · exact .inr (hy ▸ hx)
  · rw [set_of_ne hy]
    exact h y

theorem set_join (hx : g x = none) : (f.join g).set x v = (f.set x v).join g := by
  funext y
  by_cases hy : y = x
  · subst hy
    simp [join,hx]
  · simp [join,set_of_ne hy]

end Set

end Heap

/-- Assertions about the owned cells. -/
def Assert (K V : Type) := Heap K V → Prop

namespace Assert
variable {K V : Type} {h : Heap K V} {φ : Prop}

instance : CompleteLattice (Assert K V) := inferInstanceAs (CompleteLattice (Heap K V → Prop))

/-- The heap splits into a part for each factor. -/
instance : Mul (Assert K V) := ⟨fun P Q h => ∃ f g, P f ∧ Q g ∧ f.Apart g ∧ h = f.join g⟩

instance : One (Assert K V) := ⟨fun h => h = .empty⟩

theorem mul_iff {P Q : Assert K V} :
    (P * Q) h ↔ ∃ f g, P f ∧ Q g ∧ f.Apart g ∧ h = f.join g := Iff.rfl

theorem one_iff : (1 : Assert K V) h ↔ h = .empty := Iff.rfl

private theorem mul_comm_le (P Q : Assert K V) : P * Q ≤ Q * P := by
  rintro h ⟨f,g,hf,hg,ha,rfl⟩
  exact ⟨g,f,hg,hf,ha.symm,Heap.join_comm ha⟩

private theorem mul_assoc_le (P Q R : Assert K V) : P * Q * R ≤ P * (Q * R) := by
  rintro h ⟨fg,k,⟨f,g,hf,hg,ha,rfl⟩,hk,ha',rfl⟩
  obtain ⟨hfk,hgk⟩ := Heap.join_apart.mp ha'
  refine ⟨f,g.join k,hf,⟨g,k,hg,hk,hgk,rfl⟩,?_,Heap.join_assoc⟩
  exact (Heap.join_apart.mpr ⟨ha.symm,hfk.symm⟩).symm

private theorem one_mul_eq (P : Assert K V) : 1 * P = P := by
  apply le_antisymm
  · rintro h ⟨f,g,rfl,hg,-,rfl⟩
    rwa [Heap.empty_join]
  · intro h hp
    exact ⟨.empty,h,rfl,hp,Heap.empty_apart,Heap.empty_join.symm⟩

private theorem mul_comm_eq (P Q : Assert K V) : P * Q = Q * P :=
  le_antisymm (mul_comm_le P Q) (mul_comm_le Q P)

private theorem mul_assoc_eq (P Q R : Assert K V) : P * Q * R = P * (Q * R) := by
  apply le_antisymm (mul_assoc_le P Q R)
  rw [mul_comm_eq P,mul_comm_eq Q,mul_comm_eq (P * Q),mul_comm_eq P]
  exact mul_assoc_le R Q P

instance : CommMonoid (Assert K V) where
  mul_assoc := mul_assoc_eq
  one_mul := one_mul_eq
  mul_one P := by rw [mul_comm_eq,one_mul_eq]
  mul_comm := mul_comm_eq

theorem iSup_iff {ι : Sort*} {P : ι → Assert K V} : (⨆ i, P i) h ↔ ∃ i, P i h := by
  have : (⨆ i, P i) h = ⨆ i, P i h := iSup_apply ..
  rw [this,iSup_Prop_eq]

theorem sSup_iff {S : Set (Assert K V)} : sSup S h ↔ ∃ P ∈ S, P h := by
  rw [sSup_eq_iSup']
  simp [iSup_iff]

private theorem mul_sSup_eq (P : Assert K V) (S : Set (Assert K V)) : P * sSup S = ⨆ Q ∈ S, P * Q := by
  funext h
  simp only [mul_iff,sSup_iff,iSup_iff,eq_iff_iff]
  constructor
  · rintro ⟨f,g,hf,⟨Q,hQ,hg⟩,ha,he⟩
    exact ⟨Q,hQ,f,g,hf,hg,ha,he⟩
  · rintro ⟨Q,hQ,f,g,hf,hg,ha,he⟩
    exact ⟨f,g,hf,⟨Q,hQ,hg⟩,ha,he⟩

instance : IsQuantale (Assert K V) where
  mul_sSup_distrib := mul_sSup_eq
  sSup_mul_distrib S P := by simp only [mul_comm _ P,mul_sSup_eq]

/-- A fact that needs no cell. -/
def fact (φ : Prop) : Assert K V := ⨆ _ : φ, 1

theorem fact_mul {P : Assert K V} : fact φ * P = ⨆ _ : φ, P := by
  by_cases hφ : φ <;> simp [fact,hφ]

theorem fact_mul_iff {P : Assert K V} :
    (fact φ * P : Assert K V) h ↔ φ ∧ P h := by
  rw [fact_mul,iSup_iff]
  exact ⟨fun ⟨hφ,hP⟩ => ⟨hφ,hP⟩,fun ⟨hφ,hP⟩ => ⟨hφ,hP⟩⟩

theorem fact_mul_le {P Q : Assert K V} : fact φ * P ≤ Q ↔ (φ → P ≤ Q) := by
  rw [fact_mul,iSup_le_iff]

theorem le_fact_mul {P Q : Assert K V} (hφ : φ) (h : P ≤ Q) : P ≤ fact φ * Q := by
  rw [fact_mul]
  exact h.trans (le_iSup (fun _ : φ => Q) hφ)

theorem le_fact_self {P : Assert K V} (h : ∀ f, P f → φ) : P ≤ fact φ * P :=
  fun f hf => fact_mul_iff.mpr ⟨h f hf,hf⟩

theorem fact_true (hφ : φ) : (fact φ : Assert K V) = 1 := by
  simp [fact,hφ]

/-- A heap satisfies a product iff it is made of separate parts for the factors. -/
theorem prod_iff {ι : Type} [DecidableEq ι] (s : Finset ι) (P : ι → Assert K V) (h : Heap K V) :
    (∏ i ∈ s, P i) h ↔ ∃ f : ι → Heap K V, (∀ i ∈ s, P i (f i)) ∧
      (∀ i ∈ s, ∀ j ∈ s, i ≠ j → (f i).Apart (f j)) ∧ ∀ x v, h x = some v ↔ ∃ i ∈ s, f i x = some v := by
  induction s using Finset.induction_on generalizing h with
  | empty =>
    rw [Finset.prod_empty,one_iff]
    constructor
    · rintro rfl
      exact ⟨fun _ => .empty,by simp,by simp,by simp [Heap.empty]⟩
    · rintro ⟨f,-,-,hx⟩
      funext x
      cases hv : h x with
      | none => rfl
      | some v => simpa using (hx x v).mp hv
  | insert a s ha ih =>
    rw [Finset.prod_insert ha,mul_iff]
    constructor
    · rintro ⟨g,k,hg,hk,hapart,rfl⟩
      obtain ⟨f,hf,hfapart,hfx⟩ := (ih k).mp hk
      have hsub : ∀ i ∈ s, g.Apart (f i) := fun i hi x => by
        rcases hapart x with hx | hx
        · exact .inl hx
        · refine .inr ?_
          cases hv : f i x with
          | none => rfl
          | some v => rw [(hfx x v).mpr ⟨i,hi,hv⟩] at hx; cases hx
      have hne : ∀ i ∈ s, i ≠ a := fun i hi he => ha (he ▸ hi)
      refine ⟨update f a g,?_,?_,?_⟩
      · intro i hi
        rcases Finset.mem_insert.mp hi with rfl | hi
        · rwa [update_self]
        · rw [update_of_ne (hne i hi)]
          exact hf i hi
      · intro i hi j hj hij
        rcases Finset.mem_insert.mp hi with rfl | his <;> rcases Finset.mem_insert.mp hj with rfl | hjs
        · exact absurd rfl hij
        · rw [update_self,update_of_ne (hne j hjs)]
          exact hsub j hjs
        · rw [update_self,update_of_ne (hne i his)]
          exact (hsub i his).symm
        · rw [update_of_ne (hne i his),update_of_ne (hne j hjs)]
          exact hfapart i his j hjs hij
      · intro x v
        simp only [Heap.join,Finset.exists_mem_insert,update_self]
        have hrest : (∃ i ∈ s, update f a g i x = some v) ↔ k x = some v := by
          rw [hfx x v]
          refine exists_congr fun i => and_congr_right fun hi => ?_
          rw [update_of_ne (hne i hi)]
        rw [hrest]
        rcases hapart x with hx | hx
        · simp [hx]
        · cases hgx : g x <;> simp [hx]
    · rintro ⟨f,hf,hapart,hfx⟩
      refine ⟨f a,fun x => if f a x = none then h x else none,hf a (Finset.mem_insert_self a s),?_,?_,?_⟩
      · refine (ih _).mpr ⟨f,fun i hi => hf i (Finset.mem_insert_of_mem hi),fun i hi j hj =>
          hapart i (Finset.mem_insert_of_mem hi) j (Finset.mem_insert_of_mem hj),fun x v => ?_⟩
        split
        · rename_i hx
          rw [hfx x v,Finset.exists_mem_insert]
          simp [hx]
        · rename_i hx
          simp only [reduceCtorEq,false_iff]
          rintro ⟨i,hi,hv⟩
          have hne : i ≠ a := fun he => ha (he ▸ hi)
          rcases hapart i (Finset.mem_insert_of_mem hi) a (Finset.mem_insert_self a s) hne x with h' | h'
          · rw [hv] at h'; cases h'
          · exact hx h'
      · intro x
        by_cases hx : f a x = none
        · exact .inl hx
        · exact .inr (if_neg hx)
      · funext x
        cases hx : f a x with
        | none => simp [Heap.join,hx]
        | some v => simp [Heap.join,hx,(hfx x v).mpr ⟨a,Finset.mem_insert_self a s,hx⟩]

/-- Ownership of one cell with its content. -/
def cell [DecidableEq K] (x : K) (v : V) : Assert K V := fun h => h = .single x v

/-- These cells and no others. -/
def exactly (f : Heap K V) : Assert K V := fun h => h = f

theorem exactly_le {P : Assert K V} {f : Heap K V} (hf : P f) : exactly f ≤ P := fun _ hh => hh ▸ hf

theorem mul_le_of_exactly {P F Q : Assert K V} (h : ∀ f, P f → exactly f * F ≤ Q) : P * F ≤ Q :=
  fun k ⟨f,g,hf,hg,ha,he⟩ => h f hf k ⟨f,g,rfl,hg,ha,he⟩

end Assert

/-- What operations do to the cells of the program that issues them. An operation that is safe
with some cells is safe with more, does not look at the others and does not change them. -/
structure Local (Op : Type) (Res : Op → Type) (K V : Type) extends Moves Op Res (Heap K V) where
  safe_join : ∀ {o f g}, safe o f → f.Apart g → safe o (f.join g)
  step_join : ∀ {o f g r h}, safe o f → f.Apart g → step o (f.join g) r h →
    ∃ f', step o f r f' ∧ f'.Apart g ∧ h = f'.join g

namespace Prog
variable {Op : Type} {Res : Op → Type} {K V α β : Type} (L : Local Op Res K V)

/-- `p` is safe, and whatever it returns, `Q` holds of that and of the cells left. -/
def must (p : Prog Op Res α) (Q : α → Assert K V) : Assert K V := p.ensures L.toMoves Q

variable {L} {P F : Assert K V} {Q : α → Assert K V} {R : β → Assert K V} {p : Prog Op Res α}

theorem must_ret (a : α) : (ret a : Prog Op Res α).must L Q = Q a := rfl

theorem must_op_iff {o : Op} {k : Res o → Prog Op Res α} {h : Heap K V} :
    (op o k).must L Q h ↔ L.safe o h ∧ ∀ r h', L.step o h r h' → (k r).must L Q h' := Iff.rfl

theorem must_mono {Q' : α → Assert K V} (p : Prog Op Res α) (hQ : ∀ a, Q a ≤ Q' a) : p.must L Q ≤ p.must L Q' :=
  fun _ hp => ensures.mono hp hQ

theorem must_bind (p : Prog Op Res α) (f : α → Prog Op Res β) :
    (p.bind f).must L R = p.must L fun a => (f a).must L R :=
  funext fun _ => propext (ensures_bind p f)

/-- Cells that a program is not given stay as they are. -/
theorem must_frame (p : Prog Op Res α) : p.must L Q * F ≤ p.must L fun a => Q a * F := by
  induction p with
  | ret a => exact le_rfl
  | op o k ih =>
    rintro h ⟨f,g,⟨hsafe,hf⟩,hg,ha,rfl⟩
    refine ⟨L.safe_join hsafe ha,fun r h' hs => ?_⟩
    obtain ⟨f',hs',ha',rfl⟩ := L.step_join hsafe ha hs
    exact ih r _ ⟨f',g,hf r f' hs',hg,ha',rfl⟩

/-- A program that changes nothing, and finds out something. -/
theorem must_exactly {f : Heap K V} (hp : p.only fun o => ∀ s r t, L.step o s r t → t = s)
    (h : p.must L Q f) : Assert.exactly f ≤ p.must L fun a => Assert.fact (Q a f) * Assert.exactly f := by
  rintro _ rfl
  refine (hp.ensures_same h).mono fun a t ht => ?_
  obtain ⟨rfl,hQ⟩ := ht
  exact Assert.fact_mul_iff.mpr ⟨hQ,rfl⟩

attribute [irreducible] must

theorem must_ret_le {a : α} (h : P ≤ Q a) : P ≤ (ret a : Prog Op Res α).must L Q := by
  rwa [must_ret]

theorem seq {f : α → Prog Op Res β} (hp : P ≤ p.must L Q)
    (hf : ∀ a, Q a ≤ (f a).must L R) : P ≤ (p.bind f).must L R := by
  rw [must_bind]
  exact hp.trans (must_mono p hf)

theorem frame (hp : P ≤ p.must L Q) : P * F ≤ p.must L fun a => Q a * F :=
  (mul_le_mul_left hp F).trans (must_frame p)

/-- A call on part of the cells, and then the rest of the program on all of them. -/
theorem seq_frame {f : α → Prog Op Res β} (hp : P ≤ p.must L Q)
    (hf : ∀ a, Q a * F ≤ (f a).must L R) : P * F ≤ (p.bind f).must L R :=
  seq (frame hp) hf

theorem imp {Q' : α → Assert K V} (hp : P ≤ p.must L Q) (hQ : ∀ a, Q a ≤ Q' a) :
    P ≤ p.must L Q' := hp.trans (must_mono p hQ)

section Machine
variable {S E : Type}

/-- A machine that does what the operations promise runs a program to its postcondition. -/
theorem must_run {H : Handler Op Res S E} {Rel : S → Heap K V → Prop} {X : E → Prop}
    (hsim : ∀ o s h, Rel s h → L.safe o h →
      (∃ r s' h', H o s = .ok (r,s') ∧ L.step o h r h' ∧ Rel s' h') ∨ ∃ e, H o s = .error e ∧ X e)
    {s : S} {h : Heap K V} (hrel : Rel s h) (hp : p.must L Q h) :
    (∃ a s' h', p.run H s = .ok (a,s') ∧ Q a h' ∧ Rel s' h') ∨ ∃ e, p.run H s = .error e ∧ X e := by
  induction p generalizing s h with
  | ret a =>
    rw [must_ret] at hp
    exact .inl ⟨a,s,h,rfl,hp,hrel⟩
  | op o k ih =>
    obtain ⟨hsafe,hk⟩ := must_op_iff.mp hp
    rcases hsim o s h hrel hsafe with ⟨r,s',h',ho,hstep,hrel'⟩ | ⟨e,ho,he⟩
    · simp only [run,ho]
      exact ih r hrel' (hk r h' hstep)
    · exact .inr ⟨e,by simp only [run,ho],he⟩

end Machine

end Prog

end Xv6.Library
