import Xv6.Library.Prog

/-! # Operations with several outcomes

What an operation does is a relation, and a program is judged by all its outcomes: every operation
it issues must be safe, and whatever they return, the result must be as promised.
-/
namespace Xv6.Library

structure Moves (Op : Type) (Res : Op → Type) (S : Type) where
  safe : Op → S → Prop
  step : (o : Op) → S → Res o → S → Prop

namespace Prog
variable {Op : Type} {Res : Op → Type} {S α β : Type}

/-- Every operation of `p` from `s` is safe, and what `p` returns satisfies `Q`. -/
def ensures (L : Moves Op Res S) : Prog Op Res α → (α → S → Prop) → S → Prop
  | ret a, Q, s => Q a s
  | op o k, Q, s => L.safe o s ∧ ∀ r t, L.step o s r t → (k r).ensures L Q t

variable {L : Moves Op Res S} {Q : α → S → Prop} {R : β → S → Prop} {s : S} {p : Prog Op Res α}

theorem ensures.mono {Q' : α → S → Prop} (h : p.ensures L Q s) (hQ : ∀ a t, Q a t → Q' a t) :
    p.ensures L Q' s := by
  induction p generalizing s with
  | ret a => exact hQ a s h
  | op o k ih => exact ⟨h.1,fun r t hs => ih r (h.2 r t hs)⟩

theorem ensures_bind (p : Prog Op Res α) (f : α → Prog Op Res β) :
    (p.bind f).ensures L R s ↔ p.ensures L (fun a t => (f a).ensures L R t) s := by
  induction p generalizing s with
  | ret a => rfl
  | op o k ih =>
    simp only [op_bind,ensures,ih]

theorem ensures.bind {f : α → Prog Op Res β} (h : p.ensures L (fun a t => (f a).ensures L R t) s) :
    (p.bind f).ensures L R s := (ensures_bind p f).mpr h

/-- Every operation that `p` can issue, whatever the operations return, is one of `N`. -/
def only (N : Op → Prop) : Prog Op Res α → Prop
  | ret _ => True
  | op o k => N o ∧ ∀ r, (k r).only N

variable {N : Op → Prop}

theorem only_ret (a : α) : (ret a : Prog Op Res α).only N := trivial

theorem only_call {o : Op} (h : N o) : (call o : Prog Op Res (Res o)).only N := ⟨h,fun _ => trivial⟩

theorem only.bind {f : α → Prog Op Res β} (hp : p.only N) (hf : ∀ a, (f a).only N) :
    (p.bind f).only N := by
  induction p with
  | ret a => exact hf a
  | op o k ih => exact ⟨hp.1,fun r => ih r (hp.2 r)⟩

theorem only.mono {N' : Op → Prop} (hp : p.only N) (h : ∀ o, N o → N' o) : p.only N' := by
  induction p with
  | ret a => exact trivial
  | op o k ih => exact ⟨h o hp.1,fun r => ih r (hp.2 r)⟩

theorem only.ensures (hp : p.only N)
    (hN : ∀ o, N o → L.safe o s ∧ ∀ r t, L.step o s r t → t = s) (hQ : ∀ a, Q a s) : p.ensures L Q s := by
  induction p with
  | ret a => exact hQ a
  | op o k ih =>
    obtain ⟨hsafe,hstep⟩ := hN o hp.1
    refine ⟨hsafe,fun r t ht => ?_⟩
    rw [hstep r t ht]
    exact ih r (hp.2 r)

theorem only.ensures_same (hp : p.only fun o => ∀ s r t, L.step o s r t → t = s)
    (h : p.ensures L Q s) : p.ensures L (fun a t => t = s ∧ Q a t) s := by
  induction p with
  | ret a => exact ⟨rfl,h⟩
  | op o k ih =>
    refine ⟨h.1,fun r t ht => ?_⟩
    obtain rfl := hp.1 s r t ht
    exact ih r (hp.2 r) (h.2 r t ht)

/-- What every operation of a program keeps, the program keeps. -/
theorem only.wp {T E : Type} {H : Handler Op Res T E} {X : E → Prop} {I : T → Prop} (hX : ∀ e, X e)
    (hI : ∀ o t r t', N o → I t → H o t = .ok (r,t') → I t') {t : T} (hp : p.only N) (ht : I t) :
    p.wp H X (fun _ => I) t := by
  induction p generalizing t with
  | ret a => exact (wp_ret _ _ _).mpr ht
  | op o k ih =>
    cases ho : H o t with
    | ok q => exact (wp_op_ok ho).mpr (ih q.1 (hp.2 q.1) (hI o t q.1 q.2 hp.1 ht ho))
    | error e => exact (wp_op_error ho).mpr (hX e)

section Map
variable {Op' : Type} {Res' : Op' → Type}

/-- The same program with its operations under other names. -/
def map (i : Op → Op') (j : ∀ o, Res' (i o) → Res o) : Prog Op Res α → Prog Op' Res' α
  | ret a => ret a
  | op o k => op (i o) fun r => (k (j o r)).map i j

end Map

end Prog

end Xv6.Library
