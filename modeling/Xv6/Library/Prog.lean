import Mathlib

/-! # Programs as finite trees of atomic operations

A program is either finished or issues one operation and continues with its
result. The tree fixes no meaning: a handler says what one operation does to a
state, or why it stops there. Runs, postconditions and interruption points are
defined once for every handler, so one program text can be given a sequential
meaning, a crashing one and an interleaved one.
-/
namespace Xv6.Library

inductive Prog (Op : Type) (Res : Op → Type) (α : Type) : Type
  | ret (a : α)
  | op (o : Op) (k : Res o → Prog Op Res α)

namespace Prog
variable {Op : Type} {Res : Op → Type} {α β γ : Type}

def bind : Prog Op Res α → (α → Prog Op Res β) → Prog Op Res β
  | ret a, f => f a
  | op o k, f => op o (fun r => (k r).bind f)

instance : Monad (Prog Op Res) where
  pure := ret
  bind := bind

/-- The program that issues one operation and returns its result. -/
def call (o : Op) : Prog Op Res (Res o) := op o ret

@[simp] theorem pure_eq (a : α) : (pure a : Prog Op Res α) = ret a := rfl
@[simp] theorem bind_eq (p : Prog Op Res α) (f : α → Prog Op Res β) : p >>= f = p.bind f := rfl
@[simp] theorem ret_bind (a : α) (f : α → Prog Op Res β) : (ret a : Prog Op Res α).bind f = f a := rfl
@[simp] theorem op_bind (o : Op) (k : Res o → Prog Op Res α) (f : α → Prog Op Res β) :
    (op o k).bind f = op o (fun r => (k r).bind f) := rfl
theorem bind_assoc (p : Prog Op Res α) (f : α → Prog Op Res β) (g : β → Prog Op Res γ) :
    (p.bind f).bind g = p.bind (fun a => (f a).bind g) := by
  induction p with
  | ret a => rfl
  | op o k ih => exact congrArg (op o) (funext ih)

section Handler
variable {S E : Type}

/-- What one operation does: a result and a new state, or the reason to stop. -/
abbrev Handler (Op : Type) (Res : Op → Type) (S E : Type) := (o : Op) → S → Except E (Res o × S)

variable (h : Handler Op Res S E)

def run : Prog Op Res α → S → Except E (α × S)
  | ret a, s => .ok (a,s)
  | op o k, s =>
    match h o s with
    | .ok (r,t) => (k r).run t
    | .error e => .error e

@[simp] theorem run_ret (a : α) (s : S) : (ret a : Prog Op Res α).run h s = .ok (a,s) := rfl

theorem ok_of_toOption_map {ε α β : Type} {e : Except ε α} {f : α → β} {q : β} (h : e.toOption.map f = some q) :
    ∃ x, e = .ok x ∧ f x = q := by
  cases e with
  | error e => cases h
  | ok x => exact ⟨x,rfl,Option.some.inj h⟩

theorem run_bind_ok {h : Handler Op Res S E} {p : Prog Op Res α} {f : α → Prog Op Res β} {s t : S} {a : α}
    (hp : p.run h s = .ok (a,t)) : (p.bind f).run h s = (f a).run h t := by
  induction p generalizing s with
  | ret b => cases hp; rfl
  | op o k ih =>
    simp only [op_bind,run] at hp ⊢
    cases ho : h o s with
    | error e => simp [ho] at hp
    | ok q =>
      simp only [ho] at hp ⊢
      exact ih q.1 hp

theorem exists_of_run_bind {h : Handler Op Res S E} {p : Prog Op Res α} {f : α → Prog Op Res β} {s u : S} {b : β}
    (hp : (p.bind f).run h s = .ok (b,u)) : ∃ a t, p.run h s = .ok (a,t) ∧ (f a).run h t = .ok (b,u) := by
  induction p generalizing s with
  | ret a => exact ⟨a,s,rfl,hp⟩
  | op o k ih =>
    simp only [op_bind,run] at hp ⊢
    cases ho : h o s with
    | error e => simp [ho] at hp
    | ok q =>
      simp only [ho] at hp
      exact ih q.1 hp

/-- `p` from `s` stops only for a reason in `X`, and what it returns satisfies `Q`. -/
def wp (X : E → Prop) : Prog Op Res α → (α → S → Prop) → S → Prop
  | ret a, Q, s => Q a s
  | op o k, Q, s =>
    match h o s with
    | .ok (r,t) => (k r).wp X Q t
    | .error e => X e

variable {h} {X Y : E → Prop} {p : Prog Op Res α} {f : α → Prog Op Res β} {Q R : α → S → Prop} {s t : S} {a : α}

@[simp] theorem wp_ret (a : α) (Q : α → S → Prop) (s : S) :
    (ret a : Prog Op Res α).wp h X Q s ↔ Q a s := Iff.rfl

@[simp] theorem wp_pure (a : α) (Q : α → S → Prop) (s : S) :
    (pure a : Prog Op Res α).wp h X Q s ↔ Q a s := Iff.rfl

theorem wp_op (o : Op) (k : Res o → Prog Op Res α) (Q : α → S → Prop) (s : S) :
    (op o k).wp h X Q s ↔
      match h o s with
      | .ok (r,t) => (k r).wp h X Q t
      | .error e => X e := by simp only [wp]

theorem wp_op_ok {o : Op} {k : Res o → Prog Op Res α} {r : Res o}
    (ho : h o s = .ok (r,t)) : (op o k).wp h X Q s ↔ (k r).wp h X Q t := by
  rw [wp_op,ho]

theorem wp_op_error {o : Op} {k : Res o → Prog Op Res α} {e : E}
    (ho : h o s = .error e) : (op o k).wp h X Q s ↔ X e := by
  rw [wp_op,ho]

theorem wp_bind (p : Prog Op Res α) (f : α → Prog Op Res β) (Q : β → S → Prop) (s : S) :
    (p.bind f).wp h X Q s ↔ p.wp h X (fun a t => (f a).wp h X Q t) s := by
  induction p generalizing s with
  | ret a => rfl
  | op o k ih =>
    simp only [op_bind,wp_op]
    cases h o s with
    | error e => rfl
    | ok q => exact ih q.1 q.2

theorem wp.mono (hp : p.wp h X Q s)
    (hX : ∀ e, X e → Y e) (hQ : ∀ a t, Q a t → R a t) : p.wp h Y R s := by
  induction p generalizing s with
  | ret a => exact hQ a s hp
  | op o k ih =>
    simp only [wp_op] at hp ⊢
    cases he : h o s with
    | error e => simp only [he] at hp; exact hX e hp
    | ok q => simp only [he] at hp; exact ih q.1 hp

theorem wp.imp (hp : p.wp h X Q s)
    (hQ : ∀ a t, Q a t → R a t) : p.wp h X R s := hp.mono (fun _ he => he) hQ

/-- The rule for sequences: the first half's postcondition is the second half's precondition. -/
theorem wp.seq {R : β → S → Prop}
    (hp : p.wp h X Q s) (hf : ∀ a t, Q a t → (f a).wp h X R t) :
    (p.bind f).wp h X R s := (wp_bind p f R s).mpr (hp.imp hf)

theorem wp.of_run_ok
    (hp : p.wp h X Q s) (hr : p.run h s = .ok (a,t)) : Q a t := by
  induction p generalizing s with
  | ret b => cases hr; exact hp
  | op o k ih =>
    simp only [wp_op] at hp
    simp only [run] at hr
    cases he : h o s with
    | error e => simp [he] at hr
    | ok q => simp only [he] at hp hr; exact ih q.1 hp hr

theorem wp.of_run_error {e : E}
    (hp : p.wp h X Q s) (hr : p.run h s = .error e) : X e := by
  induction p generalizing s with
  | ret b => simp at hr
  | op o k ih =>
    simp only [wp_op] at hp
    simp only [run] at hr
    cases he : h o s with
    | error e' => simp only [he] at hp hr; cases hr; exact hp
    | ok q => simp only [he] at hp hr; exact ih q.1 hp hr

/-- A run ends in one of the two ways the precondition allows. -/
theorem wp.run (hp : p.wp h X Q s) :
    (∃ a t, p.run h s = .ok (a,t) ∧ Q a t) ∨ ∃ e, p.run h s = .error e ∧ X e := by
  cases hr : p.run h s with
  | ok q => exact .inl ⟨q.1,q.2,rfl,hp.of_run_ok hr⟩
  | error e => exact .inr ⟨e,rfl,hp.of_run_error hr⟩

theorem wp_of_run (hr : p.run h s = .ok (a,t)) (hQ : Q a t) :
    p.wp h X Q s := by
  induction p generalizing s with
  | ret b => cases hr; exact hQ
  | op o k ih =>
    simp only [run] at hr
    simp only [wp_op]
    cases he : h o s with
    | error e => simp [he] at hr
    | ok q => simp only [he] at hr ⊢; exact ih q.1 hr

theorem wp_of_forall (hX : ∀ e, X e) (hQ : ∀ a t, Q a t) (p : Prog Op Res α) (s : S) : p.wp h X Q s := by
  induction p generalizing s with
  | ret b => exact hQ b s
  | op o k ih =>
    simp only [wp_op]
    cases h o s with
    | error e => exact hX e
    | ok q => exact ih q.1 q.2

theorem wp_bind_any {R : β → S → Prop} (hX : ∀ e, X e)
    (hf : ∀ a t, (f a).wp h X R t) : (p.bind f).wp h X R s :=
  wp.seq (wp_of_forall (Q := fun _ _ => True) hX (fun _ _ => trivial) p s) fun a t _ => hf a t

-- from here on only the rules see through a program's precondition
attribute [irreducible] wp

/-- `t` is a state in which `p`, started in `s`, may be interrupted: before any of its
operations, or after the last one. -/
inductive Interrupted (h : Handler Op Res S E) : Prog Op Res α → S → S → Prop
  | here (p : Prog Op Res α) (s : S) : Interrupted h p s s
  | later {o : Op} {k : Res o → Prog Op Res α} {r : Res o} {s t u : S}
      (ho : h o s = .ok (r,t)) (hk : Interrupted h (k r) t u) : Interrupted h (op o k) s u

/-- As `wp`, with `C` in every state in which the program may be interrupted. -/
def cwp (h : Handler Op Res S E) (X : E → Prop) (C : S → Prop) :
    Prog Op Res α → (α → S → Prop) → S → Prop
  | ret a, Q, s => C s ∧ Q a s
  | op o k, Q, s => C s ∧
    match h o s with
    | .ok (r,t) => (k r).cwp h X C Q t
    | .error e => X e

variable {C : S → Prop}

theorem cwp_op_ok {o : Op} {k : Res o → Prog Op Res α} {r : Res o}
    (ho : h o s = .ok (r,t)) : (op o k).cwp h X C Q s ↔ C s ∧ (k r).cwp h X C Q t := by
  simp only [cwp,ho]

theorem cwp.here (hp : p.cwp h X C Q s) : C s := by
  cases p with
  | ret a => exact hp.1
  | op o k => simp only [cwp] at hp; exact hp.1

theorem cwp.seq {R : β → S → Prop}
    (hp : p.cwp h X C Q s) (hf : ∀ a t, Q a t → (f a).cwp h X C R t) :
    (p.bind f).cwp h X C R s := by
  induction p generalizing s with
  | ret a => exact hf a s hp.2
  | op o k ih =>
    simp only [op_bind,cwp] at hp ⊢
    refine ⟨hp.1,?_⟩
    cases he : h o s with
    | error e => simpa only [he] using hp.2
    | ok q =>
      have hq := hp.2
      simp only [he] at hq
      exact ih q.1 hq

theorem cwp.mono {D : S → Prop}
    (hp : p.cwp h X C Q s) (hC : ∀ t, C t → D t) (hQ : ∀ a t, Q a t → R a t) :
    p.cwp h X D R s := by
  induction p generalizing s with
  | ret a => exact ⟨hC s hp.1,hQ a s hp.2⟩
  | op o k ih =>
    simp only [cwp] at hp ⊢
    refine ⟨hC s hp.1,?_⟩
    cases he : h o s with
    | error e => simpa only [he] using hp.2
    | ok q =>
      have hq := hp.2
      simp only [he] at hq
      exact ih q.1 hq

theorem cwp.interrupted
    (hp : p.cwp h X C Q s) (ht : Interrupted h p s t) : C t := by
  induction ht with
  | here p s => exact hp.here
  | later ho _ ih => exact ih ((cwp_op_ok ho).mp hp).2

theorem cwp.of_run_ok
    (hp : p.cwp h X C Q s) (hr : p.run h s = .ok (a,t)) : Q a t := by
  induction p generalizing s with
  | ret b => cases hr; exact hp.2
  | op o k ih =>
    simp only [cwp] at hp
    simp only [run] at hr
    cases he : h o s with
    | error e => simp [he] at hr
    | ok q =>
      have hq := hp.2
      simp only [he] at hq hr
      exact ih q.1 hq hr

theorem Interrupted.of_run
    (hr : p.run h s = .ok (a,t)) : Interrupted h (p.bind f) s t := by
  induction p generalizing s with
  | ret b => cases hr; exact .here _ _
  | op o k ih =>
    simp only [run] at hr
    cases he : h o s with
    | error e => simp [he] at hr
    | ok q =>
      simp only [he] at hr
      exact .later he (ih q.1 hr)

theorem cwp.returns
    (hp : p.cwp h (fun _ => False) C Q s) : ∃ a t, p.run h s = .ok (a,t) := by
  induction p generalizing s with
  | ret b => exact ⟨b,s,rfl⟩
  | op o k ih =>
    simp only [cwp] at hp
    cases he : h o s with
    | error e => exact absurd hp.2 (by simp [he])
    | ok q =>
      have hq := hp.2
      simp only [he] at hq
      simpa only [run,he] using ih q.1 hq

end Handler

end Prog

end Xv6.Library
