import Mathlib

/-! # Exclusive ownership

Resources handed out to places that refer to them: no two places refer to the same
resource, and a resource is marked used exactly when some place refers to it.
-/
namespace Xv6.Library
open Function (update update_of_ne update_self)
variable {P B : Type} [DecidableEq P] [DecidableEq B]

structure Owned (pool : B → Prop) (used : B → Bool) (ref : P → Option B) : Prop where
  mem : ∀ p b, ref p = some b → pool b
  inj : ∀ p q b, ref p = some b → ref q = some b → p = q
  used : ∀ b, pool b → (used b = true ↔ ∃ p, ref p = some b)

namespace Owned
variable {pool : B → Prop} {used : B → Bool} {ref : P → Option B} {p : P} {b : B}

omit [DecidableEq P] [DecidableEq B] in
theorem used_of_ref (h : Owned pool used ref) (hp : ref p = some b) : used b = true :=
  (h.used b (h.mem p b hp)).mpr ⟨p,hp⟩

omit [DecidableEq P] [DecidableEq B] in
theorem ref_ne_of_free (h : Owned pool used ref) (hb : used b = false) : ref p ≠ some b := by
  intro hp
  rw [h.used_of_ref hp] at hb
  cases hb

theorem assign (h : Owned pool used ref) (hb : pool b) (hfree : used b = false) (hp : ref p = none) :
    Owned pool (update used b true) (update ref p (some b)) where
  mem := by
    intro q c hq
    by_cases he : q = p
    · subst he
      rw [update_self] at hq
      cases hq
      exact hb
    · rw [update_of_ne he] at hq
      exact h.mem q c hq
  inj := by
    intro q r c hq hr
    by_cases hqp : q = p <;> by_cases hrp : r = p
    · rw [hqp,hrp]
    · subst hqp
      rw [update_self] at hq
      rw [update_of_ne hrp] at hr
      cases hq
      exact absurd hr (h.ref_ne_of_free hfree)
    · subst hrp
      rw [update_self] at hr
      rw [update_of_ne hqp] at hq
      cases hr
      exact absurd hq (h.ref_ne_of_free hfree)
    · rw [update_of_ne hqp] at hq
      rw [update_of_ne hrp] at hr
      exact h.inj q r c hq hr
  used := by
    intro c hc
    by_cases hcb : c = b
    · subst hcb
      simp only [update_self,true_iff]
      exact ⟨p,update_self ..⟩
    · rw [update_of_ne hcb,h.used c hc]
      constructor
      · rintro ⟨q,hq⟩
        have hqp : q ≠ p := by
          rintro rfl
          rw [hp] at hq
          cases hq
        exact ⟨q,by rwa [update_of_ne hqp]⟩
      · rintro ⟨q,hq⟩
        by_cases hqp : q = p
        · subst hqp
          rw [update_self] at hq
          cases hq
          exact absurd rfl hcb
        · exact ⟨q,by rwa [update_of_ne hqp] at hq⟩

omit [DecidableEq P] [DecidableEq B] in
/-- Dropping every reference held at the places in `S` frees exactly what they refer to. -/
theorem release (h : Owned pool used ref) {S : P → Prop} {used' : B → Bool} {ref' : P → Option B}
    (href : ∀ p, ref' p = none ∧ S p ∨ ref' p = ref p ∧ ¬S p)
    (hused : ∀ b, pool b → (used' b = true ↔ used b = true ∧ ∀ p, S p → ref p ≠ some b)) :
    Owned pool used' ref' where
  mem := by
    intro p b hp
    rcases href p with ⟨hr,-⟩ | ⟨hr,-⟩
    · rw [hr] at hp
      cases hp
    · exact h.mem p b (hr ▸ hp)
  inj := by
    intro p q b hp hq
    rcases href p with ⟨hr,-⟩ | ⟨hr,-⟩
    · rw [hr] at hp
      cases hp
    · rcases href q with ⟨hr',-⟩ | ⟨hr',-⟩
      · rw [hr'] at hq
        cases hq
      · exact h.inj p q b (hr ▸ hp) (hr' ▸ hq)
  used := by
    intro b hb
    rw [hused b hb,h.used b hb]
    constructor
    · rintro ⟨⟨p,hp⟩,hS⟩
      rcases href p with ⟨-,hs⟩ | ⟨hr,-⟩
      · exact absurd hp (hS p hs)
      · exact ⟨p,hr.trans hp⟩
    · rintro ⟨p,hp⟩
      rcases href p with ⟨hr,-⟩ | ⟨hr,hs⟩
      · rw [hr] at hp
        cases hp
      · rw [hr] at hp
        refine ⟨⟨p,hp⟩,fun q hq hqb => hs ?_⟩
        rwa [h.inj p q b hp hqb]

end Owned

end Xv6.Library
