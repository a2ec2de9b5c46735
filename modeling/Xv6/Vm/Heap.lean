import Xv6.Library.Sep
import Xv6.Vm.Code

/-! # The pages a process owns

`kalloc` fails, or hands out any page that the caller does not own yet; so what is proved here
holds whoever else allocates and frees in between.
-/
namespace Xv6.Vm
open Library Library.Assert

/-- `[PGROUNDUP(end), PHYSTOP)` -/
structure Ram where
  lo : ℕ
  hi : ℕ
  pos : 0 < lo
  top : hi ≤ 2 ^ 56

def Ram.Has (ram : Ram) (pa : ℕ) : Prop := pa % PGSIZE = 0 ∧ ram.lo ≤ pa ∧ pa < ram.hi

def fill (c : Byte) : Page := fun _ => c

def vmSafe (ram : Ram) (X : VmPanic → Prop) : VmOp → Heap ℕ Page → Prop
  | .kalloc, _ => True
  | .kfree pa, h => ram.Has pa ∧ h pa ≠ none
  | .peek pa off n, h => h pa ≠ none ∧ off + n ≤ PGSIZE
  | .poke pa off bs, h => h pa ≠ none ∧ off + bs.length ≤ PGSIZE
  | .panic p, _ => X p

def vmStep (ram : Ram) : (o : VmOp) → Heap ℕ Page → o.Res → Heap ℕ Page → Prop
  | .kalloc, h, r, h' => (r = none ∧ h' = h) ∨
      ∃ pa, r = some pa ∧ ram.Has pa ∧ h pa = none ∧ h' = h.set pa (some (fill 5))
  | .kfree pa, h, _, h' => h' = h.set pa none
  | .peek pa off n, h, r, h' => (∃ p, h pa = some p ∧ r = p.slice off n) ∧ h' = h
  | .poke pa off bs, h, _, h' => ∃ p, h pa = some p ∧ h' = h.set pa (some (p.splice off bs))
  | .panic _, _, _, _ => False

def vmLocal (ram : Ram) (X : VmPanic → Prop) : Local VmOp VmOp.Res ℕ Page where
  safe := vmSafe ram X
  step := vmStep ram
  safe_join := by
    intro o f g hs ha
    cases o with
    | kalloc => trivial
    | kfree pa => exact ⟨hs.1,by rw [Heap.join_of_ne hs.2]; exact hs.2⟩
    | peek pa off n => exact ⟨by rw [Heap.join_of_ne hs.1]; exact hs.1,hs.2⟩
    | poke pa off bs => exact ⟨by rw [Heap.join_of_ne hs.1]; exact hs.1,hs.2⟩
    | panic p => exact hs
  step_join := by
    intro o f g r h hs ha hstep
    cases o with
    | kalloc =>
      rcases hstep with ⟨rfl,rfl⟩ | ⟨pa,rfl,hram,hnone,rfl⟩
      · exact ⟨f,.inl ⟨rfl,rfl⟩,ha,rfl⟩
      · obtain ⟨hf,hg⟩ := Heap.join_eq_none.mp hnone
        exact ⟨_,.inr ⟨pa,rfl,hram,hf,rfl⟩,ha.set hg,Heap.set_join hg⟩
    | kfree pa =>
      have hg := ha.none_of_ne hs.2
      exact ⟨_,rfl,ha.set hg,hstep.trans (Heap.set_join hg)⟩
    | peek pa off n =>
      obtain ⟨⟨p,hp,hr⟩,rfl⟩ := hstep
      rw [Heap.join_of_ne hs.1] at hp
      exact ⟨f,⟨⟨p,hp,hr⟩,rfl⟩,ha,rfl⟩
    | poke pa off bs =>
      obtain ⟨p,hp,rfl⟩ := hstep
      have hg := ha.none_of_ne hs.1
      rw [Heap.join_of_ne hs.1] at hp
      exact ⟨_,⟨p,hp,rfl⟩,ha.set hg,Heap.set_join hg⟩
    | panic p => exact hstep.elim

/-! ## Rules for the operations -/

section Rules
variable {ram : Ram} {X : VmPanic → Prop} {α : Type} {R : α → Assert ℕ Page} {F : Assert ℕ Page} {pa : ℕ} {p : Page}

theorem kalloc_bind {k : Option ℕ → VmCode α} (hnone : F ≤ (k none).must (vmLocal ram X) R)
    (hsome : ∀ pa, ram.Has pa → cell pa (fill 5) * F ≤ (k (some pa)).must (vmLocal ram X) R) :
    F ≤ (kalloc.bind k).must (vmLocal ram X) R := by
  intro h hF
  refine Prog.must_op_iff.mpr ⟨trivial,fun r h' hstep => ?_⟩
  rcases hstep with ⟨rfl,rfl⟩ | ⟨pa,rfl,hram,hpa,rfl⟩
  · exact hnone _ hF
  · refine hsome pa hram _ ⟨_,h,rfl,hF,Heap.empty_apart.set hpa,?_⟩
    rw [Heap.single,← Heap.set_join hpa,Heap.empty_join]

private theorem cell_split {h : Heap ℕ Page} (hF : (cell pa p * F : Assert ℕ Page) h) :
    h pa = some p ∧ ∃ g, F g ∧ g pa = none ∧ ∀ v, h.set pa v = (Heap.empty.set pa v).join g := by
  obtain ⟨f,g,rfl,hg,ha,rfl⟩ := hF
  have hpa : g pa = none := ha.none_of_ne (by simp [Heap.single])
  refine ⟨Heap.join_left (by simp [Heap.single]),g,hg,hpa,fun v => ?_⟩
  rw [Heap.set_join hpa,Heap.single,Heap.set_set]

theorem kfree_bind {k : Unit → VmCode α} (hram : ram.Has pa) (hk : F ≤ (k ()).must (vmLocal ram X) R) :
    cell pa p * F ≤ ((kfree pa).bind k).must (vmLocal ram X) R := by
  intro h hF
  obtain ⟨hp,g,hg,hpa,hset⟩ := cell_split hF
  refine Prog.must_op_iff.mpr ⟨⟨hram,by simp [hp]⟩,fun r h' hstep => ?_⟩
  have he : h' = g := by
    rw [show h' = h.set pa none from hstep,hset,Heap.set_eq_self (v := none) rfl,Heap.empty_join]
  exact he ▸ hk _ hg

theorem peek_bind {k : List Byte → VmCode α} {off n : ℕ} (hn : off + n ≤ PGSIZE)
    (hk : cell pa p * F ≤ (k (p.slice off n)).must (vmLocal ram X) R) :
    cell pa p * F ≤ ((peek pa off n).bind k).must (vmLocal ram X) R := by
  intro h hF
  obtain ⟨hp,-⟩ := cell_split hF
  refine Prog.must_op_iff.mpr ⟨⟨by simp [hp],hn⟩,fun r h' hstep => ?_⟩
  obtain ⟨⟨q,hq,rfl⟩,rfl⟩ := hstep
  obtain rfl := Option.some.inj (hp.symm.trans hq)
  exact hk _ hF

theorem peek_exactly_bind {f : Heap ℕ Page} {k : List Byte → VmCode α} {off n : ℕ} (hf : f pa = some p) (hn : off + n ≤ PGSIZE)
    (hk : exactly f * F ≤ (k (p.slice off n)).must (vmLocal ram X) R) :
    exactly f * F ≤ ((peek pa off n).bind k).must (vmLocal ram X) R := by
  rintro h ⟨_,g,rfl,hg,ha,rfl⟩
  have hp := Heap.join_left (g := g) hf
  refine Prog.must_op_iff.mpr ⟨⟨by simp [hp],hn⟩,fun r h' hstep => ?_⟩
  obtain ⟨⟨q,hq,rfl⟩,rfl⟩ := hstep
  obtain rfl := Option.some.inj (hp.symm.trans hq)
  exact hk _ ⟨_,g,rfl,hg,ha,rfl⟩

theorem poke_bind {k : Unit → VmCode α} {off : ℕ} {bs : List Byte} (hn : off + bs.length ≤ PGSIZE)
    (hk : cell pa (p.splice off bs) * F ≤ (k ()).must (vmLocal ram X) R) :
    cell pa p * F ≤ ((poke pa off bs).bind k).must (vmLocal ram X) R := by
  intro h hF
  obtain ⟨hp,g,hg,hpa,hset⟩ := cell_split hF
  refine Prog.must_op_iff.mpr ⟨⟨by simp [hp],hn⟩,fun r h' hstep => ?_⟩
  obtain ⟨q,hq,rfl⟩ := hstep
  obtain rfl := Option.some.inj (hp.symm.trans hq)
  exact hk _ ⟨_,g,rfl,hg,Heap.empty_apart.set hpa,hset _⟩

theorem panic_le {q : VmPanic} (hq : X q) : F ≤ (panic q : VmCode α).must (vmLocal ram X) R :=
  fun _ _ => Prog.must_op_iff.mpr ⟨hq,fun _ _ hstep => hstep.elim⟩

end Rules

end Xv6.Vm
