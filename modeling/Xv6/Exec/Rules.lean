import Xv6.Exec.Code
import Xv6.Vm.Access

/-! # Rules for code on both machines

Page table code is specified by the pages it owns; which pages of the machine those are is carried
along with the run, together with what has happened to all other pages since its start.
-/
namespace Xv6.Exec
open Library Library.Assert Vm

/-! ## Pages since the start of a run -/

/-- The pages `h` are owned now; compared with `m₀` and `h₀`, all other pages are where and what they
were, and none is lost. -/
structure Since (ram : Ram) (m₀ : Machine) (h₀ : Heap ℕ Page) (m : Machine) (h : Heap ℕ Page) : Prop where
  agrees : m.Agrees ram h
  kept : Machine.Kept m₀ h₀ m h
  all : ∀ x, h₀ x ≠ none ∨ x ∈ m₀.freelist → h x ≠ none ∨ x ∈ m.freelist

section Since
variable {ram : Ram} {m₀ m m' : Machine} {h₀ h h' : Heap ℕ Page}

theorem Since.refl (hm : m.Agrees ram h) : Since ram m h m h :=
  ⟨hm,⟨fun _ h₁ h₂ => ⟨h₁,h₂⟩,fun _ _ _ => rfl⟩,fun _ hx => hx⟩

theorem Since.trans (h₁ : Since ram m₀ h₀ m h) (h₂ : Since ram m h m' h') : Since ram m₀ h₀ m' h' where
  agrees := h₂.agrees
  kept := by
    refine ⟨fun x hx hf => ?_,fun x hx hf => ?_⟩
    · obtain ⟨h₃,h₄⟩ := h₁.kept.own x hx hf
      exact h₂.kept.own x h₃ h₄
    · obtain ⟨h₃,h₄⟩ := h₁.kept.own x hx hf
      rw [h₂.kept.mem x h₃ h₄,h₁.kept.mem x hx hf]
  all := fun x hx => h₂.all x (h₁.all x hx)

end Since

section Rules
variable {p : Pid} {ram : Ram} {X : KHalt → Prop} {α β : Type} {k : Kernel} {Q : β → Kernel → Prop} {f : α → KCode β}

theorem wp_fs {c : Code ℕ α} {Q : α → Kernel → Prop} : (fs c).wp (exec p ram) X Q k ↔
    c.wp (St.exec p) (fun e => X (.fs e)) (fun a s => Q a { k with fs := s }) k.fs := by
  induction c generalizing k with
  | ret a => exact (Prog.wp_ret a Q k).trans (Prog.wp_ret a (fun a s => Q a { k with fs := s }) k.fs).symm
  | op o c ih =>
    rw [fs,Prog.map,Prog.wp_op,Prog.wp_op]
    simp only [exec]
    cases St.exec p o k.fs with
    | ok x => exact ih x.1 (k := { k with fs := x.2 })
    | error e => rfl

theorem wp_vm {c : VmCode α} {Q : α → Kernel → Prop} : (vm c).wp (exec p ram) X Q k ↔
    c.wp (Machine.exec ram) (fun e => X (.vm e)) (fun a m => Q a { k with vm := m }) k.vm := by
  induction c generalizing k with
  | ret a => exact (Prog.wp_ret a Q k).trans (Prog.wp_ret a (fun a m => Q a { k with vm := m }) k.vm).symm
  | op o c ih =>
    rw [vm,Prog.map,Prog.wp_op,Prog.wp_op]
    simp only [exec]
    cases Machine.exec ram o k.vm with
    | ok x => exact ih x.1 (k := { k with vm := x.2 })
    | error e => rfl

theorem fs_seq {c : Code ℕ α} {R : α → St → Prop} (hc : c.wp (St.exec p) (fun e => X (.fs e)) R k.fs)
    (hf : ∀ a s, R a s → (f a).wp (exec p ram) X Q { k with fs := s }) : ((fs c).bind f).wp (exec p ram) X Q k :=
  (Prog.wp_bind _ _ _ _).mpr (wp_fs.mpr (hc.imp hf))

variable {m₀ : Machine} {h₀ h : Heap ℕ Page} {P F : Assert ℕ Page}

theorem vm_must {c : VmCode α} {R : α → Assert ℕ Page} (hs : Since ram m₀ h₀ k.vm h)
    (hc : P ≤ c.must (vmLocal ram fun _ => False) R) (hh : P h)
    (hf : ∀ a m h, Since ram m₀ h₀ m h → R a h → (f a).wp (exec p ram) X Q { k with vm := m }) :
    ((vm c).bind f).wp (exec p ram) X Q k := by
  rcases Machine.run_conserves hs.agrees (hc h hh) with ⟨a,m,h',hr,hq,hag,hkept,hall⟩ | ⟨q,-,hq⟩
  · exact (Prog.wp_bind _ _ _ _).mpr (wp_vm.mpr (Prog.wp_of_run hr (hf a m h' (hs.trans ⟨hag,hkept,hall⟩) hq)))
  · exact hq.elim

end Rules

end Xv6.Exec
