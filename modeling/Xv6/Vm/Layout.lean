import Xv6.Vm.Access
import Xv6.Vm.Machine

/-! # Where an address space is in memory

The pages of an address space are its trapframe, the nodes of its page table and its user pages,
each once; and what the page table maps has the shape of an address space.
-/
namespace Xv6.Vm
open Library Library.Assert

variable {ram : Ram} {n : ℕ} {M M' : ℕ → Option (BitVec 64)}

theorem Shape.congr {guard : Set ℕ} {trapframe trampoline : ℕ} (h : Shape M n guard trapframe trampoline)
    (he : ∀ v, v < 2 ^ 27 → M' v = M v) : Shape M' n guard trapframe trampoline := by
  have hroom := h.room
  rw [trapPage_eq] at hroom
  refine ⟨fun v hv => ?_,fun v h₁ h₂ h₃ h₄ => ?_,h.room,h.guarded,?_,?_⟩
  · rw [he v (by omega)]
    exact h.low v hv
  · rw [he v h₂]
    exact h.high v h₁ h₂ h₃ h₄
  · rw [he _ (by rw [trapPage_eq]; omega)]
    exact h.trapframe
  · rw [he _ (by rw [trapPage_eq]; omega)]
    exact h.trampoline

namespace Machine
variable {m : Machine} {h : Heap ℕ Page} {I : BitVec 64 → Prop} {root : ℕ} {c : ℕ → Page}

structure HasSpace (ram : Ram) (trampoline : ℕ) (m : Machine) (p : Space) (guard : Set ℕ) : Prop where
  clear : m.Clear ram p.pagetable
  leaves : Leaves ram m p.pagetable 0 (npages p.sz)
  shape : Shape (m.get 2 p.pagetable) (npages p.sz) guard p.trapframe trampoline

theorem mem_nodes_self (l pt : ℕ) : pt ∈ m.nodes l pt := by
  cases l <;> simp [nodes]

theorem nodes_of_node {P : ℕ → Prop} (hP : ∀ e, I e → P (PTE2PA e)) {l pt : ℕ} {t : PT l}
    (ht : node I l pt t h) (hm : ∀ x p, h x = some p → m.mem x = p) (hpt : P pt) :
    (∀ x, h x ≠ none → x ∈ m.nodes l pt) ∧ ∀ x ∈ m.nodes l pt, P x := by
  induction l generalizing pt h with
  | zero =>
    obtain ⟨p,hp⟩ := iSup_iff.mp ht
    obtain ⟨-,rfl⟩ := fact_mul_iff.mp hp
    refine ⟨fun x hx => ?_,fun x hx => by rwa [List.mem_singleton.mp hx]⟩
    by_contra hne
    exact hx (Heap.set_of_ne fun he => hne (he ▸ mem_nodes_self 0 x))
  | succ l ih =>
    obtain ⟨p,f,g,rfl,hg,hfg,rfl⟩ := iSup_iff.mp ht
    have hmem := hm pt p (Heap.join_left Heap.set_self)
    obtain ⟨k,hk,-,hkx⟩ := children_iff.mp hg
    have hgm : ∀ i x q, k i x = some q → m.mem x = q := fun i x q hx => by
      have hgx := (hkx x q).mpr ⟨i,hx⟩
      exact hm x q (by rw [Heap.join_comm hfg]; exact Heap.join_left hgx)
    have hkid : ∀ i, (∀ x, k i x ≠ none → x ∈ m.kidNodes l pt i) ∧ ∀ x ∈ m.kidNodes l pt i, P x := by
      intro i
      have hi := hk i
      cases hti : t.kid i with
      | none =>
        rw [hti,child,← mul_one (fact _)] at hi
        obtain ⟨hv,hone⟩ := fact_mul_iff.mp hi
        refine ⟨fun x hx => absurd (by rw [one_iff.mp hone]; rfl) hx,fun x hx => ?_⟩
        rw [kidNodes,hmem,if_neg (not_not.mpr hv)] at hx
        cases hx
      | some s =>
        rw [hti,child] at hi
        obtain ⟨⟨hv,hplain⟩,hs⟩ := fact_mul_iff.mp hi
        rw [kidNodes,hmem,if_pos hv]
        exact ih hs (hgm i) (hP _ hplain)
    refine ⟨fun x hx => ?_,fun x hx => ?_⟩
    · rw [nodes_succ,List.mem_cons,List.mem_flatMap]
      by_cases hxp : x = pt
      · exact .inl hxp
      · rw [Heap.join,Heap.single,Heap.set_of_ne hxp,Heap.empty,Option.none_or] at hx
        obtain ⟨q,hq⟩ := Option.ne_none_iff_exists'.mp hx
        obtain ⟨i,hi⟩ := (hkx x q).mp hq
        exact .inr ⟨i,List.mem_finRange i,(hkid i).1 x (by rw [hi]; exact Option.some_ne_none q)⟩
    · rw [nodes_succ,List.mem_cons,List.mem_flatMap] at hx
      rcases hx with rfl | ⟨i,-,hi⟩
      · exact hpt
      · exact (hkid i).2 x hi

/-- The nodes of a page table and the pages below `n` that it maps. -/
def pages (m : Machine) (root n : ℕ) : List ℕ := m.nodes 2 root ++ m.leafPages root 0 n

theorem Agrees.sub {f g : Heap ℕ Page} (hm : m.Agrees ram (f.join g)) : m.Agrees ram f where
  mem := fun x q hx => hm.mem x q (Heap.join_left hx)
  nodup := hm.nodup
  free := fun x hx => ⟨(hm.free x hx).1,(Heap.join_eq_none.mp (hm.free x hx).2).1⟩

structure Shows (ram : Ram) (m : Machine) (h : Heap ℕ Page) (root : ℕ) (M : ℕ → Option (BitVec 64)) (c : ℕ → Page)
    (n : ℕ) : Prop where
  clear : m.Clear ram root
  leaves : Leaves ram m root 0 n
  get : ∀ v, v < 2 ^ 27 → m.get 2 root v = M v
  content : ∀ v e, v < n → M v = some e → m.mem (PTE2PA e) = c v
  own : ∀ x, h x ≠ none ↔ x ∈ m.pages root n

theorem shows_of_held (hm : m.Agrees ram h) (hh : held I ram root M c n h) (hn : n ≤ 2 ^ 27) : Shows ram m h root M c n := by
  obtain ⟨f,g,hf,hg,hfg,rfl⟩ := hh
  obtain ⟨t,hf⟩ := iSup_iff.mp hf
  obtain ⟨hget,hf⟩ := fact_mul_iff.mp hf
  have hmf := hm.sub
  obtain ⟨htree,hnodes,hmget⟩ := of_node hf hmf.mem
  obtain ⟨hdom,-⟩ := nodes_of_node (P := fun _ => True) (fun _ _ => trivial) hf hmf.mem trivial
  have hget : ∀ v, v < 2 ^ 27 → m.get 2 root v = M v := fun v hv => by rw [hmget,hget v hv]
  obtain ⟨hpage,hinj,huser⟩ := userPages_iff (holds_le _ hg)
  have hleaf : ∀ k e, k < n → m.get 2 root (0 + k) = some e → M k = some e := fun k e hk he => by
    rwa [Nat.zero_add,hget k (by omega)] at he
  have hmem : ∀ x, x ∈ m.leafPages root 0 n ↔ g x ≠ none := by
    intro x
    rw [mem_leafPages]
    constructor
    · rintro ⟨k,e,hk,he,rfl⟩
      exact (hpage k e hk (hleaf k e hk he)).2
    · intro hx
      obtain ⟨v,e,hv,he,rfl⟩ := huser x hx
      exact ⟨v,e,hv,by rw [Nat.zero_add,hget v (by omega)]; exact he,rfl⟩
  refine ⟨⟨htree,hm.nodup,fun x hx => ⟨(hm.free x hx).1,fun hn => hnodes x hn (hmf.free x hx).2⟩⟩,
    ⟨fun k e hk he => ?_,fun k k' e e' hk hk' he he' => hinj k k' e e' hk hk' (hleaf k e hk he) (hleaf k' e' hk' he')⟩,
    hget,fun v e hv he => ?_,fun x => ?_⟩
  · obtain ⟨h₁,h₂⟩ := hpage k e hk (hleaf k e hk he)
    refine ⟨h₁,fun hn => hnodes _ hn ((hfg _).resolve_right h₂),fun hn => ?_⟩
    exact h₂ (Heap.join_eq_none.mp (hm.free _ hn).2).2
  · refine hm.mem _ _ ?_
    rw [Heap.join_comm hfg]
    exact Heap.join_left (holds_content hg hv he)
  · rw [pages,List.mem_append,hmem,Heap.join_ne_none]
    exact or_congr ⟨hdom x,hnodes x⟩ Iff.rfl

theorem Leaves.disjoint (hl : Leaves ram m root 0 n) : (m.nodes 2 root).Disjoint (m.leafPages root 0 n) := by
  intro x hx hx'
  obtain ⟨k,e,hk,he,rfl⟩ := mem_leafPages.mp hx'
  exact (hl.page k e hk he).2.1 hx

theorem Leaves.not_free (hl : Leaves ram m root 0 n) {x : ℕ} (hx : x ∈ m.leafPages root 0 n) : x ∉ m.freelist := by
  obtain ⟨k,e,hk,he,rfl⟩ := mem_leafPages.mp hx
  exact (hl.page k e hk he).2.2

theorem Clear.not_free (hm : m.Clear ram root) (hl : Leaves ram m root 0 n) {x : ℕ} (hx : x ∈ m.pages root n) :
    x ∉ m.freelist :=
  fun hf => (List.mem_append.mp hx).elim (hm.free x hf).2 fun hx => hl.not_free hx hf

def spacePages (m : Machine) (p : Space) : List ℕ :=
  p.trapframe :: (m.nodes 2 p.pagetable ++ m.leafPages p.pagetable 0 (npages p.sz))

section Space
variable {trampoline : ℕ} {p : Space} {guard : Set ℕ}

theorem Leaves.nodup {v : ℕ} (h : Leaves ram m root v n) : (m.leafPages root v n).Nodup := by
  rw [leafPages,List.Nodup,List.pairwise_filterMap]
  refine List.nodup_range.pairwise_of_forall_ne fun k hk k' hk' hne x hx x' hx' hxx => hne ?_
  rw [Option.map_eq_some_iff] at hx hx'
  obtain ⟨e,he,rfl⟩ := hx
  obtain ⟨e',he',rfl⟩ := hx'
  exact h.inj k k' e e' (List.mem_range.mp hk) (List.mem_range.mp hk') he he' hxx

theorem of_space (hm : m.Agrees ram h) (hh : space ram trampoline guard p h) :
    m.HasSpace ram trampoline p guard ∧ (m.spacePages p).Nodup ∧ (∀ x ∈ m.spacePages p, ram.Has x) ∧
      ∀ x, h x ≠ none ↔ x ∈ m.spacePages p := by
  obtain ⟨f,g,hf,hg,hfg,rfl⟩ := hh
  obtain ⟨htf,hg⟩ := fact_mul_iff.mp hg
  obtain ⟨q,rfl⟩ := iSup_iff.mp hg
  obtain ⟨M,hf⟩ := iSup_iff.mp hf
  obtain ⟨⟨hM,hpt⟩,hf⟩ := fact_mul_iff.mp hf
  have hroom := hM.room
  rw [trapPage_eq] at hroom
  have hparts : ∃ c, held (plain ram) ram p.pagetable M c (npages p.sz) f := by
    rw [region,userPages_eq,Quantale.mul_iSup_distrib] at hf
    exact iSup_iff.mp hf
  obtain ⟨c,hheld⟩ := hparts
  have hs := shows_of_held hm.sub hheld (by omega)
  have hhas : ∀ x ∈ m.nodes 2 p.pagetable, ram.Has x := by
    obtain ⟨f₁,f₂,h₁,-,-,rfl⟩ := hheld
    obtain ⟨t,h₁⟩ := iSup_iff.mp h₁
    exact (nodes_of_node (fun _ h => h.2) (fact_mul_iff.mp h₁).2 hm.sub.sub.mem hpt).2
  refine ⟨⟨hs.clear,hs.leaves,hM.congr hs.get⟩,?_,?_,fun x => ?_⟩
  · rw [spacePages,List.nodup_cons,← pages,← hs.own]
    refine ⟨fun hne => hne (hfg.symm.none_of_ne (by simp [Heap.single])),?_⟩
    exact List.nodup_append'.mpr ⟨hs.clear.tree,hs.leaves.nodup,hs.leaves.disjoint⟩
  · intro x hx
    rw [spacePages,List.mem_cons,List.mem_append] at hx
    rcases hx with rfl | hx | hx
    · exact htf
    · exact hhas x hx
    · obtain ⟨k,e,hk,he,rfl⟩ := mem_leafPages.mp hx
      exact (hs.leaves.page k e hk he).1
  · rw [spacePages,List.mem_cons,← pages,← hs.own,Heap.join_ne_none,or_comm]
    refine or_congr ⟨fun hne => ?_,?_⟩ Iff.rfl
    · by_contra hx
      exact hne (Heap.set_of_ne hx)
    · rintro rfl
      simp [Heap.single]

end Space

end Machine

end Xv6.Vm
