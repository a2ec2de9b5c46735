import Xv6.Vm.Map

/-! # One process at a time on physical memory

The machine on which page table code runs alone: the pages and the free list. What a page table
maps, and its node pages, are read off the memory.
-/
namespace Xv6.Vm
open Library Library.Assert
open Function (update update_of_ne)

structure Machine where
  mem : ℕ → Page
  freelist : List ℕ

inductive Stop
  | panic (p : VmPanic)
  | kfree
  | beyond

namespace Machine

def set (m : Machine) (pa : ℕ) (p : Page) : Machine := { m with mem := update m.mem pa p }

def exec (ram : Ram) : Prog.Handler VmOp VmOp.Res Machine Stop
  | .kalloc, m =>
    match m.freelist with
    | [] => .ok (none,m)
    | pa :: l => .ok (some pa,{ m.set pa (fill 5) with freelist := l })
  | .kfree pa, m =>
    if pa % PGSIZE ≠ 0 ∨ pa < ram.lo ∨ pa ≥ ram.hi then .error .kfree
    else .ok ((),{ m.set pa (fill 1) with freelist := pa :: m.freelist })
  | .peek pa off n, m => if off + n ≤ PGSIZE then .ok ((m.mem pa).slice off n,m) else .error .beyond
  | .poke pa off bs, m =>
    if off + bs.length ≤ PGSIZE then .ok ((),m.set pa ((m.mem pa).splice off bs)) else .error .beyond
  | .panic p, _ => .error (.panic p)

/-- The owned pages have their content, and the free list has only other pages. -/
structure Agrees (ram : Ram) (m : Machine) (h : Heap ℕ Page) : Prop where
  mem : ∀ x p, h x = some p → m.mem x = p
  nodup : m.freelist.Nodup
  free : ∀ x ∈ m.freelist, ram.Has x ∧ h x = none

structure Kept (m₀ : Machine) (h₀ : Heap ℕ Page) (m : Machine) (h : Heap ℕ Page) : Prop where
  own : ∀ x, h₀ x = none → x ∉ m₀.freelist → h x = none ∧ x ∉ m.freelist
  mem : ∀ x, h₀ x = none → x ∉ m₀.freelist → m.mem x = m₀.mem x

variable {ram : Ram} {X : VmPanic → Prop} {m m₀ : Machine} {h h₀ : Heap ℕ Page}

theorem exec_sim (o : VmOp) (hrel : m.Agrees ram h ∧ Kept m₀ h₀ m h) (hsafe : (vmLocal ram X).safe o h) :
    (∃ r m' h', exec ram o m = .ok (r,m') ∧ (vmLocal ram X).step o h r h' ∧ m'.Agrees ram h' ∧ Kept m₀ h₀ m' h') ∨
      ∃ e, exec ram o m = .error e ∧ ∃ q, e = .panic q ∧ X q := by
  obtain ⟨⟨hmem,hnodup,hfree⟩,hown,hkept⟩ := hrel
  cases o with
  | kalloc =>
    refine .inl ?_
    cases hl : m.freelist with
    | nil =>
      exact ⟨none,m,h,by simp only [exec,hl],.inl ⟨rfl,rfl⟩,⟨hmem,hnodup,hfree⟩,hown,hkept⟩
    | cons pa l =>
      rw [hl] at hnodup hfree hown
      have hpa := hfree pa (by simp)
      refine ⟨some pa,{ m.set pa (fill 5) with freelist := l },h.set pa (some (fill 5)),by simp only [exec,hl],
        .inr ⟨pa,rfl,hpa.1,hpa.2,rfl⟩,⟨?_,(List.nodup_cons.mp hnodup).2,?_⟩,?_,?_⟩
      · intro x p hx
        by_cases hxp : x = pa
        · subst hxp
          simpa [Machine.set] using hx
        · rw [Heap.set_of_ne hxp] at hx
          simpa [Machine.set,update_of_ne hxp] using hmem x p hx
      · intro x hx
        have hxp : x ≠ pa := fun he => (List.nodup_cons.mp hnodup).1 (he ▸ hx)
        rw [Heap.set_of_ne hxp]
        exact hfree x (List.mem_cons_of_mem _ hx)
      · intro x hx hx'
        obtain ⟨h₁,h₂⟩ := hown x hx hx'
        simp only [List.mem_cons,not_or] at h₂
        exact ⟨by rw [Heap.set_of_ne h₂.1]; exact h₁,h₂.2⟩
      · intro x hx hx'
        have h₂ := (hown x hx hx').2
        simp only [List.mem_cons,not_or] at h₂
        simpa [Machine.set,update_of_ne h₂.1] using hkept x hx hx'
  | kfree pa =>
    obtain ⟨hram,hpa⟩ := hsafe
    refine .inl ⟨(),{ m.set pa (fill 1) with freelist := pa :: m.freelist },h.set pa none,?_,rfl,⟨?_,?_,?_⟩,?_,?_⟩
    · simp only [exec]
      rw [if_neg]
      simp only [Ram.Has] at hram
      omega
    · intro x p hx
      by_cases hxp : x = pa
      · subst hxp
        simp at hx
      · rw [Heap.set_of_ne hxp] at hx
        simpa [Machine.set,update_of_ne hxp] using hmem x p hx
    · exact List.nodup_cons.mpr ⟨fun hx => hpa (hfree pa hx).2,hnodup⟩
    · intro x hx
      rcases List.mem_cons.mp hx with rfl | hx
      · exact ⟨hram,Heap.set_self⟩
      · have hxp : x ≠ pa := fun he => hpa (he ▸ (hfree x hx).2)
        rw [Heap.set_of_ne hxp]
        exact hfree x hx
    · intro x hx hx'
      obtain ⟨h₁,h₂⟩ := hown x hx hx'
      have hxp : x ≠ pa := fun he => hpa (he ▸ h₁)
      exact ⟨by rw [Heap.set_of_ne hxp]; exact h₁,by simp [hxp,h₂]⟩
    · intro x hx hx'
      have hxp : x ≠ pa := fun he => hpa (he ▸ (hown x hx hx').1)
      simpa [Machine.set,update_of_ne hxp] using hkept x hx hx'
  | peek pa off n =>
    obtain ⟨p,hp⟩ := Option.ne_none_iff_exists'.mp hsafe.1
    refine .inl ⟨(m.mem pa).slice off n,m,h,by simp only [exec,if_pos hsafe.2],⟨⟨p,hp,?_⟩,rfl⟩,
      ⟨hmem,hnodup,hfree⟩,hown,hkept⟩
    rw [hmem pa p hp]
  | poke pa off bs =>
    obtain ⟨p,hp⟩ := Option.ne_none_iff_exists'.mp hsafe.1
    refine .inl ⟨(),m.set pa ((m.mem pa).splice off bs),h.set pa (some (p.splice off bs)),
      by simp only [exec,if_pos hsafe.2],⟨p,hp,rfl⟩,⟨?_,hnodup,?_⟩,?_,?_⟩
    · intro x q hx
      by_cases hxp : x = pa
      · subst hxp
        rw [Heap.set_self] at hx
        simpa [Machine.set,hmem x p hp] using hx
      · rw [Heap.set_of_ne hxp] at hx
        simpa [Machine.set,update_of_ne hxp] using hmem x q hx
    · intro x hx
      have hxp : x ≠ pa := fun he => hsafe.1 (he ▸ (hfree x hx).2)
      rw [Heap.set_of_ne hxp]
      exact hfree x hx
    · intro x hx hx'
      obtain ⟨h₁,h₂⟩ := hown x hx hx'
      have hxp : x ≠ pa := fun he => hsafe.1 (he ▸ h₁)
      exact ⟨by rw [Heap.set_of_ne hxp]; exact h₁,h₂⟩
    · intro x hx hx'
      have hxp : x ≠ pa := fun he => hsafe.1 (he ▸ (hown x hx hx').1)
      simpa [Machine.set,update_of_ne hxp] using hkept x hx hx'
  | panic q => exact .inr ⟨.panic q,rfl,q,rfl,hsafe⟩

theorem exec_conserves {o : VmOp} {r : o.Res} {m' : Machine} {h' : Heap ℕ Page} (he : exec ram o m = .ok (r,m'))
    (hs : (vmLocal ram X).step o h r h') {x : ℕ} (hx : h x ≠ none ∨ x ∈ m.freelist) : h' x ≠ none ∨ x ∈ m'.freelist := by
  cases o with
  | kalloc =>
    cases hl : m.freelist with
    | nil =>
      simp only [exec,hl] at he
      cases he
      rcases hs with ⟨-,rfl⟩ | ⟨pa,hr,-⟩
      · rwa [hl] at *
      · cases hr
    | cons pa l =>
      simp only [exec,hl] at he
      cases he
      rcases hs with ⟨hr,-⟩ | ⟨pa',hr,-,-,rfl⟩
      · cases hr
      · cases hr
        by_cases hxp : x = pa
        · exact .inl (by rw [hxp,Heap.set_self]; exact Option.some_ne_none _)
        · rw [Heap.set_of_ne hxp]
          exact hx.imp id fun h => (List.mem_cons.mp (hl ▸ h)).resolve_left hxp
  | kfree pa =>
    simp only [exec] at he
    split at he
    · cases he
    · cases he
      obtain rfl : h' = h.set pa none := hs
      by_cases hxp : x = pa
      · exact .inr (hxp ▸ List.mem_cons_self)
      · rw [Heap.set_of_ne hxp]
        exact hx.imp id (List.mem_cons_of_mem _)
  | peek pa off n =>
    simp only [exec] at he
    split at he
    · cases he
      rwa [hs.2]
    · cases he
  | poke pa off bs =>
    simp only [exec] at he
    split at he
    · cases he
      obtain ⟨p,-,rfl⟩ := hs
      by_cases hxp : x = pa
      · exact .inl (by rw [hxp,Heap.set_self]; exact Option.some_ne_none _)
      · rwa [Heap.set_of_ne hxp]
    · cases he
  | panic q => exact hs.elim

theorem run_conserves {α : Type} {p : VmCode α} {Q : α → Assert ℕ Page} (hm : m.Agrees ram h)
    (hp : p.must (vmLocal ram X) Q h) :
    (∃ a m' h', p.run (exec ram) m = .ok (a,m') ∧ Q a h' ∧ m'.Agrees ram h' ∧ Kept m h m' h' ∧
        ∀ x, h x ≠ none ∨ x ∈ m.freelist → h' x ≠ none ∨ x ∈ m'.freelist) ∨
      ∃ q, p.run (exec ram) m = .error (.panic q) ∧ X q := by
  have hself : Kept m h m h := ⟨fun x h₁ h₂ => ⟨h₁,h₂⟩,fun _ _ _ => rfl⟩
  have hsim : ∀ (o : VmOp) (s : Machine) (k : Heap ℕ Page),
      ((s.Agrees ram k ∧ Kept m h s k) ∧ ∀ x, h x ≠ none ∨ x ∈ m.freelist → k x ≠ none ∨ x ∈ s.freelist) →
      (vmLocal ram X).safe o k →
      (∃ r s' k', exec ram o s = .ok (r,s') ∧ (vmLocal ram X).step o k r k' ∧ (s'.Agrees ram k' ∧ Kept m h s' k') ∧
        ∀ x, h x ≠ none ∨ x ∈ m.freelist → k' x ≠ none ∨ x ∈ s'.freelist) ∨
      ∃ e, exec ram o s = .error e ∧ ∃ q, e = .panic q ∧ X q := by
    rintro o s k ⟨hrel,hall⟩ hsafe
    refine (exec_sim o hrel hsafe).imp_left ?_
    rintro ⟨r,s',k',he,hs,hrel'⟩
    exact ⟨r,s',k',he,hs,hrel',fun x hx => exec_conserves he hs (hall x hx)⟩
  rcases Prog.must_run hsim ⟨⟨hm,hself⟩,fun _ hx => hx⟩ hp with ⟨a,m',h',hr,hq,⟨hag,hkept⟩,hall⟩ | ⟨e,hr,q,rfl,hq⟩
  · exact .inl ⟨a,m',h',hr,hq,hag,hkept,hall⟩
  · exact .inr ⟨q,hr,hq⟩

theorem run_of_must {α : Type} {p : VmCode α} {Q : α → Assert ℕ Page} (hm : m.Agrees ram h)
    (hp : p.must (vmLocal ram X) Q h) :
    (∃ a m' h', p.run (exec ram) m = .ok (a,m') ∧ Q a h' ∧ m'.Agrees ram h' ∧ Kept m h m' h') ∨
      ∃ q, p.run (exec ram) m = .error (.panic q) ∧ X q := by
  refine (run_conserves hm hp).imp_left ?_
  rintro ⟨a,m',h',hr,hq,hag,hkept,-⟩
  exact ⟨a,m',h',hr,hq,hag,hkept⟩

/-! ## Page tables in memory -/

/-- The valid level-0 entry for a virtual page, found from a node `l` levels up. -/
def get (m : Machine) : ℕ → ℕ → ℕ → Option (BitVec 64)
  | 0, pagetable, v => valid (Page.pte (m.mem pagetable) (px 0 v))
  | l + 1, pagetable, v =>
    let e := Page.pte (m.mem pagetable) (px (l + 1) v)
    if e &&& PTE_V ≠ 0 then m.get l (PTE2PA e) v else none

def nodes (m : Machine) : ℕ → ℕ → List ℕ
  | 0, pagetable => [pagetable]
  | l + 1, pagetable => pagetable :: (List.finRange 512).flatMap fun i =>
    let e := Page.pte (m.mem pagetable) i
    if e &&& PTE_V ≠ 0 then m.nodes l (PTE2PA e) else []

def only (m : Machine) (l : List ℕ) : Heap ℕ Page := fun x => if x ∈ l then some (m.mem x) else none

def tree (m : Machine) : (l : ℕ) → ℕ → PT l
  | 0, pagetable => (fun i => Page.pte (m.mem pagetable) i : Fin 512 → BitVec 64)
  | l + 1, pagetable => (fun i =>
    let e := Page.pte (m.mem pagetable) i
    if e &&& PTE_V ≠ 0 then some (m.tree l (PTE2PA e)) else none : Fin 512 → Option (PT l))

theorem kid_tree (m : Machine) (l pt : ℕ) (i : Fin 512) : (m.tree (l + 1) pt).kid i =
    if Page.pte (m.mem pt) i &&& PTE_V ≠ 0 then some (m.tree l (PTE2PA (Page.pte (m.mem pt) i))) else none := rfl

theorem get_tree (m : Machine) (l pt v : ℕ) : PT.get l (m.tree l pt) v = m.get l pt v := by
  induction l generalizing pt with
  | zero => rfl
  | succ l ih =>
    rw [PT.get,kid_tree,get]
    split
    · exact ih _
    · rfl

def kidNodes (m : Machine) (l pt : ℕ) (i : Fin 512) : List ℕ :=
  if Page.pte (m.mem pt) i &&& PTE_V ≠ 0 then m.nodes l (PTE2PA (Page.pte (m.mem pt) i)) else []

theorem nodes_succ (m : Machine) (l pt : ℕ) :
    m.nodes (l + 1) pt = pt :: (List.finRange 512).flatMap (m.kidNodes l pt) := rfl

theorem nodup_nodes_succ {m : Machine} {l pt : ℕ} : (m.nodes (l + 1) pt).Nodup ↔
    (∀ i, pt ∉ m.kidNodes l pt i) ∧ (∀ i, (m.kidNodes l pt i).Nodup) ∧
      ∀ i j, i ≠ j → (m.kidNodes l pt i).Disjoint (m.kidNodes l pt j) := by
  rw [nodes_succ,List.nodup_cons,List.nodup_flatMap]
  simp only [List.mem_flatMap,List.mem_finRange,true_and,not_exists,forall_const]
  refine and_congr_right fun _ => and_congr_right fun _ => ?_
  have : Std.Symm (Function.onFun List.Disjoint (m.kidNodes l pt)) := ⟨fun _ _ h => h.symm⟩
  constructor
  · intro h i j hij
    exact h.forall (List.mem_finRange i) (List.mem_finRange j) hij
  · intro h
    exact (List.nodup_finRange 512).pairwise_of_forall_ne fun i _ j _ hij => h i j hij

theorem only_eq_some {m : Machine} {L : List ℕ} {x : ℕ} {p : Page} : m.only L x = some p ↔ x ∈ L ∧ m.mem x = p := by
  by_cases hx : x ∈ L <;> simp [only,hx]

theorem node_tree {m : Machine} {l pt : ℕ} (h : (m.nodes l pt).Nodup) :
    node (fun _ => True) l pt (m.tree l pt) (m.only (m.nodes l pt)) := by
  induction l generalizing pt with
  | zero =>
    refine iSup_iff.mpr ⟨m.mem pt,fact_mul_iff.mpr ⟨fun _ => rfl,?_⟩⟩
    funext x
    by_cases hx : x = pt <;> simp [only,nodes,Heap.single,Heap.set,Heap.empty,hx]
  | succ l ih =>
    obtain ⟨hroot,heach,hapart⟩ := nodup_nodes_succ.mp h
    refine iSup_iff.mpr ⟨m.mem pt,Heap.single pt (m.mem pt),
      m.only ((List.finRange 512).flatMap (m.kidNodes l pt)),rfl,?_,?_,?_⟩
    · refine children_iff.mpr ⟨fun i => m.only (m.kidNodes l pt i),fun i => ?_,fun i j hij x => ?_,fun x p => ?_⟩
      · have hi := heach i
        rw [kid_tree]
        simp only [kidNodes] at hi ⊢
        split
        · rename_i hv
          rw [if_pos hv] at hi
          exact fact_mul_iff.mpr ⟨⟨hv,trivial⟩,ih hi⟩
        · rename_i hv
          rw [child,fact_true (not_not.mp hv),one_iff]
          funext x
          simp [only,Heap.empty]
      · by_cases hx : x ∈ m.kidNodes l pt i
        · exact .inr (if_neg (hapart i j hij hx))
        · exact .inl (if_neg hx)
      · simp [only_eq_some]
    · intro x
      by_cases hx : x = pt
      · refine .inr (if_neg ?_)
        subst hx
        simpa using hroot
      · exact .inl (Heap.set_of_ne hx)
    · funext x
      by_cases hx : x = pt
      · simp [only,nodes_succ,Heap.join,Heap.single,hx]
      · simp [only,nodes_succ,Heap.join,Heap.single,Heap.set_of_ne hx,Heap.empty,hx]

theorem of_node {I : BitVec 64 → Prop} {m : Machine} {l pt : ℕ} {t : PT l} {h : Heap ℕ Page} (ht : node I l pt t h)
    (hm : ∀ x p, h x = some p → m.mem x = p) :
    (m.nodes l pt).Nodup ∧ (∀ x ∈ m.nodes l pt, h x ≠ none) ∧ m.get l pt = PT.get l t := by
  induction l generalizing pt h with
  | zero =>
    obtain ⟨p,hp⟩ := iSup_iff.mp ht
    obtain ⟨hpte,rfl⟩ := fact_mul_iff.mp hp
    have hmem := hm pt p Heap.set_self
    refine ⟨List.nodup_singleton pt,fun x hx => ?_,?_⟩
    · rw [List.mem_singleton.mp hx]
      simp [Heap.single]
    · funext v
      rw [get,hmem,hpte]
      rfl
  | succ l ih =>
    obtain ⟨p,f,g,rfl,hg,hfg,rfl⟩ := iSup_iff.mp ht
    have hmem := hm pt p (Heap.join_left Heap.set_self)
    obtain ⟨k,hk,hkapart,hkx⟩ := children_iff.mp hg
    have hgm : ∀ i x q, k i x = some q → m.mem x = q := fun i x q hx => by
      have hgx := (hkx x q).mpr ⟨i,hx⟩
      exact hm x q (by rw [Heap.join_comm hfg]; exact Heap.join_left hgx)
    have hkid : ∀ i, (m.kidNodes l pt i).Nodup ∧ (∀ x ∈ m.kidNodes l pt i, k i x ≠ none) ∧
        ∀ v, px (l + 1) v = i → m.get (l + 1) pt v = PT.get (l + 1) t v := by
      intro i
      have hi := hk i
      cases hti : t.kid i with
      | none =>
        rw [hti,child] at hi
        have hv : Page.pte p i &&& PTE_V = 0 := by
          rw [← mul_one (fact _)] at hi
          exact (fact_mul_iff.mp hi).1
        refine ⟨by simp [kidNodes,hmem,hv],by simp [kidNodes,hmem,hv],fun v hvi => ?_⟩
        rw [get,PT.get,hvi,hti,hmem]
        exact if_neg (not_not.mpr hv)
      | some s =>
        rw [hti,child] at hi
        obtain ⟨⟨hv,-⟩,hs⟩ := fact_mul_iff.mp hi
        obtain ⟨h₁,h₂,h₃⟩ := ih hs (hgm i)
        have he : m.kidNodes l pt i = m.nodes l (PTE2PA (Page.pte p i)) := by rw [kidNodes,hmem,if_pos hv]
        refine ⟨he ▸ h₁,he ▸ h₂,fun v hvi => ?_⟩
        rw [get,PT.get,hvi,hti,hmem,Option.bind_some,← h₃]
        exact if_pos hv
    have hin : ∀ i x, x ∈ m.kidNodes l pt i → g x ≠ none := fun i x hx => by
      obtain ⟨q,hq⟩ := Option.ne_none_iff_exists'.mp ((hkid i).2.1 x hx)
      rw [(hkx x q).mpr ⟨i,hq⟩]
      exact Option.some_ne_none q
    refine ⟨nodup_nodes_succ.mpr ⟨fun i hx => ?_,fun i => (hkid i).1,fun i j hij x hi hj => ?_⟩,fun x hx => ?_,
      funext fun v => (hkid _).2.2 v rfl⟩
    · exact hin i pt hx (hfg.none_of_ne (by simp [Heap.single]))
    · exact (hkid j).2.1 x hj ((hkapart i j hij).none_of_ne ((hkid i).2.1 x hi))
    · rw [Ne,Heap.join_eq_none,not_and_or]
      rw [nodes_succ] at hx
      rcases List.mem_cons.mp hx with rfl | hx
      · exact .inl (by simp [Heap.single])
      · obtain ⟨i,-,hi⟩ := List.mem_flatMap.mp hx
        exact .inr (hin i x hi)

/-! ## Walks that only look -/

def slot (m : Machine) (va : ℕ) : ℕ → ℕ → Option (ℕ × Fin 512)
  | 0, pt => some (pt,PX 0 va)
  | l + 1, pt =>
    let e := Page.pte (m.mem pt) (PX (l + 1) va)
    if e &&& PTE_V ≠ 0 then m.slot va l (PTE2PA e) else none

theorem run_load (m : Machine) (pt : ℕ) (i : Fin 512) :
    (load pt i).run (exec ram) m = .ok (Page.pte (m.mem pt) i,m) := by
  have hi : 8 * i.val + 8 ≤ PGSIZE := by
    have := i.isLt
    simp only [PGSIZE]
    omega
  have hpeek : (peek pt (8 * i.val) 8).run (exec ram) m = .ok ((m.mem pt).slice (8 * i.val) 8,m) := by
    simp only [peek,Prog.call,Prog.run,exec,if_pos hi]
  exact Prog.run_bind_ok hpeek

theorem run_walkFrom (m : Machine) (va l pt : ℕ) :
    (walkFrom va false l pt).run (exec ram) m = .ok (m.slot va l pt,m) := by
  induction l generalizing pt with
  | zero => rfl
  | succ l ih =>
    refine (Prog.run_bind_ok (run_load m pt _)).trans ?_
    rw [slot]
    split
    · exact ih _
    · rfl

theorem get_slot (m : Machine) (va l pt : ℕ) :
    m.get l pt (va / PGSIZE) = (m.slot va l pt).bind fun q => valid (Page.pte (m.mem q.1) q.2) := by
  induction l generalizing pt with
  | zero => rw [get,slot,PX_eq,Option.bind_some]
  | succ l ih =>
    rw [get,slot,PX_eq]
    split
    · exact ih _
    · rfl

theorem run_walk (m : Machine) {va : ℕ} (root : ℕ) (hva : va < MAXVA) :
    (walk root va false).run (exec ram) m = .ok (m.slot va 2 root,m) := by
  rw [walk,if_neg (by omega),run_walkFrom]

theorem run_walkaddr (m : Machine) (root va : ℕ) :
    (walkaddr root va).run (exec ram) m = .ok (userAddr (m.get 2 root) va,m) := by
  rw [walkaddr,userAddr]
  split
  · rename_i hva
    rw [if_neg (by omega)]
    rfl
  · rename_i hva
    rw [if_pos (by omega),get_slot]
    refine (Prog.run_bind_ok (run_walk m root (by omega))).trans ?_
    cases hs : m.slot va 2 root with
    | none => rfl
    | some q =>
      refine (Prog.run_bind_ok (run_load m q.1 q.2)).trans ?_
      rw [Option.bind_some,valid]
      by_cases hv : Page.pte (m.mem q.1) q.2 &&& PTE_V = 0
      · rw [if_pos hv,if_neg (not_not.mpr hv)]
        rfl
      · rw [if_neg hv,if_pos hv]
        dsimp only
        split <;> rfl

/-! ## Page tables as finite maps -/

structure Clear (ram : Ram) (m : Machine) (root : ℕ) : Prop where
  tree : (m.nodes 2 root).Nodup
  nodup : m.freelist.Nodup
  free : ∀ x ∈ m.freelist, ram.Has x ∧ x ∉ m.nodes 2 root

def map (m : Machine) (root va : ℕ) : Option (ℕ × BitVec 64) :=
  (m.get 2 root (va / PGSIZE)).map fun e => (PTE2PA e,PTE_FLAGS e)

variable {root : ℕ} {M : ℕ → Option (BitVec 64)} {I : BitVec 64 → Prop}

theorem Clear.table (hm : m.Clear ram root) :
    table (fun _ => True) root (m.get 2 root) (m.only (m.nodes 2 root)) :=
  le_table (fun v _ => get_tree m 2 root v) _ (node_tree hm.tree)

theorem clear_of_table (hm : m.Agrees ram h) (ht : table I root M h) :
    m.Clear ram root ∧ ∀ v, v < 2 ^ 27 → m.get 2 root v = M v := by
  obtain ⟨t,ht⟩ := iSup_iff.mp ht
  obtain ⟨hget,ht⟩ := fact_mul_iff.mp ht
  obtain ⟨h₁,h₂,h₃⟩ := of_node ht hm.mem
  exact ⟨⟨h₁,hm.nodup,fun x hx => ⟨(hm.free x hx).1,fun hn => h₂ x hn (hm.free x hx).2⟩⟩,fun v hv => h₃ ▸ hget v hv⟩

theorem Clear.agrees (hm : m.Clear ram root) {L : List ℕ} (hL : ∀ x ∈ L, x ∉ m.freelist) :
    m.Agrees ram (m.only (m.nodes 2 root ++ L)) where
  mem := fun _ _ hx => (only_eq_some.mp hx).2
  nodup := hm.nodup
  free := fun x hx => ⟨(hm.free x hx).1,if_neg fun hn => (List.mem_append.mp hn).elim (hm.free x hx).2
    fun hxL => hL x hxL hx⟩

theorem run_mappages {va size pa : ℕ} {perm : BitVec 64} (hm : m.Clear ram root) (hva : va % PGSIZE = 0)
    (hsize : size % PGSIZE = 0) (hpos : 0 < size) (hmax : va + size ≤ MAXVA) {r : ℤ} {m' : Machine}
    (hr : (mappages root va size pa perm).run (exec ram) m = .ok (r,m')) :
    m'.Clear ram root ∧ ∃ n, (r = 0 ∧ n = size / PGSIZE ∨ r = -1 ∧ n < size / PGSIZE) ∧
      ∀ v, v < 2 ^ 27 → m'.get 2 root v = mapped (m.get 2 root) (va / PGSIZE) n pa perm v := by
  have hmust : Vm.table (fun _ => True) root (m.get 2 root) ≤
      (mappages root va size pa perm).must (vmLocal ram fun _ => True)
        (mappedPost (fun _ => True) root (m.get 2 root) (va / PGSIZE) (size / PGSIZE) pa perm) :=
    mappages_le (fun _ _ => trivial) hva hsize hpos hmax fun _ _ _ => .inr trivial
  have hagrees := hm.agrees (L := []) (by simp)
  rw [List.append_nil] at hagrees
  rcases run_of_must hagrees (hmust _ hm.table) with ⟨a,m₁,h₁,hrun,hpost,hag,-⟩ | ⟨q,hrun,-⟩
  · rw [hr] at hrun
    cases hrun
    obtain ⟨n,hpost⟩ := iSup_iff.mp hpost
    obtain ⟨⟨hn,-⟩,ht⟩ := fact_mul_iff.mp hpost
    obtain ⟨hclear,hget⟩ := clear_of_table hag ht
    exact ⟨hclear,n,hn,hget⟩
  · rw [hr] at hrun
    cases hrun

structure Leaves (ram : Ram) (m : Machine) (root v n : ℕ) : Prop where
  page : ∀ k e, k < n → m.get 2 root (v + k) = some e →
    ram.Has (PTE2PA e) ∧ PTE2PA e ∉ m.nodes 2 root ∧ PTE2PA e ∉ m.freelist
  inj : ∀ k k' e e', k < n → k' < n → m.get 2 root (v + k) = some e → m.get 2 root (v + k') = some e' →
    PTE2PA e = PTE2PA e' → k = k'

def leafPages (m : Machine) (root v n : ℕ) : List ℕ :=
  (List.range n).filterMap fun k => (m.get 2 root (v + k)).map PTE2PA

theorem mem_leafPages {v n x : ℕ} :
    x ∈ m.leafPages root v n ↔ ∃ k e, k < n ∧ m.get 2 root (v + k) = some e ∧ PTE2PA e = x := by
  simp [leafPages,List.mem_filterMap,Option.map_eq_some_iff]

def contents (m : Machine) (root v : ℕ) : Page := (m.get 2 root v).elim (fill 0) fun e => m.mem (PTE2PA e)

theorem Leaves.ownsAt {v n : ℕ} (hl : Leaves ram m root v n) :
    (∏ k ∈ Finset.range n, ownsAt ram (m.contents root (v + k)) (m.get 2 root (v + k)))
      (m.only (m.leafPages root v n)) := by
  rw [prod_iff]
  refine ⟨fun k => m.only ((m.get 2 root (v + k)).map PTE2PA).toList,fun k hk => ?_,fun k hk k' hk' hne x => ?_,
    fun x p => ?_⟩
  · cases he : m.get 2 root (v + k) with
    | none =>
      rw [Vm.ownsAt,one_iff]
      funext x
      simp [only,Heap.empty,he]
    | some e =>
      refine fact_mul_iff.mpr ⟨(hl.page k e (Finset.mem_range.mp hk) he).1,?_⟩
      funext x
      by_cases hx : x = PTE2PA e <;> simp [only,Heap.single,Heap.set,Heap.empty,contents,he,hx]
  · by_cases hx : x ∈ ((m.get 2 root (v + k)).map PTE2PA).toList
    · refine .inr (if_neg fun hx' => hne ?_)
      simp only [Option.mem_toList,Option.map_eq_some_iff] at hx hx'
      obtain ⟨e,he,hex⟩ := hx
      obtain ⟨e',he',hex'⟩ := hx'
      exact hl.inj k k' e e' (Finset.mem_range.mp hk) (Finset.mem_range.mp hk') he he' (hex.trans hex'.symm)
    · exact .inl (if_neg hx)
  · simp only [only_eq_some,mem_leafPages,Finset.mem_range,Option.mem_toList,Option.map_eq_some_iff]
    constructor
    · rintro ⟨⟨k,e,hk,he,hx⟩,hp⟩
      exact ⟨k,hk,⟨e,he,hx⟩,hp⟩
    · rintro ⟨k,hk,⟨e,he,hx⟩,hp⟩
      exact ⟨⟨k,e,hk,he,hx⟩,hp⟩

theorem Leaves.freed {v n : ℕ} (hl : Leaves ram m root v n) :
    freed ram true (m.get 2 root) v n (m.only (m.leafPages root v n)) := by
  rw [Vm.freed,if_pos rfl]
  exact Finset.prod_le_prod' (fun k _ => ownsAt_le _) _ hl.ownsAt

theorem only_append {L L' : List ℕ} (h : L.Disjoint L') :
    (m.only L).Apart (m.only L') ∧ m.only (L ++ L') = (m.only L).join (m.only L') := by
  constructor
  · intro x
    by_cases hx : x ∈ L
    · exact .inr (if_neg (h hx))
    · exact .inl (if_neg hx)
  · funext x
    by_cases hx : x ∈ L <;> simp [only,Heap.join,hx]

theorem Clear.unmaps {va n : ℕ} {do_free : Bool} (hm : m.Clear ram root)
    (hleaves : do_free = true → Leaves ram m root (va / PGSIZE) n) : ∃ h, m.Agrees ram h ∧
      (Vm.table (fun _ => True) root (m.get 2 root) * Vm.freed ram do_free (m.get 2 root) (va / PGSIZE) n) h := by
  cases do_free with
  | false =>
    refine ⟨_,hm.agrees (L := []) (by simp),?_⟩
    rw [Vm.freed,if_neg (by simp),mul_one,List.append_nil]
    exact hm.table
  | true =>
    have hl := hleaves rfl
    have hdis : (m.nodes 2 root).Disjoint (m.leafPages root (va / PGSIZE) n) := fun x hx hx' => by
      obtain ⟨k,e,hk,he,rfl⟩ := mem_leafPages.mp hx'
      exact (hl.page k e hk he).2.1 hx
    obtain ⟨hapart,hjoin⟩ := only_append (m := m) hdis
    refine ⟨_,hm.agrees (L := m.leafPages root (va / PGSIZE) n) fun x hx => ?_,_,_,hm.table,hl.freed,hapart,hjoin⟩
    obtain ⟨k,e,hk,he,rfl⟩ := mem_leafPages.mp hx
    exact (hl.page k e hk he).2.2

theorem run_uvmunmap {va n : ℕ} {do_free : Bool} {X : VmPanic → Prop} (hm : m.Clear ram root) (hva : va % PGSIZE = 0)
    (hmax : va + n * PGSIZE ≤ MAXVA) (hleaves : do_free = true → Leaves ram m root (va / PGSIZE) n)
    (hleaf : ∀ u, va / PGSIZE ≤ u → u < va / PGSIZE + n → (∃ e, m.get 2 root u = some e ∧ PTE_FLAGS e ≠ PTE_V) ∨
      X .unmapWalk ∧ X .unmapNotMapped ∧ X .unmapNotLeaf) :
    (∃ m', (uvmunmap root va n do_free).run (exec ram) m = .ok ((),m') ∧ m'.Clear ram root ∧
      ∀ v, v < 2 ^ 27 → m'.get 2 root v = removed (m.get 2 root) (va / PGSIZE) n v) ∨
    ∃ q, (uvmunmap root va n do_free).run (exec ram) m = .error (.panic q) ∧ X q := by
  have hmust : Vm.table (fun _ => True) root (m.get 2 root) * Vm.freed ram do_free (m.get 2 root) (va / PGSIZE) n ≤
      (uvmunmap root va n do_free).must (vmLocal ram X) fun _ =>
        Vm.table (fun _ => True) root (removed (m.get 2 root) (va / PGSIZE) n) :=
    uvmunmap_le (fun _ _ => trivial) hva hmax hleaf
  obtain ⟨h,hag,hh⟩ := hm.unmaps hleaves
  rcases run_of_must hag (hmust _ hh) with ⟨a,m₁,h₁,hrun,hpost,hag',-⟩ | ⟨q,hrun,hq⟩
  · exact .inl ⟨m₁,hrun,clear_of_table hag' hpost⟩
  · exact .inr ⟨q,hrun,hq⟩

theorem PTE_FLAGS_and_U (e : BitVec 64) : PTE_FLAGS e &&& PTE_U = e &&& PTE_U := by
  rw [PTE_FLAGS,BitVec.and_assoc]
  rfl

/-- A page table is a map from pages to physical pages with flags: `mappages` and `uvmunmap` change it on their range
only, and `walk` and `walkaddr` look it up. -/
theorem page_table_refines_map (hm : m.Clear ram root) :
    (∀ va size pa perm r m', va % PGSIZE = 0 → size % PGSIZE = 0 → 0 < size → va + size ≤ MAXVA →
      pa + size ≤ 2 ^ 56 → perm.toNat < 1024 → (mappages root va size pa perm).run (exec ram) m = .ok (r,m') →
      m'.Clear ram root ∧ ∃ n, (r = 0 ∧ n = size / PGSIZE ∨ r = -1 ∧ n < size / PGSIZE) ∧
        ∀ a, a % PGSIZE = 0 → a < MAXVA → m'.map root a =
          if va ≤ a ∧ a < va + n * PGSIZE then some (PGROUNDDOWN (pa + (a - va)),perm ||| PTE_V) else m.map root a) ∧
    (∀ va n do_free, va % PGSIZE = 0 → va + n * PGSIZE ≤ MAXVA →
      (do_free = true → Leaves ram m root (va / PGSIZE) n) →
      (∀ m', (uvmunmap root va n do_free).run (exec ram) m = .ok ((),m') →
        m'.Clear ram root ∧ ∀ a, a % PGSIZE = 0 → a < MAXVA → m'.map root a =
          if va ≤ a ∧ a < va + n * PGSIZE then none else m.map root a) ∧
      ((∀ a, a % PGSIZE = 0 → va ≤ a → a < va + n * PGSIZE → ∃ pa flags, m.map root a = some (pa,flags) ∧ flags ≠ PTE_V) →
        ∃ m', (uvmunmap root va n do_free).run (exec ram) m = .ok ((),m'))) ∧
    (∀ va, va < MAXVA → ∃ r, (walk root va false).run (exec ram) m = .ok (r,m) ∧
      m.map root va = (r.bind fun q => valid (Page.pte (m.mem q.1) q.2)).map fun e => (PTE2PA e,PTE_FLAGS e)) ∧
    (∀ va, (walkaddr root va).run (exec ram) m = .ok (if va < MAXVA then
      match m.map root va with
      | some (pa,flags) => if flags &&& PTE_U = 0 then 0 else pa
      | none => 0 else 0,m)) := by
  have hpage : ∀ a, a < MAXVA → a / PGSIZE < 2 ^ 27 := fun a ha => by
    simp only [MAXVA,PGSIZE] at ha ⊢
    omega
  refine ⟨fun va size pa perm r m' hva hsize hpos hmax hpa hperm hr => ?_,fun va n do_free hva hmax hl =>
    ⟨fun m' hr => ?_,fun hmap => ?_⟩,
    fun va hva => ⟨_,run_walk m root hva,by rw [map,get_slot]⟩,fun va => ?_⟩
  · obtain ⟨hclear,n,hn,hget⟩ := run_mappages hm hva hsize hpos hmax hr
    refine ⟨hclear,n,hn,fun a ha hlt => ?_⟩
    rw [map,map,hget _ (hpage a hlt),mapped]
    simp only [PGSIZE] at hva ha hsize hn ⊢
    by_cases h : va ≤ a ∧ a < va + n * 4096
    · rw [if_pos h,if_pos (by omega)]
      have hk : (a / 4096 - va / 4096) * 4096 = a - va := by omega
      have hlt' : pa + (a - va) < 2 ^ 56 := by omega
      rw [hk,BitVec.or_assoc,Option.map_some,PTE2PA_entry hlt' (or_valid_lt hperm),
        PTE_FLAGS_entry hlt' (or_valid_lt hperm)]
      rfl
    · rw [if_neg h,if_neg (by omega)]
  · obtain ⟨hclear,hget⟩ : m'.Clear ram root ∧
        ∀ v, v < 2 ^ 27 → m'.get 2 root v = removed (m.get 2 root) (va / PGSIZE) n v := by
      rcases run_uvmunmap (X := fun _ => True) hm hva hmax hl fun _ _ _ => .inr ⟨trivial,trivial,trivial⟩ with
        ⟨m₁,hrun,h⟩ | ⟨q,hrun,-⟩
      · rw [hr] at hrun
        cases hrun
        exact h
      · rw [hr] at hrun
        cases hrun
    refine ⟨hclear,fun a ha hlt => ?_⟩
    rw [map,map,hget _ (hpage a hlt),removed]
    simp only [PGSIZE] at hva ha ⊢
    by_cases h : va ≤ a ∧ a < va + n * 4096
    · rw [if_pos h,if_pos (by omega)]
      rfl
    · rw [if_neg h,if_neg (by omega)]
  · have hleaf : ∀ u, va / PGSIZE ≤ u → u < va / PGSIZE + n → ∃ e, m.get 2 root u = some e ∧ PTE_FLAGS e ≠ PTE_V := by
      intro u h₁ h₂
      obtain ⟨pa,flags,hu,hne⟩ := hmap (u * PGSIZE) (Nat.mul_mod_left _ _) (by simp only [PGSIZE] at *; omega)
        (by simp only [PGSIZE] at *; omega)
      rw [map,Nat.mul_div_cancel _ (by decide)] at hu
      obtain ⟨e,he,⟨⟩⟩ := Option.map_eq_some_iff.mp hu
      exact ⟨e,he,hne⟩
    rcases run_uvmunmap (X := fun _ => False) hm hva hmax hl fun u h₁ h₂ => .inl (hleaf u h₁ h₂) with ⟨m₁,hrun,-⟩ | ⟨q,-,hq⟩
    · exact ⟨m₁,hrun⟩
    · exact hq.elim
  · rw [run_walkaddr,userAddr,map]
    cases m.get 2 root (va / PGSIZE) with
    | none => rfl
    | some e => simp only [Option.map_some,PTE_FLAGS_and_U]

def sample : Machine := ⟨fun _ => fill 0,[0x3000,0x4000]⟩

def sampleRam : Ram := ⟨0x3000,0x8000,by decide,by decide⟩

theorem sample_clear : sample.Clear sampleRam 0x1000 := by
  have hnodes : sample.nodes 2 0x1000 = [0x1000] := by
    have : ∀ i, sample.kidNodes 1 0x1000 i = [] := fun i =>
      if_neg (by rw [show sample.mem 0x1000 = fill 0 from rfl,pte_fill_zero]; decide)
    rw [nodes_succ,List.flatMap_eq_nil_iff.mpr fun i _ => this i]
  refine ⟨by rw [hnodes]; exact List.nodup_singleton _,by decide,fun x hx => ?_⟩
  rw [hnodes]
  simp only [sample,List.mem_cons,List.not_mem_nil,or_false] at hx
  rcases hx with rfl | rfl <;> exact ⟨⟨rfl,by decide,by decide⟩,by decide⟩

theorem page_table_refines_map_first : ∃ m',
    (mappages 0x1000 0 PGSIZE 0x7000 (PTE_R ||| PTE_U)).run (exec sampleRam) sample = .ok (0,m') ∧
      m'.map 0x1000 0 = some (0x7000,PTE_R ||| PTE_U ||| PTE_V) := by
  have hret : ((mappages 0x1000 0 PGSIZE 0x7000 (PTE_R ||| PTE_U)).run (exec sampleRam) sample).toOption.map
      Prod.fst = some 0 := by decide +kernel
  cases hrun : (mappages 0x1000 0 PGSIZE 0x7000 (PTE_R ||| PTE_U)).run (exec sampleRam) sample with
  | error e => simp [hrun,Except.toOption] at hret
  | ok q =>
    obtain ⟨r,m'⟩ := q
    obtain rfl : r = 0 := by simpa [hrun,Except.toOption] using hret
    obtain ⟨-,n,hn,hmap⟩ := (page_table_refines_map sample_clear).1 0 PGSIZE 0x7000 (PTE_R ||| PTE_U) 0 m' (by decide)
      (by decide) (by decide) (by decide) (by decide) (by decide) hrun
    refine ⟨m',rfl,(hmap 0 (by decide) (by decide)).trans (if_pos ?_)⟩
    simp only [PGSIZE] at hn ⊢
    omega

end Machine

end Xv6.Vm
