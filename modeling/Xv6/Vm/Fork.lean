import Xv6.Vm.Contents

/-! # Copies of address spaces

What `uvmcopy` makes of an address space: an equal one on pages of its own, or nothing. Two address
spaces on separate pages do not see each other's writes, and stay so.
-/
namespace Xv6.Vm
open Library Library.Assert

theorem PTE_FLAGS_copyEntry (pa : ℕ) {e : BitVec 64} (he : e &&& PTE_V ≠ 0) : PTE_FLAGS (copyEntry pa e) = PTE_FLAGS e := by
  have hbit : e.getLsbD 0 = true := by
    by_contra h
    refine he (BitVec.eq_of_getLsbD_eq fun i hi => ?_)
    rw [BitVec.getLsbD_and,PTE_V]
    by_cases h0 : i = 0
    · subst h0
      simpa using h
    · simp [h0]
  rw [PTE_FLAGS,copyEntry,BitVec.or_assoc,entry_and _ _ (by decide),PTE_FLAGS]
  apply BitVec.eq_of_getLsbD_eq
  intro i hi
  rw [BitVec.getLsbD_and,BitVec.getLsbD_or,BitVec.getLsbD_and,PTE_V]
  by_cases h0 : i = 0
  · subst h0
    simp [hbit]
  · cases e.getLsbD i <;> simp [h0]

theorem Copied.part {M M₀ M' : ℕ → Option (BitVec 64)} {n k : ℕ} (h : Copied M M₀ n M') : Copied (Vm.removed M n k) M₀ n M' :=
  ⟨h.same,fun u hu => by
    rw [removed_of_lt hu]
    exact h.new u hu⟩

namespace Machine
variable {ram : Ram} {m m' : Machine} {trampoline : ℕ} {p q : Space} {guard guard' : Set ℕ}

/-! ## Two address spaces -/

structure Pair (ram : Ram) (trampoline : ℕ) (m : Machine) (p : Space) (guard : Set ℕ) (q : Space) (guard' : Set ℕ) : Prop where
  left : m.HasSpace ram trampoline p guard
  right : m.HasSpace ram trampoline q guard'
  apart : (m.pages p.pagetable (npages p.sz)).Disjoint (m.pages q.pagetable (npages q.sz))

theorem Pair.symm (h : m.Pair ram trampoline p guard q guard') : m.Pair ram trampoline q guard' p guard :=
  ⟨h.right,h.left,h.apart.symm⟩

theorem Moved.unique {ok : BitVec 64 → Prop} {M : ℕ → Option (BitVec 64)} {a len k k' : ℕ} {r r' : ℤ}
    (h : Moved ok M a len r k) (h' : Moved ok M a len r' k') : r = r' ∧ k = k' := by
  have hiff := h.zero_iff.trans h'.zero_iff.symm
  rcases h.2 with ⟨rfl,hk⟩ | ⟨rfl,hk,-,hno⟩
  · obtain rfl := hiff.mp rfl
    rcases h'.2 with ⟨-,hk'⟩ | ⟨h,-⟩
    · exact ⟨rfl,hk.trans hk'.symm⟩
    · cases h
  · rcases h'.2 with ⟨rfl,-⟩ | ⟨rfl,hk',-,hno'⟩
    · cases hiff.mpr rfl
    · refine ⟨rfl,le_antisymm ?_ ?_⟩
      · by_contra hlt
        exact hno' (h.1 _ (by omega) (by omega))
      · by_contra hlt
        exact hno (h'.1 _ (by omega) (by omega))

theorem HasSpace.copyin_congr (hm : m.HasSpace ram trampoline p guard) (hm' : m'.HasSpace ram trampoline p guard)
    (hget : m'.get 2 p.pagetable = m.get 2 p.pagetable)
    (hbyte : ∀ a, Accessible readable (m.get 2 p.pagetable) a → m'.byte p.pagetable a = m.byte p.pagetable a)
    (srcva len : ℕ) : ∃ x, (copyin p.pagetable srcva len).run (exec ram) m = .ok (x,m) ∧
      (copyin p.pagetable srcva len).run (exec ram) m' = .ok (x,m') := by
  obtain ⟨r,bs,hrun,hmoved,hbytes⟩ := hm.run_copyinLoop (a := srcva) (le_refl len)
  obtain ⟨r',bs',hrun',hmoved',hbytes'⟩ := hm'.run_copyinLoop (a := srcva) (le_refl len)
  rw [hget] at hmoved'
  obtain ⟨rfl,hlen⟩ := hmoved.unique hmoved'
  have hbs : bs = bs' := by
    apply List.ext_getElem hlen
    intro i h₁ h₂
    have hb := hbytes i _ (List.getElem?_eq_getElem h₁)
    have hb' := hbytes' i _ (List.getElem?_eq_getElem h₂)
    rw [hbyte _ (hmoved.1 _ (by omega) (by omega)),hb] at hb'
    exact Option.some.inj hb'
  exact ⟨(r,bs),hrun,hbs ▸ hrun'⟩

theorem HasSpace.mem_pages (hm : m.HasSpace ram trampoline p guard) {a : ℕ} {e : BitVec 64} (ha : a < MAXVA)
    (he : m.get 2 p.pagetable (a / PGSIZE) = some e) (hU : e &&& PTE_U ≠ 0) :
    PTE2PA e ∈ m.leafPages p.pagetable 0 (npages p.sz) :=
  mem_leafPages.mpr ⟨a / PGSIZE,e,hm.shape.lt_of_user (vpage_lt ha) he hU,by rwa [Nat.zero_add],rfl⟩

theorem HasSpace.copyout_mem (hm : m.HasSpace ram trampoline p guard) {dstva : ℕ} {src : List Byte} {r : ℤ}
    (hr : (copyout p.pagetable dstva src).run (exec ram) m = .ok (r,m')) :
    m'.freelist = m.freelist ∧ ∀ x, x ∉ m.leafPages p.pagetable 0 (npages p.sz) → m'.mem x = m.mem x := by
  obtain ⟨r₁,m₁,k,hrun,hmoved,hwrote⟩ := hm.run_copyoutLoop (a := dstva) (le_refl src.length)
  rw [copyout,hrun] at hr
  cases hr
  refine ⟨hwrote.freelist,fun x hx => Bytes.ext_get fun j _ => hwrote.other x j fun i hi hphys => hx ?_⟩
  have hik : i < k := by
    rw [List.length_take] at hi
    omega
  obtain ⟨hlt,e,he,hU,-⟩ := hmoved.1 (dstva + i) (by omega) (by omega)
  rw [phys,he,Option.map_some] at hphys
  obtain ⟨rfl,-⟩ := Prod.mk.inj (Option.some.inj hphys)
  exact hm.mem_pages hlt he hU

theorem pages_congr {root n : ℕ} (h : ∀ x ∈ m.nodes 2 root, m'.mem x = m.mem x) : m'.pages root n = m.pages root n := by
  obtain ⟨hnodes,hget⟩ := nodes_congr h
  rw [pages,pages,hnodes,leafPages_congr fun v _ => congrFun hget v]

theorem Pair.copyout (h : m.Pair ram trampoline p guard q guard') {dstva : ℕ} {src : List Byte} {r : ℤ}
    (hr : (copyout p.pagetable dstva src).run (exec ram) m = .ok (r,m')) :
    m'.Pair ram trampoline p guard q guard' ∧ ∀ srcva len, ∃ x,
      (copyin q.pagetable srcva len).run (exec ram) m = .ok (x,m) ∧
        (copyin q.pagetable srcva len).run (exec ram) m' = .ok (x,m') := by
  obtain ⟨hfree,hmem⟩ := h.left.copyout_mem hr
  have hp : ∀ x ∈ m.nodes 2 p.pagetable, m'.mem x = m.mem x := fun x hx => hmem x fun hl =>
    h.left.leaves.disjoint hx hl
  have hq : ∀ x ∈ m.pages q.pagetable (npages q.sz), m'.mem x = m.mem x := fun x hx => hmem x fun hl =>
    h.apart (List.mem_append_right _ hl) hx
  have hqn : ∀ x ∈ m.nodes 2 q.pagetable, m'.mem x = m.mem x := fun x hx => hq x (List.mem_append_left _ hx)
  obtain ⟨hright,hget⟩ := h.right.congr hfree hqn
  refine ⟨⟨(h.left.congr hfree hp).1,hright,?_⟩,h.right.copyin_congr hright hget fun a ha => ?_⟩
  · rw [pages_congr hp,pages_congr hqn]
    exact h.apart
  · obtain ⟨hlt,e,he,hU⟩ := ha
    exact byte_of_content he (by rw [hget,he]) (hq _ (List.mem_append_right _ (h.right.mem_pages hlt he hU)))

def Writes (ram : Ram) (p q : Space) (m m' : Machine) : Prop :=
  ∃ pagetable ∈ [p.pagetable,q.pagetable], ∃ dstva src r, (copyout pagetable dstva src).run (exec ram) m = .ok (r,m')

theorem Pair.writes (h : m.Pair ram trampoline p guard q guard') (hw : Writes ram p q m m') :
    m'.Pair ram trampoline p guard q guard' := by
  obtain ⟨pt,hpt,dstva,src,r,hr⟩ := hw
  simp only [List.mem_cons,List.not_mem_nil,or_false] at hpt
  rcases hpt with rfl | rfl
  · exact (h.copyout hr).1
  · exact (h.symm.copyout hr).1.symm

theorem Pair.run (h : m.Pair ram trampoline p guard q guard') (hw : Relation.ReflTransGen (Writes ram p q) m m') :
    m'.Pair ram trampoline p guard q guard' := by
  induction hw with
  | refl => exact h
  | tail _ hw ih => exact ih.writes hw

/-! ## `uvmcopy` -/

def Reaches (m : Machine) (root x : ℕ) : Prop :=
  x ∈ m.nodes 2 root ∨ ∃ v e, v < 2 ^ 27 ∧ m.get 2 root v = some e ∧ PTE2PA e = x

theorem HasSpace.reaches (hm : m.HasSpace ram trampoline p guard) {x : ℕ} (hx : x ∈ m.pages p.pagetable (npages p.sz)) :
    m.Reaches p.pagetable x := by
  refine (List.mem_append.mp hx).imp id fun hx => ?_
  obtain ⟨k,e,hk,he,rfl⟩ := mem_leafPages.mp hx
  have := hm.le_pow
  exact ⟨k,e,by omega,by rwa [Nat.zero_add] at he,rfl⟩

theorem HasSpace.npages_le (hm : m.HasSpace ram trampoline p guard) : npages p.sz ≤ ram.pages := by
  obtain ⟨-,g,-,hg,-⟩ := hm.clear.held hm.leaves
  obtain ⟨S,hcard,hS⟩ := userPages_addrs (holds_le _ hg) fun v hv => by
    obtain ⟨e,he,-⟩ := hm.shape.low v hv
    rw [he]
    exact Option.some_ne_none e
  rw [← hcard]
  exact Ram.card_le fun pa hpa => (hS pa hpa).1

theorem Pair.agrees (h : m.Pair ram trampoline p guard q guard') :
    m.Agrees ram (m.only (m.pages p.pagetable (npages p.sz) ++ m.pages q.pagetable (npages q.sz))) where
  mem := fun _ _ hx => (only_eq_some.mp hx).2
  nodup := h.left.clear.nodup
  free := fun x hx => ⟨(h.left.clear.free x hx).1,if_neg fun hn => (List.mem_append.mp hn).elim
    (fun hn => h.left.clear.not_free h.left.leaves hn hx) fun hn => h.right.clear.not_free h.right.leaves hn hx⟩

/-- What `uvmcopy` leaves in memory: all pages of the old address space as they were, and in `g` the
pages of the new one. -/
structure Copies (ram : Ram) (m : Machine) (p q : Space) (sz : ℕ) (r : ℤ) (m' : Machine) (g : Heap ℕ Page) : Prop where
  agrees : m'.Agrees ram ((m.only (m.pages p.pagetable (npages p.sz))).join g)
  apart : (m.only (m.pages p.pagetable (npages p.sz))).Apart g
  new : (∃ M', r = 0 ∧ Copied (m.get 2 p.pagetable) (m.get 2 q.pagetable) (npages sz) M' ∧ npages sz ≤ npages p.sz ∧
      Shows ram m' g q.pagetable M' (m.contents p.pagetable) (npages sz)) ∨
    r = -1 ∧ Shows ram m' g q.pagetable (m.get 2 q.pagetable) (m.contents p.pagetable) 0
  kept : ∀ x, x ∉ m.freelist → x ∉ m.pages p.pagetable (npages p.sz) → x ∉ m.nodes 2 q.pagetable →
    m'.mem x = m.mem x ∧ g x = none
  all : ∀ x ∈ m.freelist, g x ≠ none ∨ x ∈ m'.freelist

theorem pages_zero (root : ℕ) : m.pages root 0 = m.nodes 2 root := by
  rw [pages,leafPages,List.range_zero,List.filterMap_nil,List.append_nil]

theorem Agrees.right {f g : Heap ℕ Page} (hm : m.Agrees ram (f.join g)) (hfg : f.Apart g) : m.Agrees ram g := by
  rw [Heap.join_comm hfg] at hm
  exact hm.sub

theorem Pair.run_uvmcopy (h : m.Pair ram trampoline p guard q guard') (hq : q.sz = 0) (hpages : ram.pages < trapPage) {sz : ℕ}
    {r : ℤ} (hr : (uvmcopy p.pagetable q.pagetable sz).run (exec ram) m = .ok (r,m')) : ∃ g, Copies ram m p q sz r m' g := by
  have hlt : npages p.sz < trapPage := h.left.npages_le.trans_lt hpages
  have hnew : m.pages q.pagetable (npages q.sz) = m.nodes 2 q.pagetable := by rw [hq,show npages 0 = 0 from rfl,pages_zero]
  have hM := h.left.shape.user
  have h₀ : ∀ u, u < npages p.sz → m.get 2 q.pagetable u = none := fun u hu =>
    h.right.shape.user.high u (by rw [hq]; exact Nat.zero_le u) (by omega)
  obtain ⟨hapart,hjoin⟩ := only_append (m := m) h.apart
  have hheld : (exactly (m.only (m.pages p.pagetable (npages p.sz))) *
      held (fun _ => True) ram q.pagetable (m.get 2 q.pagetable) (m.contents p.pagetable) 0)
      (m.only (m.pages p.pagetable (npages p.sz) ++ m.pages q.pagetable (npages q.sz))) := by
    refine ⟨_,_,rfl,?_,hapart,hjoin⟩
    rw [hnew,held_zero]
    exact h.right.clear.table
  have hmust := uvmcopy_held (X := fun _ => True) (fun _ _ => trivial) hM h₀
    (fun _ : npages p.sz < npages sz => ⟨hlt,trivial,trivial⟩)
    (h.left.clear.held h.left.leaves) _ hheld
  rcases run_conserves h.agrees hmust with ⟨r₁,m₁,h₁,hrun,⟨f,g,rfl,hg,hfg,rfl⟩,hag,hkept,hall⟩ | ⟨x,hrun,-⟩
  · rw [hr] at hrun
    cases hrun
    have hagg := hag.right hfg
    refine ⟨g,hag,hfg,?_,fun x h₁ h₂ h₃ => ?_,fun x hx => ?_⟩
    · rcases hg with hg | hg
      · obtain ⟨M',hg⟩ := iSup_iff.mp hg
        obtain ⟨⟨hr₀,hC⟩,hg⟩ := fact_mul_iff.mp hg
        have hle : npages sz ≤ npages p.sz := by
          by_contra hgt
          obtain ⟨pa,e,he,-⟩ := hC.new (npages p.sz) (by omega)
          cases he.symm.trans (hM.high _ le_rfl hlt)
        exact .inl ⟨M',hr₀,hC,hle,shows_of_held hagg hg (hle.trans h.left.le_pow)⟩
      · obtain ⟨hr₁,hg⟩ := fact_mul_iff.mp hg
        exact .inr ⟨hr₁,shows_of_held hagg hg (Nat.zero_le _)⟩
    · have hnone : m.only (m.pages p.pagetable (npages p.sz) ++ m.pages q.pagetable (npages q.sz)) x = none := by
        rw [hnew]
        exact if_neg fun hx => (List.mem_append.mp hx).elim h₂ h₃
      exact ⟨hkept.mem x hnone h₁,(Heap.join_eq_none.mp (hkept.own x hnone h₁).1).2⟩
    · refine (hall x (.inr hx)).imp_left fun hne => ?_
      refine (Heap.join_ne_none.mp hne).resolve_left fun hf => hf (if_neg fun hp => ?_)
      exact h.left.clear.not_free h.left.leaves hp hx
  · rw [hr] at hrun
    cases hrun

section Copies
variable {sz : ℕ} {r : ℤ} {g : Heap ℕ Page}

theorem Copies.mem (h : Copies ram m p q sz r m' g) {x : ℕ} (hx : x ∈ m.pages p.pagetable (npages p.sz)) :
    m'.mem x = m.mem x ∧ g x = none := by
  have honly : m.only (m.pages p.pagetable (npages p.sz)) x = some (m.mem x) := only_eq_some.mpr ⟨hx,rfl⟩
  exact ⟨h.agrees.mem x _ (Heap.join_left honly),h.apart.none_of_ne (by rw [honly]; exact Option.some_ne_none _)⟩

theorem Copies.left (h : Copies ram m p q sz r m' g) (hm : m.HasSpace ram trampoline p guard) :
    m'.HasSpace ram trampoline p guard ∧ m'.get 2 p.pagetable = m.get 2 p.pagetable ∧
      m'.pages p.pagetable (npages p.sz) = m.pages p.pagetable (npages p.sz) := by
  have hmem : ∀ x ∈ m.nodes 2 p.pagetable, m'.mem x = m.mem x := fun x hx => (h.mem (List.mem_append_left _ hx)).1
  have hfree : ∀ x ∈ m'.freelist, x ∉ m.pages p.pagetable (npages p.sz) := fun x hx hp => by
    have := (Heap.join_eq_none.mp (h.agrees.free x hx).2).1
    rw [only,if_pos hp] at this
    cases this
  obtain ⟨hspace,hget⟩ := hm.same hmem h.agrees.nodup fun x hx => ⟨(h.agrees.free x hx).1,hfree x hx⟩
  exact ⟨hspace,hget,pages_congr hmem⟩

theorem Copies.pair (h : Copies ram m p q sz 0 m' g) (hm : m.Pair ram trampoline p guard q guard') (hq : q.sz = 0) :
    m'.Pair ram trampoline p guard { q with sz := sz } (guard ∩ {v | v < npages sz}) := by
  obtain ⟨hleft,-,hpages⟩ := h.left hm.left
  obtain ⟨M',-,hC,hle,hs⟩ | ⟨hr,-⟩ := h.new
  · have hbare := hm.right.shape
    rw [hq] at hbare
    refine ⟨hleft,⟨hs.clear,hs.leaves,((hm.left.shape.removed hle).copied hbare hC.part).congr hs.get⟩,fun x hx hx' => ?_⟩
    rw [hpages] at hx
    exact (hs.own x).mpr hx' (h.mem hx).2
  · cases hr

end Copies

theorem page_lt_of_rounded {va sz : ℕ} (hroom : npages sz ≤ trapPage) (hva : va < PGROUNDUP sz) : va / PGSIZE < npages sz := by
  rw [PGROUNDUP_eq hroom] at hva
  exact Nat.div_lt_of_lt_mul (by rwa [mul_comm])

theorem Copies.reached {sz : ℕ} {r : ℤ} {g : Heap ℕ Page} (h : Copies ram m p q sz r m' g)
    (hout : ∀ x, m.Reaches p.pagetable x → x ∉ m.freelist ∧ x ∉ m.nodes 2 q.pagetable) {x : ℕ}
    (hx : m.Reaches p.pagetable x) : m'.mem x = m.mem x ∧ g x = none := by
  by_cases hp : x ∈ m.pages p.pagetable (npages p.sz)
  · exact h.mem hp
  · exact h.kept x (hout x hx).1 hp (hout x hx).2

/-- A successful `uvmcopy` gives the child the parent's bytes and flags in pages of its own, so that neither sees what the
other writes afterwards. -/
theorem fork_copies (hpages : ram.pages < trapPage) (hm : m.HasSpace ram trampoline p guard)
    (hq : m.HasSpace ram trampoline q ∅) (hsz : q.sz = 0)
    (hout : ∀ x, m.Reaches p.pagetable x → x ∉ m.freelist ∧ x ∉ m.nodes 2 q.pagetable) {sz : ℕ}
    (hr : (uvmcopy p.pagetable q.pagetable sz).run (exec ram) m = .ok (0,m')) :
    (∀ va, va < PGROUNDUP sz → ∃ e e' b, m.get 2 p.pagetable (va / PGSIZE) = some e ∧
      m'.get 2 q.pagetable (va / PGSIZE) = some e' ∧ PTE_FLAGS e' = PTE_FLAGS e ∧
      m.byte p.pagetable va = some b ∧ m'.byte q.pagetable va = some b ∧ ¬m'.Reaches p.pagetable (PTE2PA e')) ∧
    (∀ va vb e e', va < PGROUNDUP sz → vb < PGROUNDUP sz → m'.get 2 q.pagetable (va / PGSIZE) = some e →
      m'.get 2 q.pagetable (vb / PGSIZE) = some e' → PTE2PA e = PTE2PA e' → va / PGSIZE = vb / PGSIZE) ∧
    (m'.get 2 p.pagetable = m.get 2 p.pagetable ∧ ∀ x, m.Reaches p.pagetable x → m'.mem x = m.mem x) ∧
    ∀ m₁, Relation.ReflTransGen (Writes ram p q) m' m₁ → ∀ dstva src r m₂,
      ((copyout q.pagetable dstva src).run (exec ram) m₁ = .ok (r,m₂) → ∀ srcva len, ∃ x,
        (copyin p.pagetable srcva len).run (exec ram) m₁ = .ok (x,m₁) ∧
          (copyin p.pagetable srcva len).run (exec ram) m₂ = .ok (x,m₂)) ∧
      ((copyout p.pagetable dstva src).run (exec ram) m₁ = .ok (r,m₂) → ∀ srcva len, ∃ x,
        (copyin q.pagetable srcva len).run (exec ram) m₁ = .ok (x,m₁) ∧
          (copyin q.pagetable srcva len).run (exec ram) m₂ = .ok (x,m₂)) := by
  have hpair : m.Pair ram trampoline p guard q ∅ := by
    refine ⟨hm,hq,fun x hx hx' => (hout x (hm.reaches hx)).2 ?_⟩
    rwa [hsz,show npages 0 = 0 from rfl,pages_zero] at hx'
  obtain ⟨g,hc⟩ := hpair.run_uvmcopy hsz hpages hr
  have hpair' := hc.pair hpair hsz
  obtain ⟨-,hget,hsame⟩ := hc.left hm
  obtain ⟨M',-,hC,hle,hs⟩ | ⟨h,-⟩ := hc.new
  swap
  · cases h
  have hroom := hle.trans hm.shape.room
  have hpow := hle.trans hm.le_pow
  refine ⟨fun va hva => ?_,fun va vb e e' hva hvb he he' hpa => ?_,⟨hget,fun x hx => (hc.reached hout hx).1⟩,
    fun m₁ hrun dstva src r m₂ => ?_⟩
  · have hv := page_lt_of_rounded hroom hva
    obtain ⟨pa,e,he,he'⟩ := hC.new _ hv
    have hnew : m'.get 2 q.pagetable (va / PGSIZE) = some (copyEntry pa e) := (hs.get _ (by omega)).trans he'
    have hbyte : m.byte p.pagetable va = some ((m.mem (PTE2PA e)).get (va % PGSIZE)) := by
      rw [byte,phys,he]
      rfl
    refine ⟨e,copyEntry pa e,_,he,hnew,?_,hbyte,(hs.byte hpow hv he he' rfl).trans hbyte,fun hreach => ?_⟩
    · have hslot := get_slot m va 2 p.pagetable
      rw [he] at hslot
      obtain ⟨i,-,hi⟩ := Option.bind_eq_some_iff.mp hslot.symm
      rw [valid_eq_some] at hi
      exact PTE_FLAGS_copyEntry pa (hi.2 ▸ hi.1)
    · have hown : g (PTE2PA (copyEntry pa e)) ≠ none := by
        rw [hs.own]
        exact List.mem_append_right _ (mem_leafPages.mpr ⟨_,_,hv,by rw [Nat.zero_add]; exact hnew,rfl⟩)
      refine hown (hc.reached hout ?_).2
      rcases hreach with hn | hl
      · have hn' : PTE2PA (copyEntry pa e) ∈ m'.pages p.pagetable (npages p.sz) := List.mem_append_left _ hn
        exact hm.reaches (hsame ▸ hn')
      · rw [hget] at hl
        exact .inr hl
  · refine hs.leaves.inj _ _ e e' (page_lt_of_rounded hroom hva) (page_lt_of_rounded hroom hvb) ?_ ?_ hpa
    · rw [Nat.zero_add]
      exact he
    · rw [Nat.zero_add]
      exact he'
  · have hpair₁ := hpair'.run (q := { q with sz := sz }) hrun
    exact ⟨fun hr => (hpair₁.symm.copyout hr).2,fun hr => (hpair₁.copyout hr).2⟩

/-- The first process, and another one that is about to become its child. -/
def twoProcesses : VmCode (Option (Space × Space)) := do
  match ← firstProcess 1 with
  | none => pure none
  | some p => do
    match ← allocproc 0x2000 with
    | none => pure none
    | some q => pure (some (p,q))

def forkRam : Ram := ⟨0x3000,0x13000,sampleRam.pos,by decide⟩

def forkMachine : Machine := ⟨fun _ => fill 1,(List.range 16).map fun i => 0x3000 + i * PGSIZE⟩

theorem forkMachine_agrees : forkMachine.Agrees forkRam .empty := by
  refine ⟨fun x p hx => absurd hx (by simp [Heap.empty]),by decide,fun x hx => ⟨?_,rfl⟩⟩
  obtain ⟨i,hi,rfl⟩ := List.mem_map.mp hx
  have := List.mem_range.mp hi
  simp only [Ram.Has,forkRam,PGSIZE]
  omega

theorem run_bind_fst {α β : Type} {c : VmCode α} {f : α → VmCode β} {a : α} {b : β}
    (hc : c.run (exec ram) m = .ok (a,m')) (hb : ((c.bind f).run (exec ram) m).toOption.map Prod.fst = some b) :
    ∃ m₁, (f a).run (exec ram) m' = .ok (b,m₁) := by
  rw [Prog.run_bind_ok hc] at hb
  cases h : (f a).run (exec ram) m' with
  | error e => rw [h] at hb; cases hb
  | ok x =>
    rw [h] at hb
    cases hb
    exact ⟨x.2,rfl⟩

theorem twoProcesses_le {X : VmPanic → Prop} (hpages : ram.pages < trapPage) :
    (1 : Assert ℕ Page) ≤ twoProcesses.must (vmLocal ram X) fun r =>
      r.elim ⊤ fun r => fact (r.2.sz = 0) * (space ram 0x2000 ∅ r.1 * space ram 0x2000 ∅ r.2) := by
  refine Prog.seq (firstProcess_le hpages 1) fun r => ?_
  cases r with
  | none => exact Prog.must_ret_le le_top
  | some p =>
    rw [given,← one_mul (space ram 0x2000 ∅ p)]
    refine Prog.seq_frame allocproc_le fun r => ?_
    cases r with
    | none => exact Prog.must_ret_le le_top
    | some q =>
      rw [given,mul_assoc,mul_comm (space ram 0x2000 ∅ q)]
      exact Prog.must_ret_le le_rfl

theorem Agrees.reaches {h : Heap ℕ Page} (hm : m.Agrees ram h) (hh : space ram trampoline guard p h)
    (htr : PTE2PA (PA2PTE trampoline ||| (PTE_R ||| PTE_X ||| PTE_V)) = trampoline) {x : ℕ}
    (hx : m.Reaches p.pagetable x) : h x ≠ none ∨ x = trampoline := by
  obtain ⟨hs,-,hhas,hown⟩ := of_space hm hh
  rcases hx with hx | ⟨v,e,hv,he,rfl⟩
  · exact .inl ((hown x).mpr (List.mem_cons_of_mem _ (List.mem_append_left _ hx)))
  by_cases hlt : v < npages p.sz
  · refine .inl ((hown _).mpr (List.mem_cons_of_mem _ (List.mem_append_right _ ?_)))
    exact mem_leafPages.mpr ⟨v,e,hlt,by rw [Nat.zero_add]; exact he,rfl⟩
  by_cases htf : v = trapPage
  · subst htf
    rw [hs.shape.trapframe] at he
    cases he
    rw [(hhas p.trapframe List.mem_cons_self).PTE2PA (by decide)]
    exact .inl ((hown _).mpr List.mem_cons_self)
  by_cases htp : v = trapPage + 1
  · subst htp
    rw [hs.shape.trampoline] at he
    cases he
    exact .inr htr
  · rw [hs.shape.high v (by omega) hv htf htp] at he
    cases he

theorem twoProcesses_space : ∃ (m m' : Machine) (p q : Space), m.HasSpace forkRam 0x2000 p ∅ ∧
    m.HasSpace forkRam 0x2000 q ∅ ∧ q.sz = 0 ∧
    (∀ x, m.Reaches p.pagetable x → x ∉ m.freelist ∧ x ∉ m.nodes 2 q.pagetable) ∧
    (uvmcopy p.pagetable q.pagetable 1).run (exec forkRam) m = .ok (0,m') := by
  have hcopy : ((twoProcesses.bind fun r => r.elim (pure 1) fun r => uvmcopy r.1.pagetable r.2.pagetable 1).run
      (exec forkRam) forkMachine).toOption.map Prod.fst = some 0 := by
    decide +kernel
  rcases run_of_must forkMachine_agrees (twoProcesses_le (X := fun _ => False) (by decide) _ rfl) with
    ⟨r,m,h,hrun,hr,hm,-⟩ | ⟨q,-,hq⟩
  · obtain ⟨m',hr'⟩ := run_bind_fst hrun hcopy
    cases r with
    | none => cases hr'
    | some r =>
      obtain ⟨hsz,f,g,hf,hg,hfg,rfl⟩ := fact_mul_iff.mp hr
      obtain ⟨hq,-,hhas,hown⟩ := of_space (hm.right hfg) hg
      have hnode : ∀ x ∈ m.nodes 2 r.2.pagetable, x ∈ m.spacePages r.2 := fun x hx =>
        List.mem_cons_of_mem _ (List.mem_append_left _ hx)
      have hout : ∀ x, f x ≠ none ∨ x = 0x2000 → x ∉ m.freelist ∧ x ∉ m.nodes 2 r.2.pagetable := by
        rintro x (hx | rfl)
        · refine ⟨fun hfree => hx (hm.sub.free x hfree).2,fun hn => ?_⟩
          exact (hown x).mpr (hnode x hn) (hfg.none_of_ne hx)
        · have hno : ¬forkRam.Has 0x2000 := by simp [Ram.Has,forkRam]
          exact ⟨fun hfree => hno (hm.free _ hfree).1,fun hn => hno (hhas _ (hnode _ hn))⟩
      exact ⟨m,m',r.1,r.2,(of_space hm.sub hf).1,hq,hsz,
        fun x hx => hout x (hm.sub.reaches hf (by decide) hx),hr'⟩
  · exact hq.elim

/-- The first page of the first process is copied. -/
theorem fork_copies_page : ∃ (m m' : Machine) (p q : Space) (b : Byte),
    (uvmcopy p.pagetable q.pagetable 1).run (exec forkRam) m = .ok (0,m') ∧
      m.byte p.pagetable 4095 = some b ∧ m'.byte q.pagetable 4095 = some b := by
  obtain ⟨m,m',p,q,hm,hq,hsz,hout,hr⟩ := twoProcesses_space
  obtain ⟨e,e',b,-,-,-,h₁,h₂,-⟩ := (fork_copies (by decide) hm hq hsz hout hr).1 4095 (by decide)
  exact ⟨m,m',p,q,b,hr,h₁,h₂⟩

/-- When memory runs out, `uvmalloc` and `uvmcopy` give back what they took and leave the mappings as they were. -/
theorem failed_growth_undone (hpages : ram.pages < trapPage) (hm : m.HasSpace ram trampoline p guard) :
    (∀ newsz perm, p.sz ≤ newsz → perm.toNat < 1024 → ∃ r m',
      (uvmalloc p.pagetable p.sz newsz perm).run (exec ram) m = .ok (r,m') ∧
        (r = 0 → Undone m m' p.pagetable (npages p.sz))) ∧
    (∀ (n : BitVec 32) m', 0 < n.toInt →
      (uvmalloc p.pagetable p.sz ((p.sz + n.toNat) % 2 ^ 64) PTE_W).run (exec ram) m = .ok (0,m') →
      (growproc p n).run (exec ram) m = .ok ((-1,p),m')) ∧
    ∀ q guard' sz m', m.Pair ram trampoline p guard q guard' → q.sz = 0 →
      (uvmcopy p.pagetable q.pagetable sz).run (exec ram) m = .ok (-1,m') →
      (∀ v, v < trapPage → m'.get 2 q.pagetable v = none) ∧ Undone m m' q.pagetable 0 := by
  refine ⟨fun newsz perm hle hperm => hm.run_uvmalloc hpages hperm hle,fun n m' hn hr => ?_,
    fun q guard' sz m' hpair hq hr => ?_⟩
  · rw [growproc,if_pos hn]
    exact Prog.run_bind_ok hr
  · obtain ⟨g,hc⟩ := hpair.run_uvmcopy hq hpages hr
    obtain ⟨M',h,-⟩ | ⟨-,hs⟩ := hc.new
    · cases h
    · have hu : Undone m m' q.pagetable 0 := by
        refine hs.undone (Nat.zero_le _) (fun v hv => absurd hv (Nat.not_lt_zero v)) ?_ hc.all
        have := hpair.right.leaves
        rwa [hq] at this
      refine ⟨fun v hv => ?_,hu⟩
      have := hpair.right.shape.user.high v (by rw [hq]; exact Nat.zero_le v) hv
      rw [trapPage_eq] at hv
      rw [hu.leaves v (by omega),this]

/-- There is no room for ten pages more. -/
theorem failed_growth_undone_first : ∃ (m m' : Machine) (p : Space),
    (uvmalloc p.pagetable p.sz 40960 PTE_W).run (exec firstRam) m = .ok (0,m') ∧ Undone m m' p.pagetable (npages p.sz) := by
  have hfail : (((firstProcess 4097).bind fun r => r.elim (pure 1) fun p => uvmalloc p.pagetable p.sz 40960 PTE_W).run
      (exec firstRam) firstMachine).toOption.map Prod.fst = some 0 := by
    decide +kernel
  obtain ⟨m,p,hrun,hm,hn⟩ := firstProcess_space
  obtain ⟨m',hr⟩ := run_bind_fst hrun hfail
  have hr : (uvmalloc p.pagetable p.sz 40960 PTE_W).run (exec firstRam) m = .ok (0,m') := hr
  have hle : p.sz ≤ 40960 := by
    simp only [npages,PGSIZE] at hn
    omega
  obtain ⟨r,m₁,hr₁,hundone⟩ := (failed_growth_undone (by decide) hm).1 40960 PTE_W hle (by decide)
  rw [hr] at hr₁
  cases hr₁
  exact ⟨m,m',p,hr,hundone rfl⟩

end Machine

end Xv6.Vm
