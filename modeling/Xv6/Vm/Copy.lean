import Xv6.Vm.Layout

/-! # `copyout` and `copyin`

A page of the user is reached through the page table only. So what the two functions move is
said in terms of user addresses, and the rest of physical memory stays as it is.
-/
namespace Xv6.Vm
open Library

/-- The page of an address is below `MAXVA`, mapped, and its entry allows the access. -/
def Accessible (ok : BitVec 64 → Prop) (M : ℕ → Option (BitVec 64)) (a : ℕ) : Prop :=
  a < MAXVA ∧ ∃ e, M (a / PGSIZE) = some e ∧ ok e

def readable (e : BitVec 64) : Prop := e &&& PTE_U ≠ 0

def writable (e : BitVec 64) : Prop := e &&& PTE_U ≠ 0 ∧ e &&& PTE_W ≠ 0

theorem Accessible.same_page {ok : BitVec 64 → Prop} {M : ℕ → Option (BitVec 64)} {a b : ℕ} (h : Accessible ok M a)
    (hab : b / PGSIZE = a / PGSIZE) : Accessible ok M b := by
  refine ⟨?_,hab ▸ h.2⟩
  have := h.1
  simp only [MAXVA,PGSIZE] at this hab ⊢
  omega

theorem Accessible.read {M : ℕ → Option (BitVec 64)} {a : ℕ} (h : Accessible writable M a) : Accessible readable M a :=
  ⟨h.1,h.2.imp fun _ h => ⟨h.1,h.2.1⟩⟩

namespace Machine
variable {ram : Ram} {m m' : Machine} {root : ℕ}

theorem mem_set_self {pa : ℕ} {q : Page} : (m.set pa q).mem pa = q := Function.update_self ..

theorem mem_set_of_ne {x pa : ℕ} {q : Page} (h : x ≠ pa) : (m.set pa q).mem x = m.mem x := Function.update_of_ne h ..

def phys (m : Machine) (root a : ℕ) : Option (ℕ × ℕ) :=
  (m.get 2 root (a / PGSIZE)).map fun e => (PTE2PA e,a % PGSIZE)

def byte (m : Machine) (root a : ℕ) : Option Byte := (m.phys root a).map fun q => (m.mem q.1).get q.2

/-- `bs` has been written at user address `a`, and nothing else. -/
structure Wrote (m : Machine) (root a : ℕ) (bs : List Byte) (m' : Machine) : Prop where
  freelist : m'.freelist = m.freelist
  table : m'.get 2 root = m.get 2 root
  written : ∀ i b, bs[i]? = some b → m'.byte root (a + i) = some b
  other : ∀ pa j, (∀ i, i < bs.length → m.phys root (a + i) ≠ some (pa,j)) → (m'.mem pa).get j = (m.mem pa).get j

theorem Wrote.nil (a : ℕ) : Wrote m root a [] m := ⟨rfl,rfl,fun _ _ h => by simp at h,fun _ _ _ => rfl⟩

theorem Wrote.phys {a : ℕ} {bs : List Byte} (h : Wrote m root a bs m') : m'.phys root = m.phys root := by
  funext b
  rw [Machine.phys,Machine.phys,h.table]

theorem Wrote.append {a : ℕ} {bs cs : List Byte} {m₁ : Machine} (h₁ : Wrote m root a bs m₁)
    (h₂ : Wrote m₁ root (a + bs.length) cs m')
    (hinj : ∀ i j, i < bs.length → j < cs.length → m.phys root (a + i) ≠ m.phys root (a + bs.length + j)) :
    Wrote m root a (bs ++ cs) m' := by
  refine ⟨h₂.freelist.trans h₁.freelist,h₂.table.trans h₁.table,fun i b hb => ?_,fun pa j hout => ?_⟩
  · rcases Nat.lt_or_ge i bs.length with hi | hi
    · rw [List.getElem?_append_left hi] at hb
      have hw := h₁.written i b hb
      simp only [byte,h₂.phys,h₁.phys,Option.map_eq_some_iff] at hw ⊢
      obtain ⟨q,hq,hqb⟩ := hw
      refine ⟨q,hq,?_⟩
      rw [← hqb]
      refine h₂.other q.1 q.2 fun j hj hphys => hinj i j hi hj ?_
      rw [h₁.phys] at hphys
      rw [hq,hphys]
    · rw [List.getElem?_append_right hi] at hb
      have := h₂.written (i - bs.length) b hb
      rwa [show a + bs.length + (i - bs.length) = a + i by omega] at this
  · simp only [List.length_append] at hout
    rw [h₂.other pa j fun i hi => ?_,h₁.other pa j fun i hi => hout i (by omega)]
    rw [h₁.phys,Nat.add_assoc]
    exact hout _ (by omega)

theorem nodes_congr {l pt : ℕ} (h : ∀ x ∈ m.nodes l pt, m'.mem x = m.mem x) :
    m'.nodes l pt = m.nodes l pt ∧ m'.get l pt = m.get l pt := by
  induction l generalizing pt with
  | zero =>
    refine ⟨rfl,funext fun v => ?_⟩
    rw [get,get,h pt (by simp [nodes])]
  | succ l ih =>
    have hpt : m'.mem pt = m.mem pt := h pt (by simp [nodes])
    have hkid : ∀ i, Page.pte (m.mem pt) i &&& PTE_V ≠ 0 →
        m'.nodes l (PTE2PA (Page.pte (m.mem pt) i)) = m.nodes l (PTE2PA (Page.pte (m.mem pt) i)) ∧
          m'.get l (PTE2PA (Page.pte (m.mem pt) i)) = m.get l (PTE2PA (Page.pte (m.mem pt) i)) := by
      intro i hi
      refine ih fun x hx => h x ?_
      rw [nodes_succ,List.mem_cons,List.mem_flatMap]
      exact .inr ⟨i,List.mem_finRange i,by rwa [kidNodes,if_pos hi]⟩
    constructor
    · have hkids : m'.kidNodes l pt = m.kidNodes l pt := by
        funext i
        rw [kidNodes,kidNodes,hpt]
        split
        · rename_i hi
          exact (hkid i hi).1
        · rfl
      rw [nodes_succ,nodes_succ,hkids]
    · funext v
      rw [get,get,hpt]
      split
      · rename_i hi
        rw [(hkid _ hi).2]
      · rfl

section Space
variable {trampoline : ℕ} {p : Space} {guard : Set ℕ} {M : ℕ → Option (BitVec 64)} {ok : BitVec 64 → Prop} {e : BitVec 64}

theorem HasSpace.page (hm : m.HasSpace ram trampoline p guard) {v : ℕ} (hv : v < 2 ^ 27)
    (he : m.get 2 p.pagetable v = some e) (hU : e &&& PTE_U ≠ 0) :
    ram.Has (PTE2PA e) ∧ PTE2PA e ∉ m.nodes 2 p.pagetable ∧ PTE2PA e ∉ m.freelist :=
  hm.leaves.page v e (hm.shape.lt_of_user hv he hU) (by rwa [Nat.zero_add])

theorem vpage_lt {a : ℕ} (ha : a < MAXVA) : a / PGSIZE < 2 ^ 27 := by
  simp only [MAXVA,PGSIZE] at ha ⊢
  omega

theorem HasSpace.phys_ne (hm : m.HasSpace ram trampoline p guard) {a b : ℕ}
    (ha : Accessible readable (m.get 2 p.pagetable) a) (hb : Accessible readable (m.get 2 p.pagetable) b) (hab : a ≠ b) :
    m.phys p.pagetable a ≠ m.phys p.pagetable b := by
  obtain ⟨ha,e,he,hU⟩ := ha
  obtain ⟨hb,e',he',hU'⟩ := hb
  have hlt := hm.shape.lt_of_user (vpage_lt ha) he hU
  have hlt' := hm.shape.lt_of_user (vpage_lt hb) he' hU'
  intro h
  rw [phys,phys,he,he',Option.map_some,Option.map_some] at h
  obtain ⟨hpa,hoff⟩ := Prod.mk.inj (Option.some.inj h)
  have hpage := hm.leaves.inj _ _ e e' hlt hlt' (by rw [Nat.zero_add]; exact he)
    (by rw [Nat.zero_add]; exact he') hpa
  refine hab ?_
  rw [← Nat.div_add_mod a PGSIZE,← Nat.div_add_mod b PGSIZE,hpage,hoff]

theorem HasSpace.same (hm : m.HasSpace ram trampoline p guard) (hmem : ∀ x ∈ m.nodes 2 p.pagetable, m'.mem x = m.mem x)
    (hnodup : m'.freelist.Nodup) (hfree : ∀ x ∈ m'.freelist, ram.Has x ∧ x ∉ m.pages p.pagetable (npages p.sz)) :
    m'.HasSpace ram trampoline p guard ∧ m'.get 2 p.pagetable = m.get 2 p.pagetable := by
  obtain ⟨hnodes,hget⟩ := nodes_congr hmem
  refine ⟨⟨⟨?_,hnodup,fun x hx => ?_⟩,⟨fun k e hk he => ?_,?_⟩,?_⟩,hget⟩
  · rw [hnodes]
    exact hm.clear.tree
  · rw [hnodes]
    exact ⟨(hfree x hx).1,fun hn => (hfree x hx).2 (List.mem_append_left _ hn)⟩
  · rw [hget] at he
    obtain ⟨h₁,h₂,-⟩ := hm.leaves.page k e hk he
    rw [hnodes]
    exact ⟨h₁,h₂,fun hx => (hfree _ hx).2 (List.mem_append_right _ (mem_leafPages.mpr ⟨k,e,hk,he,rfl⟩))⟩
  · rw [hget]
    exact hm.leaves.inj
  · rw [hget]
    exact hm.shape

theorem HasSpace.congr (hm : m.HasSpace ram trampoline p guard) (hfree : m'.freelist = m.freelist)
    (hmem : ∀ x ∈ m.nodes 2 p.pagetable, m'.mem x = m.mem x) :
    m'.HasSpace ram trampoline p guard ∧ m'.get 2 p.pagetable = m.get 2 p.pagetable := by
  refine hm.same hmem (hfree ▸ hm.clear.nodup) fun x hx => ?_
  rw [hfree] at hx
  exact ⟨(hm.clear.free x hx).1,fun hn => hm.clear.not_free hm.leaves hn hx⟩

theorem HasSpace.set (hm : m.HasSpace ram trampoline p guard) {v : ℕ} {q : Page} (hv : v < 2 ^ 27)
    (he : m.get 2 p.pagetable v = some e) (hU : e &&& PTE_U ≠ 0) :
    (m.set (PTE2PA e) q).HasSpace ram trampoline p guard ∧
      (m.set (PTE2PA e) q).get 2 p.pagetable = m.get 2 p.pagetable :=
  hm.congr rfl fun _ hx => mem_set_of_ne fun h => (hm.page hv he hU).2.1 (h ▸ hx)

theorem run_poke {pa off : ℕ} {bs : List Byte} (h : off + bs.length ≤ PGSIZE) :
    (poke pa off bs).run (exec ram) m = .ok ((),m.set pa ((m.mem pa).splice off bs)) := by
  simp only [poke,Prog.call,Prog.run,exec,if_pos h]

theorem run_peek {pa off n : ℕ} (h : off + n ≤ PGSIZE) :
    (peek pa off n).run (exec ram) m = .ok ((m.mem pa).slice off n,m) := by
  simp only [peek,Prog.call,Prog.run,exec,if_pos h]

theorem phys_add {a i : ℕ} (he : m.get 2 root (a / PGSIZE) = some e) (hi : a % PGSIZE + i < PGSIZE) :
    m.phys root (a + i) = some (PTE2PA e,a % PGSIZE + i) := by
  have hdiv : (a + i) / PGSIZE = a / PGSIZE := by
    simp only [PGSIZE] at hi ⊢
    omega
  have hmod : (a + i) % PGSIZE = a % PGSIZE + i := by
    simp only [PGSIZE] at hi ⊢
    omega
  rw [phys,hdiv,he,hmod]
  rfl

theorem HasSpace.wrote (hm : m.HasSpace ram trampoline p guard) {a : ℕ} (bs : List Byte)
    (ha : a < MAXVA) (he : m.get 2 p.pagetable (a / PGSIZE) = some e) (hU : e &&& PTE_U ≠ 0)
    (hlen : a % PGSIZE + bs.length ≤ PGSIZE) :
    Wrote m p.pagetable a bs (m.set (PTE2PA e) ((m.mem (PTE2PA e)).splice (a % PGSIZE) bs)) := by
  obtain ⟨-,hget⟩ := hm.set (q := (m.mem (PTE2PA e)).splice (a % PGSIZE) bs) (vpage_lt ha) he hU
  refine ⟨rfl,hget,fun i b hb => ?_,fun pa j hout => ?_⟩
  · obtain ⟨hi,rfl⟩ := List.getElem?_eq_some_iff.mp hb
    rw [byte,phys_add (by rw [hget]; exact he) (by omega),Option.map_some,mem_set_self]
    rw [Bytes.get_splice _ _ _ (by simp only [PGSIZE] at hlen ⊢; omega),if_pos (by omega),Nat.add_sub_cancel_left]
    simp [hi]
  · by_cases hpa : pa = PTE2PA e
    · subst hpa
      rw [mem_set_self,Bytes.get_splice_outside]
      by_contra hj
      have := hout (j - a % PGSIZE) (by omega)
      rw [phys_add he (by omega)] at this
      exact this (by rw [show a % PGSIZE + (j - a % PGSIZE) = j by omega])
    · rw [mem_set_of_ne hpa]

theorem byte_slice {a n i : ℕ} {b : Byte} (he : m.get 2 root (a / PGSIZE) = some e)
    (hn : a % PGSIZE + n ≤ PGSIZE) (hb : ((m.mem (PTE2PA e)).slice (a % PGSIZE) n)[i]? = some b) :
    m.byte root (a + i) = some b := by
  obtain ⟨hi,rfl⟩ := List.getElem?_eq_some_iff.mp hb
  rw [Bytes.length_slice] at hi
  rw [byte,phys_add he (by omega),Option.map_some]
  simp [Bytes.slice]

/-- What a transfer of `len` bytes at `a` reports: all of them moved, or `k`, up to a page that
cannot be accessed. -/
def Moved (ok : BitVec 64 → Prop) (M : ℕ → Option (BitVec 64)) (a len : ℕ) (r : ℤ) (k : ℕ) : Prop :=
  (∀ b, a ≤ b → b < a + k → Accessible ok M b) ∧
    (r = 0 ∧ k = len ∨ r = -1 ∧ k < len ∧ (k = 0 ∨ (a + k) % PGSIZE = 0) ∧ ¬Accessible ok M (a + k))

theorem Moved.zero_iff {a len k : ℕ} {r : ℤ}
    (h : Moved ok M a len r k) : r = 0 ↔ ∀ b, a ≤ b → b < a + len → Accessible ok M b := by
  obtain ⟨hk,h⟩ := h
  rcases h with ⟨rfl,rfl⟩ | ⟨rfl,hlt,-,hno⟩
  · exact ⟨fun _ => hk,fun _ => rfl⟩
  · exact ⟨fun h => absurd h (by decide),fun h => absurd (h _ (by omega) (by omega)) hno⟩

theorem Moved.stop {a len : ℕ} (hlen : 0 < len)
    (h : ¬Accessible ok M a) : Moved ok M a len (-1) 0 :=
  ⟨fun b h₁ h₂ => by omega,.inr ⟨rfl,hlen,.inl rfl,h⟩⟩

theorem Moved.within {a len : ℕ} (ha : Accessible ok M a)
    (hle : len ≤ PGSIZE - a % PGSIZE) : Moved ok M a len 0 len := by
  refine ⟨fun b h₁ h₂ => ha.same_page ?_,.inl ⟨rfl,rfl⟩⟩
  simp only [PGSIZE] at hle ⊢
  omega

theorem Moved.step {a n len k : ℕ} {r : ℤ}
    (hn : n = PGSIZE - a % PGSIZE) (ha : Accessible ok M a) (hlt : n < len)
    (h : Moved ok M (a + n) (len - n) r k) : Moved ok M a len r (n + k) := by
  obtain ⟨hk,h⟩ := h
  refine ⟨fun b h₁ h₂ => ?_,?_⟩
  · rcases Nat.lt_or_ge b (a + n) with hb | hb
    · refine ha.same_page ?_
      simp only [PGSIZE] at hn ⊢
      omega
    · exact hk b hb (by omega)
  · rcases h with ⟨hr,rfl⟩ | ⟨hr,hklt,hpage,hno⟩
    · exact .inl ⟨hr,by omega⟩
    · rw [Nat.add_assoc] at hno hpage
      refine .inr ⟨hr,by omega,.inr ?_,hno⟩
      rcases hpage with rfl | hpage
      · simp only [PGSIZE] at hn ⊢
        omega
      · exact hpage

theorem get_rounded {a : ℕ} : m.get 2 root (a / PGSIZE) =
    (m.slot (PGROUNDDOWN a) 2 root).bind fun q => valid (Page.pte (m.mem q.1) q.2) := by
  rw [← get_slot,PGROUNDDOWN,Nat.mul_div_cancel _ (by decide)]

theorem copyoutLoop_nil {fuel a : ℕ} : copyoutLoop root fuel a [] = pure 0 := by
  cases fuel <;> rfl

theorem HasSpace.run_copyoutLoop (hm : m.HasSpace ram trampoline p guard) {fuel a : ℕ} {src : List Byte}
    (hfuel : src.length ≤ fuel) :
    ∃ r m' k, (copyoutLoop p.pagetable fuel a src).run (exec ram) m = .ok (r,m') ∧
      Moved writable (m.get 2 p.pagetable) a src.length r k ∧ Wrote m p.pagetable a (src.take k) m' := by
  induction fuel generalizing m a src with
  | zero =>
    obtain rfl : src = [] := List.length_eq_zero_iff.mp (by omega)
    exact ⟨0,m,0,rfl,⟨fun b h₁ h₂ => by omega,.inl ⟨rfl,rfl⟩⟩,.nil a⟩
  | succ fuel ih =>
    by_cases hsrc : src = []
    · subst hsrc
      exact ⟨0,m,0,by rw [copyoutLoop_nil]; rfl,⟨fun b h₁ h₂ => by omega,.inl ⟨rfl,rfl⟩⟩,.nil a⟩
    have hlen : 0 < src.length := List.length_pos_iff.mpr hsrc
    rw [copyoutLoop,if_neg hsrc]
    by_cases hmax : PGROUNDDOWN a ≥ MAXVA
    · rw [if_pos hmax]
      refine ⟨-1,m,0,rfl,.stop hlen fun h => ?_,.nil a⟩
      have := h.1
      simp only [PGROUNDDOWN,PGSIZE,MAXVA] at hmax this
      omega
    rw [if_neg hmax,Prog.bind_eq,Prog.run_bind_ok (run_walk m p.pagetable (by omega))]
    have hget : m.get 2 p.pagetable (a / PGSIZE) = _ := get_rounded
    cases hs : m.slot (PGROUNDDOWN a) 2 p.pagetable with
    | none =>
      refine ⟨-1,m,0,rfl,.stop hlen fun h => ?_,.nil a⟩
      obtain ⟨_,e,he,_⟩ := h
      rw [hget,hs] at he
      cases he
    | some q =>
      obtain ⟨t,i⟩ := q
      rw [hs,Option.bind_some] at hget
      dsimp only
      rw [Prog.bind_eq,Prog.run_bind_ok (run_load m t i)]
      split
      · rename_i hbad
        refine ⟨-1,m,0,rfl,.stop hlen fun h => ?_,.nil a⟩
        obtain ⟨_,e,he,hU,hW⟩ := h
        rw [hget,valid_eq_some] at he
        obtain ⟨hV,rfl⟩ := he
        exact hbad.elim hV (Or.rec hU hW)
      · rename_i hok
        simp only [not_or] at hok
        have he := hget.trans (valid_eq_some.mpr ⟨hok.1,rfl⟩)
        have ha : a < MAXVA := by
          simp only [PGROUNDDOWN,PGSIZE,MAXVA] at hmax ⊢
          omega
        have hacc : Accessible writable (m.get 2 p.pagetable) a := ⟨ha,_,he,hok.2⟩
        have hoff : a - PGROUNDDOWN a = a % PGSIZE := by
          simp only [PGROUNDDOWN,PGSIZE]
          omega
        have hmod : a % PGSIZE < PGSIZE := Nat.mod_lt _ (by decide)
        rw [hoff]
        generalize hn : min (PGSIZE - a % PGSIZE) src.length = n
        have htake : (src.take n).length = n := by
          rw [List.length_take]
          omega
        have hwrote := hm.wrote (src.take n) ha he hok.2.1 (by omega)
        obtain ⟨hm₁,hget₁⟩ := hm.set (q := (m.mem _).splice (a % PGSIZE) (src.take n)) (vpage_lt ha) he hok.2.1
        rw [Prog.bind_eq,Prog.run_bind_ok (run_poke (by omega))]
        by_cases hle : src.length ≤ PGSIZE - a % PGSIZE
        · obtain rfl : n = src.length := by omega
          rw [List.drop_length,copyoutLoop_nil]
          exact ⟨0,_,_,rfl,.within hacc hle,hwrote⟩
        · have hn : n = PGSIZE - a % PGSIZE := by omega
          have hnext : PGROUNDDOWN a + PGSIZE = a + n := by
            simp only [PGROUNDDOWN,PGSIZE] at hn ⊢
            omega
          have hdrop : (src.drop n).length ≤ fuel := by
            rw [List.length_drop]
            omega
          obtain ⟨r,m',k,hrun,hmoved,hrest⟩ := ih hm₁ (a := a + n) hdrop
          rw [hget₁,List.length_drop] at hmoved
          refine ⟨r,m',n + k,by rw [hnext]; exact hrun,.step hn hacc (by omega) hmoved,?_⟩
          rw [List.take_add]
          refine hwrote.append (by rwa [htake]) fun i j hi hj => ?_
          rw [htake] at hi ⊢
          have hk : j < k := by
            rw [List.length_take] at hj
            omega
          refine hm.phys_ne (hacc.same_page ?_).read (hmoved.1 _ (by omega) (by omega)).read (by omega)
          simp only [PGSIZE] at hn hmod ⊢
          omega

theorem userAddr_cases (hpa : ∀ v e, v < 2 ^ 27 → m.get 2 root v = some e → readable e → PTE2PA e ≠ 0) (a : ℕ) :
    Vm.userAddr (m.get 2 root) (PGROUNDDOWN a) = 0 ∧ ¬Accessible readable (m.get 2 root) a ∨
      ∃ e, Vm.userAddr (m.get 2 root) (PGROUNDDOWN a) = PTE2PA e ∧ PTE2PA e ≠ 0 ∧ a < MAXVA ∧
        m.get 2 root (a / PGSIZE) = some e ∧ readable e := by
  have hdiv : PGROUNDDOWN a / PGSIZE = a / PGSIZE := Nat.mul_div_cancel _ (by decide)
  have hmax : PGROUNDDOWN a < MAXVA ↔ a < MAXVA := by
    simp only [PGROUNDDOWN,PGSIZE,MAXVA]
    omega
  rw [Vm.userAddr,hdiv]
  simp only [hmax]
  by_cases ha : a < MAXVA
  · rw [if_pos ha]
    cases he : m.get 2 root (a / PGSIZE) with
    | none =>
      refine .inl ⟨rfl,fun h => ?_⟩
      obtain ⟨_,e,he',_⟩ := h
      rw [he] at he'
      cases he'
    | some e =>
      by_cases hU : e &&& PTE_U = 0
      · refine .inl ⟨if_pos hU,fun h => ?_⟩
        obtain ⟨_,e',he',hU'⟩ := h
        rw [he] at he'
        exact hU' (Option.some.inj he' ▸ hU)
      · exact .inr ⟨e,if_neg hU,hpa _ e (vpage_lt ha) he hU,ha,rfl,hU⟩
  · exact .inl ⟨if_neg ha,fun h => ha h.1⟩

theorem HasSpace.pa_ne_zero (hm : m.HasSpace ram trampoline p guard) (v : ℕ) (e : BitVec 64) (hv : v < 2 ^ 27)
    (he : m.get 2 p.pagetable v = some e) (hU : readable e) : PTE2PA e ≠ 0 := by
  have := (hm.page hv he hU).1.2.1
  have := ram.pos
  omega

theorem copyinLoop_zero {fuel a : ℕ} : copyinLoop root fuel a 0 = pure (0,[]) := by
  cases fuel <;> rfl

theorem HasSpace.run_copyinLoop (hm : m.HasSpace ram trampoline p guard) {fuel a len : ℕ} (hfuel : len ≤ fuel) :
    ∃ r bs, (copyinLoop p.pagetable fuel a len).run (exec ram) m = .ok ((r,bs),m) ∧
      Moved readable (m.get 2 p.pagetable) a len r bs.length ∧
        ∀ i b, bs[i]? = some b → m.byte p.pagetable (a + i) = some b := by
  induction fuel generalizing a len with
  | zero =>
    obtain rfl : len = 0 := by omega
    exact ⟨0,[],rfl,⟨fun b h₁ h₂ => by simp at h₂; omega,.inl ⟨rfl,rfl⟩⟩,by simp⟩
  | succ fuel ih =>
    by_cases hlen : len = 0
    · subst hlen
      exact ⟨0,[],by rw [copyinLoop_zero]; rfl,⟨fun b h₁ h₂ => by simp at h₂; omega,.inl ⟨rfl,rfl⟩⟩,by simp⟩
    rw [copyinLoop,if_neg hlen]
    dsimp only
    rw [Prog.bind_eq,Prog.run_bind_ok (run_walkaddr m p.pagetable (PGROUNDDOWN a))]
    rcases userAddr_cases hm.pa_ne_zero a with ⟨hzero,hno⟩ | ⟨e,haddr,hne,ha,he,hU⟩
    · rw [if_pos hzero]
      exact ⟨-1,[],rfl,.stop (by omega) hno,by simp⟩
    · have hacc : Accessible readable (m.get 2 p.pagetable) a := ⟨ha,e,he,hU⟩
      have hoff : a - PGROUNDDOWN a = a % PGSIZE := by
        simp only [PGROUNDDOWN,PGSIZE]
        omega
      have hmod : a % PGSIZE < PGSIZE := Nat.mod_lt _ (by decide)
      rw [haddr,if_neg hne,hoff]
      generalize hn : min (PGSIZE - a % PGSIZE) len = n
      rw [Prog.bind_eq,Prog.run_bind_ok (run_peek (by omega)),Prog.bind_eq]
      have hbytes : ∀ i b, ((m.mem (PTE2PA e)).slice (a % PGSIZE) n)[i]? = some b → m.byte p.pagetable (a + i) = some b :=
        fun i b hb => byte_slice he (by omega) hb
      by_cases hle : len ≤ PGSIZE - a % PGSIZE
      · obtain rfl : n = len := by omega
        rw [Nat.sub_self,copyinLoop_zero]
        refine ⟨0,(m.mem (PTE2PA e)).slice (a % PGSIZE) n,?_,?_,hbytes⟩
        · rw [Prog.pure_eq,Prog.ret_bind]
          simp
        · rw [Bytes.length_slice]
          exact .within hacc hle
      · have hn : n = PGSIZE - a % PGSIZE := by omega
        have hnext : PGROUNDDOWN a + PGSIZE = a + n := by
          simp only [PGROUNDDOWN,PGSIZE] at hn ⊢
          omega
        obtain ⟨r,bs,hrun,hmoved,hrest⟩ := ih (a := a + n) (show len - n ≤ fuel by omega)
        rw [hnext,Prog.run_bind_ok hrun]
        refine ⟨r,(m.mem (PTE2PA e)).slice (a % PGSIZE) n ++ bs,rfl,?_,fun i b hb => ?_⟩
        · rw [List.length_append,Bytes.length_slice]
          exact .step hn hacc (by omega) hmoved
        · rcases Nat.lt_or_ge i n with hi | hi
          · rw [List.getElem?_append_left (by rwa [Bytes.length_slice])] at hb
            exact hbytes i b hb
          · rw [List.getElem?_append_right (by rwa [Bytes.length_slice]),Bytes.length_slice] at hb
            have := hrest _ b hb
            rwa [show a + n + (i - n) = a + i by omega] at this

theorem Wrote.hasSpace {a : ℕ} {bs : List Byte} (h : Wrote m p.pagetable a bs m')
    (hm : m.HasSpace ram trampoline p guard) (hbs : ∀ i, i < bs.length → Accessible readable (m.get 2 p.pagetable) (a + i)) :
    m'.HasSpace ram trampoline p guard := by
  refine (hm.congr h.freelist fun x hx => Bytes.ext_get fun j _ => h.other x j fun i hi hphys => ?_).1
  obtain ⟨hlt,e,he,hU⟩ := hbs i hi
  rw [Machine.phys,he,Option.map_some] at hphys
  obtain ⟨rfl,-⟩ := Prod.mk.inj (Option.some.inj hphys)
  exact (hm.page (vpage_lt hlt) he hU).2.1 hx

/-- `copyout` and `copyin` reach the bytes of the process that its page table lets it reach, and no others; what was copied
out can be copied in. -/
theorem user_memory_access (hm : m.HasSpace ram trampoline p guard) :
    (∀ dstva src, ∃ r m' k, (copyout p.pagetable dstva src).run (exec ram) m = .ok (r,m') ∧
      (r = 0 ↔ ∀ a, dstva ≤ a → a < dstva + src.length → Accessible writable (m.get 2 p.pagetable) a) ∧
      Moved writable (m.get 2 p.pagetable) dstva src.length r k ∧ Wrote m p.pagetable dstva (src.take k) m') ∧
    (∀ srcva len, ∃ r bs, (copyin p.pagetable srcva len).run (exec ram) m = .ok ((r,bs),m) ∧
      (r = 0 ↔ ∀ a, srcva ≤ a → a < srcva + len → Accessible readable (m.get 2 p.pagetable) a) ∧
      Moved readable (m.get 2 p.pagetable) srcva len r bs.length ∧
      ∀ i b, bs[i]? = some b → m.byte p.pagetable (srcva + i) = some b) ∧
    ∀ dstva src m', (copyout p.pagetable dstva src).run (exec ram) m = .ok (0,m') →
      (copyin p.pagetable dstva src.length).run (exec ram) m' = .ok ((0,src),m') := by
  have hout := fun dstva (src : List Byte) => hm.run_copyoutLoop (a := dstva) (le_refl src.length)
  refine ⟨fun dstva src => ?_,fun srcva len => ?_,fun dstva src m' hrun => ?_⟩
  · obtain ⟨r,m',k,hrun,hmoved,hwrote⟩ := hout dstva src
    exact ⟨r,m',k,hrun,hmoved.zero_iff,hmoved,hwrote⟩
  · obtain ⟨r,bs,hrun,hmoved,hbytes⟩ := hm.run_copyinLoop (a := srcva) (le_refl len)
    exact ⟨r,bs,hrun,hmoved.zero_iff,hmoved,hbytes⟩
  · obtain ⟨r,m₁,k,hrun₁,hmoved,hwrote⟩ := hout dstva src
    rw [copyout] at hrun
    rw [hrun] at hrun₁
    cases hrun₁
    have hall := hmoved.zero_iff.mp rfl
    obtain rfl : k = src.length := by
      rcases hmoved.2 with ⟨-,hk⟩ | ⟨hr,-⟩
      · exact hk
      · cases hr
    rw [List.take_length] at hwrote
    have hm' := hwrote.hasSpace hm fun i hi => (hall _ (by omega) (by omega)).read
    obtain ⟨r,bs,hin,hmoved',hbytes⟩ := hm'.run_copyinLoop (a := dstva) (le_refl src.length)
    rw [hwrote.table] at hmoved'
    obtain rfl : r = 0 := hmoved'.zero_iff.mpr fun a h₁ h₂ => (hall a h₁ h₂).read
    have hlen : bs.length = src.length := by
      rcases hmoved'.2 with ⟨-,hk⟩ | ⟨hr,-⟩
      · exact hk
      · cases hr
    have hbs : bs = src := by
      apply List.ext_getElem hlen
      intro i h₁ h₂
      have hb := hbytes i _ (List.getElem?_eq_getElem h₁)
      rw [hwrote.written i _ (List.getElem?_eq_getElem h₂)] at hb
      exact (Option.some.inj hb).symm
    rw [copyin,hin,hbs]

end Space

def firstProcess (n : BitVec 32) : VmCode (Option Space) := do
  match ← allocproc 0x2000 with
  | none => pure none
  | some p => do
    let r ← growproc p n
    pure (some r.2)

def firstRam : Ram := ⟨0x3000,0xd000,sampleRam.pos,by decide⟩

def firstMachine : Machine := ⟨fun _ => fill 1,(List.range 10).map fun i => 0x3000 + i * PGSIZE⟩

theorem firstProcess_le {X : VmPanic → Prop} (hpages : ram.pages < trapPage) (n : BitVec 32) :
    (1 : Assert ℕ Page) ≤ (firstProcess n).must (vmLocal ram X) (given fun p => space ram 0x2000 ∅ p) := by
  refine Prog.seq allocproc_le fun r => ?_
  cases r with
  | none => exact Prog.must_ret_le le_rfl
  | some p =>
    refine Assert.fact_mul_le.mpr fun _ => Prog.seq (growproc_le hpages) fun r => ?_
    refine Assert.fact_mul_le.mpr fun _ => Prog.must_ret_le ?_
    rw [Set.empty_inter]
    exact le_rfl

theorem firstProcess_space : ∃ (m : Machine) (p : Space), (firstProcess 4097).run (exec firstRam) firstMachine = .ok (some p,m) ∧
    m.HasSpace firstRam 0x2000 p ∅ ∧ npages p.sz = 2 := by
  have hagrees : firstMachine.Agrees firstRam .empty := by
    refine ⟨fun x p hx => absurd hx (by simp [Heap.empty]),by decide,fun x hx => ⟨?_,rfl⟩⟩
    obtain ⟨i,hi,rfl⟩ := List.mem_map.mp hx
    have := List.mem_range.mp hi
    simp only [Ram.Has,firstRam,PGSIZE]
    omega
  have hsz : (((firstProcess 4097).run (exec firstRam) firstMachine).toOption.bind Prod.fst).map Space.sz = some 4097 := by
    decide +kernel
  rcases run_of_must hagrees (firstProcess_le (X := fun _ => False) (by decide) 4097 _ rfl) with ⟨r,m,h,hrun,hr,hm,-⟩ | ⟨q,-,hq⟩
  · rw [hrun] at hsz
    cases r with
    | none => cases hsz
    | some p =>
      refine ⟨m,p,hrun,(of_space hm hr).1,?_⟩
      rw [Option.some.inj hsz]
      decide
  · exact hq.elim

/-- Four bytes are read across the end of the first page. -/
theorem user_memory_access_first : ∃ (m : Machine) (p : Space) (bs : List Byte),
    (copyin p.pagetable 4094 4).run (exec firstRam) m = .ok ((0,bs),m) ∧ bs.length = 4 ∧
      ∀ i b, bs[i]? = some b → m.byte p.pagetable (4094 + i) = some b := by
  obtain ⟨m,p,-,hm,hn⟩ := firstProcess_space
  obtain ⟨r,bs,hrun,hiff,hmoved,hbytes⟩ := (user_memory_access hm).2.1 4094 4
  obtain rfl : r = 0 := hiff.mpr fun a _ ha => by
    obtain ⟨e,he,-,hU⟩ := hm.shape.low (a / PGSIZE) (by rw [hn]; simp only [PGSIZE]; omega)
    exact ⟨by simp only [MAXVA]; omega,e,he,hU (Set.notMem_empty _)⟩
  rcases hmoved.2 with ⟨-,hlen⟩ | ⟨h,-⟩
  · exact ⟨m,p,bs,hrun,hlen,hbytes⟩
  · cases h

end Machine

end Xv6.Vm
