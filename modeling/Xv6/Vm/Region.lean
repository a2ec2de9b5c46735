import Xv6.Vm.Map

/-! # A page table with its user pages

The pages `[0, n)` of an address space are mapped and owned. What grows and shrinks, copies and
frees address spaces is specified on them.
-/
namespace Xv6.Vm
open Library Library.Assert
open Function (update update_of_ne update_self)

def plain (ram : Ram) (e : BitVec 64) : Prop := e &&& (PTE_R ||| PTE_W ||| PTE_X) = 0 ∧ ram.Has (PTE2PA e)

theorem entry_and (pa : ℕ) (perm : BitVec 64) {mask : BitVec 64} (hmask : mask.toNat < 1024) :
    (PA2PTE pa ||| perm) &&& mask = perm &&& mask := by
  apply BitVec.eq_of_getLsbD_eq
  intro i hi
  rw [BitVec.getLsbD_and,BitVec.getLsbD_and,BitVec.getLsbD_or,PA2PTE,BitVec.getLsbD_shiftLeft]
  rcases Nat.lt_or_ge i 10 with h | h
  · simp [h]
  · have : mask.getLsbD i = false :=
      Nat.testBit_lt_two_pow (hmask.trans_le (Nat.pow_le_pow_right (n := 2) (by norm_num) h))
    simp [this]

theorem plain_entry {ram : Ram} (pa : ℕ) (h : ram.Has pa) : plain ram (PA2PTE pa ||| PTE_V) :=
  ⟨entry_and pa PTE_V (by decide),by rwa [h.PTE2PA (by decide)]⟩

def Ram.pages (ram : Ram) : ℕ := (ram.hi - ram.lo + (PGSIZE - 1)) / PGSIZE

def trapPage : ℕ := TRAPFRAME / PGSIZE

theorem trapPage_eq : trapPage = 67108862 := rfl

variable {ram : Ram} {X : VmPanic → Prop} {α : Type} {R : α → Assert ℕ Page} {F : Assert ℕ Page}
variable {root va v n : ℕ} {M M' : ℕ → Option (BitVec 64)} {I : BitVec 64 → Prop} {c : ℕ → Page} {e : BitVec 64}

def userPages (ram : Ram) (M : ℕ → Option (BitVec 64)) (n : ℕ) : Assert ℕ Page := ∏ v ∈ Finset.range n, owns ram (M v)

def region (ram : Ram) (root : ℕ) (M : ℕ → Option (BitVec 64)) (n : ℕ) : Assert ℕ Page :=
  table (plain ram) root M * userPages ram M n

def holds (ram : Ram) (M : ℕ → Option (BitVec 64)) (c : ℕ → Page) (n : ℕ) : Assert ℕ Page :=
  ∏ v ∈ Finset.range n, ownsAt ram (c v) (M v)

def held (I : BitVec 64 → Prop) (ram : Ram) (root : ℕ) (M : ℕ → Option (BitVec 64)) (c : ℕ → Page) (n : ℕ) : Assert ℕ Page :=
  table I root M * holds ram M c n

/-- The pages below `n` are mapped, and from there to the trapframe none is. -/
structure User (M : ℕ → Option (BitVec 64)) (n : ℕ) : Prop where
  low : ∀ v, v < n → ∃ e, M v = some e ∧ e &&& PTE_R ≠ 0
  high : ∀ v, n ≤ v → v < trapPage → M v = none
  room : n ≤ trapPage

/-- The pages below `n` are the process's, all but the stack guards open to it; above them there
are only the two pages that the kernel keeps for itself. -/
structure Shape (M : ℕ → Option (BitVec 64)) (n : ℕ) (guard : Set ℕ) (trapframe trampoline : ℕ) : Prop where
  low : ∀ v, v < n → ∃ e, M v = some e ∧ e &&& PTE_R ≠ 0 ∧ (v ∉ guard → e &&& PTE_U ≠ 0)
  high : ∀ v, n ≤ v → v < 2 ^ 27 → v ≠ trapPage → v ≠ trapPage + 1 → M v = none
  room : n ≤ trapPage
  guarded : ∀ v ∈ guard, v < n
  trapframe : M trapPage = some (PA2PTE trapframe ||| (PTE_R ||| PTE_W ||| PTE_V))
  trampoline : M (trapPage + 1) = some (PA2PTE trampoline ||| (PTE_R ||| PTE_X ||| PTE_V))

theorem userPages_congr (h : ∀ v, v < n → M v = M' v) : userPages ram M n = userPages ram M' n := by
  refine Finset.prod_congr rfl fun v hv => ?_
  rw [h v (Finset.mem_range.mp hv)]

theorem holds_congr {c' : ℕ → Page} (h : ∀ v, v < n → M v = M' v) (hc : ∀ v, v < n → c v = c' v) :
    holds ram M c n = holds ram M' c' n := by
  refine Finset.prod_congr rfl fun v hv => ?_
  rw [h v (Finset.mem_range.mp hv),hc v (Finset.mem_range.mp hv)]

theorem holds_succ : holds ram M c (n + 1) = holds ram M c n * ownsAt ram (c n) (M n) :=
  Finset.prod_range_succ _ _

theorem userPages_succ : userPages ram M (n + 1) = userPages ram M n * owns ram (M n) := Finset.prod_range_succ _ _

theorem userPages_eq : userPages ram M n = ⨆ c, holds ram M c n := by
  induction n with
  | zero => exact ciSup_const.symm
  | succ n ih =>
    rw [userPages_succ,ih,owns_eq,Quantale.iSup_mul_distrib]
    refine le_antisymm (iSup_le fun c => ?_) (iSup_le fun c => ?_)
    · rw [Quantale.mul_iSup_distrib]
      refine iSup_le fun q => le_iSup_of_le (update c n q) (le_of_eq ?_)
      rw [holds_succ,update_self]
      congr 1
      exact holds_congr (fun _ _ => rfl) fun v hv => (update_of_ne (by omega) _ _).symm
    · rw [holds_succ]
      exact le_iSup_of_le c (mul_le_mul_right (le_iSup (fun q : Page => ownsAt ram q (M n)) (c n)) _)

theorem holds_content {h : Heap ℕ Page} (hh : holds ram M c n h) (hv : v < n) (he : M v = some e) :
    h (PTE2PA e) = some (c v) := by
  obtain ⟨f,hf,-,hx⟩ := (prod_iff _ _ _).mp hh
  refine (hx _ _).mpr ⟨v,Finset.mem_range.mpr hv,?_⟩
  have := hf v (Finset.mem_range.mpr hv)
  rw [he,ownsAt] at this
  rw [(fact_mul_iff.mp this).2]
  exact Heap.set_self

theorem holds_le : holds ram M c n ≤ userPages ram M n := by
  rw [userPages_eq]
  exact le_iSup (fun c => holds ram M c n) c

theorem held_le_region : held (plain ram) ram root M c n ≤ region ram root M n := mul_le_mul_right holds_le _

theorem region_mul_le {P : Assert ℕ Page} (h : ∀ c, held (plain ram) ram root M c n * F ≤ P) : region ram root M n * F ≤ P := by
  rw [region,userPages_eq,Quantale.mul_iSup_distrib,Quantale.iSup_mul_distrib]
  exact iSup_le h

theorem region_le {P : Assert ℕ Page} (h : ∀ c, held (plain ram) ram root M c n ≤ P) : region ram root M n ≤ P := by
  rw [← mul_one (region ram root M n)]
  exact region_mul_le fun c => (mul_one _).trans_le (h c)

theorem Ram.card_le {S : Finset ℕ} (hS : ∀ pa ∈ S, ram.Has pa) : S.card ≤ ram.pages := by
  rw [← Finset.card_range ram.pages]
  refine Finset.card_le_card_of_injOn (fun pa => pa / PGSIZE - (ram.lo + (PGSIZE - 1)) / PGSIZE) ?_ ?_
  · intro pa hpa
    have h := hS pa hpa
    simp only [Has,Ram.pages,PGSIZE,Finset.coe_range,Set.mem_Iio] at h ⊢
    omega
  · intro pa hpa pb hpb he
    have ha := hS pa hpa
    have hb := hS pb hpb
    simp only [Has,PGSIZE] at ha hb he
    omega

theorem userPages_addrs {h : Heap ℕ Page} (hh : userPages ram M n h) (hM : ∀ v, v < n → M v ≠ none) :
    ∃ S : Finset ℕ, S.card = n ∧ ∀ pa ∈ S, ram.Has pa ∧ h pa ≠ none := by
  induction n generalizing h with
  | zero => exact ⟨∅,rfl,by simp⟩
  | succ n ih =>
    rw [userPages_succ] at hh
    obtain ⟨f,g,hf,hg,hfg,rfl⟩ := hh
    obtain ⟨S,hcard,hS⟩ := ih hf fun v hv => hM v (by omega)
    obtain ⟨e,he⟩ := Option.ne_none_iff_exists'.mp (hM n (by omega))
    rw [he,owns] at hg
    obtain ⟨hram,hg⟩ := fact_mul_iff.mp hg
    obtain ⟨q,rfl⟩ := iSup_iff.mp hg
    have hpa : f (PTE2PA e) = none := hfg.symm.none_of_ne (by simp [Heap.single])
    refine ⟨insert (PTE2PA e) S,?_,fun pa hpa' => ?_⟩
    · rw [Finset.card_insert_of_notMem fun hmem => (hS _ hmem).2 hpa,hcard]
    · rcases Finset.mem_insert.mp hpa' with rfl | hpa'
      · exact ⟨hram,by simp [Heap.join,Heap.single]⟩
      · exact ⟨(hS pa hpa').1,by rw [Heap.join_of_ne (hS pa hpa').2]; exact (hS pa hpa').2⟩

theorem userPages_iff {h : Heap ℕ Page} (hh : userPages ram M n h) :
    (∀ v e, v < n → M v = some e → ram.Has (PTE2PA e) ∧ h (PTE2PA e) ≠ none) ∧
      (∀ v v' e e', v < n → v' < n → M v = some e → M v' = some e' → PTE2PA e = PTE2PA e' → v = v') ∧
      ∀ x, h x ≠ none → ∃ v e, v < n ∧ M v = some e ∧ PTE2PA e = x := by
  obtain ⟨f,hf,hapart,hx⟩ := (prod_iff _ _ _).mp hh
  have hcell : ∀ v e, v < n → M v = some e → ram.Has (PTE2PA e) ∧ ∃ q, f v = Heap.single (PTE2PA e) q := by
    intro v e hv he
    have := hf v (Finset.mem_range.mpr hv)
    rw [he,owns] at this
    obtain ⟨hhas,hq⟩ := fact_mul_iff.mp this
    obtain ⟨q,hq⟩ := iSup_iff.mp hq
    exact ⟨hhas,q,hq⟩
  refine ⟨fun v e hv he => ?_,fun v v' e e' hv hv' he he' hpa => ?_,fun x hne => ?_⟩
  · obtain ⟨hhas,q,hq⟩ := hcell v e hv he
    have := (hx (PTE2PA e) q).mpr ⟨v,Finset.mem_range.mpr hv,by rw [hq]; exact Heap.set_self⟩
    exact ⟨hhas,by rw [this]; exact Option.some_ne_none q⟩
  · by_contra hne
    obtain ⟨-,q,hq⟩ := hcell v e hv he
    obtain ⟨-,q',hq'⟩ := hcell v' e' hv' he'
    rcases hapart v (Finset.mem_range.mpr hv) v' (Finset.mem_range.mpr hv') hne (PTE2PA e) with h | h
    · rw [hq,Heap.single,Heap.set_self] at h
      cases h
    · rw [hq',hpa,Heap.single,Heap.set_self] at h
      cases h
  · obtain ⟨q,hq⟩ := Option.ne_none_iff_exists'.mp hne
    obtain ⟨v,hv,hfv⟩ := (hx x q).mp hq
    have hv := Finset.mem_range.mp hv
    cases he : M v with
    | none =>
      have := hf v (Finset.mem_range.mpr hv)
      rw [he,owns,one_iff] at this
      rw [this] at hfv
      cases hfv
    | some e =>
      obtain ⟨-,q',hq'⟩ := hcell v e hv he
      refine ⟨v,e,hv,he,?_⟩
      by_contra hne
      rw [hq',Heap.single,Heap.set_of_ne (Ne.symm hne)] at hfv
      cases hfv

theorem region_page (ram : Ram) (root : ℕ) (hv : v < n) (hM : M v = some e) :
    ∃ G, (∀ P Q, (∀ q, cell (PTE2PA e) q * (G * P) ≤ Q) → region ram root M n * P ≤ Q) ∧
      ∀ q P, cell (PTE2PA e) q * (G * P) ≤ region ram root M n * P := by
  obtain ⟨G,hG⟩ : ∃ G, region ram root M n = ⨆ q : Page, cell (PTE2PA e) q * G := by
    refine ⟨fact (ram.Has (PTE2PA e)) * (table (plain ram) root M * ∏ u ∈ (Finset.range n).erase v, owns ram (M u)),?_⟩
    rw [← Quantale.iSup_mul_distrib,region,userPages,← Finset.mul_prod_erase _ _ (Finset.mem_range.mpr hv),hM,owns]
    ac_rfl
  refine ⟨G,fun P Q h => ?_,fun q P => ?_⟩
  · rw [hG,Quantale.iSup_mul_distrib]
    refine iSup_le fun q => ?_
    rw [mul_assoc]
    exact h q
  · rw [hG,← mul_assoc]
    exact mul_le_mul_left (le_iSup (fun q : Page => cell (PTE2PA e) q * G) q) P

theorem held_page (I : BitVec 64 → Prop) (ram : Ram) (root : ℕ) (c : ℕ → Page) (hv : v < n)
    (hM : M v = some e) : ∃ G, ∀ q, held I ram root M (update c v q) n = cell (PTE2PA e) q * G := by
  refine ⟨fact (ram.Has (PTE2PA e)) * (table I root M * ∏ u ∈ (Finset.range n).erase v, ownsAt ram (c u) (M u)),fun q => ?_⟩
  have hrest : ∏ u ∈ (Finset.range n).erase v, ownsAt ram (update c v q u) (M u) =
      ∏ u ∈ (Finset.range n).erase v, ownsAt ram (c u) (M u) := by
    refine Finset.prod_congr rfl fun u hu => ?_
    rw [update_of_ne (Finset.ne_of_mem_erase hu)]
  rw [held,holds,← Finset.mul_prod_erase _ _ (Finset.mem_range.mpr hv),hrest,hM,update_self,ownsAt]
  ac_rfl

theorem held_room {mem : ℕ} {q : Page} (hmem : ram.Has mem) (hM : ∀ v, v < n → M v ≠ none) :
    cell mem q * held I ram root M c n ≤ fact (n < ram.pages) * (cell mem q * held I ram root M c n) := by
  refine le_fact_self fun h hh => ?_
  obtain ⟨f,g,rfl,⟨g₁,g₂,-,hg₂,h₁₂,rfl⟩,hfg,rfl⟩ := hh
  obtain ⟨S,hcard,hS⟩ := userPages_addrs (holds_le _ hg₂) hM
  have hnot : mem ∉ S := fun hm => by
    have := hfg.none_of_ne (x := mem) (by simp [Heap.single])
    exact (hS mem hm).2 (Heap.join_eq_none.mp this).2
  have hall : ∀ pa ∈ insert mem S, ram.Has pa := fun pa hpa => by
    rcases Finset.mem_insert.mp hpa with rfl | hpa
    · exact hmem
    · exact (hS pa hpa).1
  have hle := Ram.card_le hall
  rw [Finset.card_insert_of_notMem hnot,hcard] at hle
  omega

theorem held_push {pa : ℕ} (h : ram.Has pa) (he : PTE2PA e = pa) :
    table I root (update M v (some e)) * (cell pa (c v) * holds ram M c v) =
      held I ram root (update M v (some e)) c (v + 1) := by
  have hlow : holds ram M c v = holds ram (update M v (some e)) c v :=
    holds_congr (fun u hu => (update_of_ne (by omega) _ _).symm) fun _ _ => rfl
  rw [held,holds_succ,update_self,ownsAt,he,fact_true h,one_mul,hlow,mul_comm (cell pa (c v))]

theorem flags_ne_of_R (hR : e &&& PTE_R ≠ 0) : PTE_FLAGS e ≠ PTE_V := by
  intro hflags
  have : e &&& PTE_R = PTE_FLAGS e &&& PTE_R := by
    rw [PTE_FLAGS,BitVec.and_assoc]
    rfl
  exact hR (by rw [this,hflags]; decide)

/-! ## Shrinking -/

theorem removed_of_lt (h : v < va) {k : ℕ} : removed M va k v = M v := if_neg (by omega)

def npages (sz : ℕ) : ℕ := (sz + (PGSIZE - 1)) / PGSIZE

theorem PGROUNDUP_eq {sz : ℕ} (h : npages sz ≤ trapPage) : PGROUNDUP sz = npages sz * PGSIZE := by
  rw [trapPage_eq] at h
  simp only [PGROUNDUP,npages,PGSIZE] at h ⊢
  omega

theorem npages_mul (k : ℕ) : npages (k * PGSIZE) = k := by
  simp only [npages,PGSIZE]
  omega

theorem npages_mono {a b : ℕ} (h : a ≤ b) : npages a ≤ npages b := Nat.div_le_div_right (by omega)

section Entries
variable (hI : ∀ pa, ram.Has pa → I (PA2PTE pa ||| PTE_V))
include hI

theorem uvmunmap_held {a k : ℕ} (hva : va = a * PGSIZE) (hn : a + k = n) (hroom : n ≤ trapPage)
    (hM : ∀ v, a ≤ v → v < n → ∃ e, M v = some e ∧ e &&& PTE_R ≠ 0) :
    held I ram root M c n ≤ (uvmunmap root va k true).must (vmLocal ram X) fun _ =>
      held I ram root (removed M a k) c a := by
  subst hva hn
  have hsplit : holds ram M c (a + k) ≤ freed ram true M a k * holds ram (removed M a k) c a := by
    rw [holds,Finset.prod_range_add,freed,if_pos rfl,mul_comm]
    refine mul_le_mul' (Finset.prod_le_prod' fun u _ => ?_) (le_of_eq ?_)
    · exact ownsAt_le _
    · exact holds_congr (fun v hv => (removed_of_lt hv).symm) fun _ _ => rfl
  refine (mul_le_mul_right hsplit _).trans ?_
  rw [← mul_assoc,uvmunmap,if_neg (not_not.mpr (Nat.mul_mod_left _ _))]
  refine Prog.frame (unmapLoop_le hI rfl ?_ fun u h₁ h₂ => .inl ?_)
  · rw [trapPage_eq] at hroom
    simp only [MAXVA,PGSIZE]
    omega
  · obtain ⟨e,he,hR⟩ := hM u h₁ h₂
    exact ⟨e,he,flags_ne_of_R hR⟩

theorem uvmdealloc_held {oldsz newsz : ℕ} (hn : npages oldsz = n) (hM : User M n) :
    held I ram root M c n ≤ (uvmdealloc root oldsz newsz).must (vmLocal ram X) fun r =>
      fact (r = min oldsz newsz) * held I ram root (removed M (npages r) (n - npages r)) c (npages r) := by
  rw [uvmdealloc]
  split
  · rename_i hle
    refine Prog.must_ret_le (le_fact_mul (by omega) ?_)
    rw [hn,Nat.sub_self,removed_zero]
  · rename_i hlt
    have hle : npages newsz ≤ n := hn ▸ npages_mono (by omega)
    have hroom := hM.room
    rw [PGROUNDUP_eq (hle.trans hroom),PGROUNDUP_eq (hn ▸ hroom),hn]
    have hret : ∀ k, npages newsz + k = n → held I ram root (removed M (npages newsz) k) c (npages newsz) ≤
        (pure newsz : VmCode ℕ).must (vmLocal ram X) fun r =>
          fact (r = min oldsz newsz) * held I ram root (removed M (npages r) (n - npages r)) c (npages r) := by
      intro k hk
      refine Prog.must_ret_le (le_fact_mul (by omega) ?_)
      rw [show n - npages newsz = k by omega]
    split
    · rename_i hpos
      refine Prog.seq ?_ fun _ => hret (n - npages newsz) (by omega)
      have hk : (n * PGSIZE - npages newsz * PGSIZE) / PGSIZE = n - npages newsz := by
        rw [← Nat.sub_mul]
        exact Nat.mul_div_cancel _ (by norm_num)
      rw [hk]
      exact uvmunmap_held hI rfl (by omega) hroom fun v _ h => hM.low v h
    · rename_i hpos
      have hk : npages newsz = n := by
        simp only [PGSIZE] at hpos
        omega
      have := hret 0 (by omega)
      rwa [removed_zero,hk] at this

/-! ## One page -/

theorem mappages_bind {k : ℤ → VmCode α} {pa : ℕ} {perm : BitVec 64} (hv : v ≤ trapPage + 1) (hM : M v = none)
    (hok : table I root (update M v (some (PA2PTE pa ||| perm ||| PTE_V))) * F ≤
      (k 0).must (vmLocal ram X) R)
    (hfail : table I root M * F ≤ (k (-1)).must (vmLocal ram X) R) :
    table I root M * F ≤ ((mappages root (v * PGSIZE) PGSIZE pa perm).bind k).must (vmLocal ram X) R := by
  have hdiv : v * PGSIZE / PGSIZE = v := Nat.mul_div_cancel v (by decide)
  have hmap : table I root M ≤ (mappages root (v * PGSIZE) PGSIZE pa perm).must (vmLocal ram X)
      (mappedPost I root M (v * PGSIZE / PGSIZE) (PGSIZE / PGSIZE) pa perm) := by
    refine mappages_le hI (Nat.mul_mod_left _ _) (by decide) (by decide) ?_ fun u h₁ h₂ => .inl ?_
    · rw [trapPage_eq] at hv
      simp only [MAXVA,PGSIZE]
      omega
    · rw [hdiv] at h₁ h₂
      simp only [PGSIZE] at h₂
      obtain rfl : u = v := by omega
      exact hM
  rw [hdiv,Nat.div_self (by decide)] at hmap
  refine Prog.seq_frame hmap fun r => ?_
  rw [mappedPost,Quantale.iSup_mul_distrib]
  refine iSup_le fun m => ?_
  rw [mul_assoc,fact_mul_le]
  rintro ⟨⟨rfl,rfl⟩ | ⟨rfl,hm⟩,-⟩
  · have hone : mapped M v 1 pa perm = update M v (some (PA2PTE pa ||| perm ||| PTE_V)) := by
      rw [← mapped_succ,mapped_zero]
    rw [hone]
    exact hok
  · obtain rfl : m = 0 := by omega
    rw [mapped_zero]
    exact hfail

theorem unmap_bind {k : Unit → VmCode α} (hv : v ≤ trapPage + 1) (hM : M v = some e)
    (hR : e &&& PTE_R ≠ 0)
    (hk : table I root (update M v none) * F ≤ (k ()).must (vmLocal ram X) R) :
    table I root M * F ≤ ((uvmunmap root (v * PGSIZE) 1 false).bind k).must (vmLocal ram X) R := by
  refine Prog.seq_frame (Q := fun _ => table I root (update M v none)) ?_ fun _ => hk
  have hone : update M v none = removed M v 1 := by rw [← removed_succ,removed_zero]
  have hloop : table I root M * freed ram false M v 1 ≤
      (unmapLoop root false 1 (v * PGSIZE)).must (vmLocal ram X) fun _ => table I root (removed M v 1) := by
    refine unmapLoop_le hI rfl ?_ fun u h₁ h₂ => .inl ?_
    · rw [trapPage_eq] at hv
      simp only [MAXVA,PGSIZE]
      omega
    · obtain rfl : u = v := by omega
      exact ⟨e,hM,flags_ne_of_R hR⟩
  rw [freed,if_neg (by decide),mul_one] at hloop
  rw [uvmunmap,if_neg (not_not.mpr (Nat.mul_mod_left _ _)),hone]
  exact hloop

end Entries

theorem uvmunmap_region {a k : ℕ} (hva : va = a * PGSIZE) (hn : a + k = n) (hroom : n ≤ trapPage)
    (hM : ∀ v, a ≤ v → v < n → ∃ e, M v = some e ∧ e &&& PTE_R ≠ 0) :
    region ram root M n ≤ (uvmunmap root va k true).must (vmLocal ram X) fun _ => region ram root (removed M a k) a :=
  region_le fun _ => Prog.imp (uvmunmap_held plain_entry hva hn hroom hM) fun _ => held_le_region

theorem uvmdealloc_region {oldsz newsz : ℕ} (hn : npages oldsz = n) (hM : User M n) :
    region ram root M n ≤ (uvmdealloc root oldsz newsz).must (vmLocal ram X) fun r =>
      fact (r = min oldsz newsz) * region ram root (removed M (npages r) (n - npages r)) (npages r) :=
  region_le fun _ => Prog.imp (uvmdealloc_held plain_entry hn hM) fun _ => mul_le_mul_right held_le_region _

/-! ## Growing -/

theorem or_and_self (a b : BitVec 64) : (a ||| b) &&& a = a := by
  apply BitVec.eq_of_getLsbD_eq
  intro i _
  simp only [BitVec.getLsbD_and,BitVec.getLsbD_or]
  cases a.getLsbD i <;> simp

def userEntry (pa : ℕ) (perm : BitVec 64) : BitVec 64 := PA2PTE pa ||| (PTE_R ||| PTE_U ||| perm) ||| PTE_V

section Growing
variable {perm : BitVec 64} {n' : ℕ}

theorem user_lt (h : perm.toNat < 1024) : (PTE_R ||| PTE_U ||| perm).toNat < 1024 := by
  rw [BitVec.toNat_or]
  exact Nat.or_lt_two_pow (n := 10) (by decide) h

theorem userEntry_R (pa : ℕ) : userEntry pa perm &&& PTE_R ≠ 0 := by
  rw [userEntry,BitVec.or_assoc,entry_and _ _ (by decide),BitVec.or_assoc,BitVec.or_assoc,or_and_self]
  decide

theorem userEntry_U (pa : ℕ) : userEntry pa perm &&& PTE_U ≠ 0 := by
  rw [userEntry,BitVec.or_assoc,entry_and _ _ (by decide),BitVec.or_comm PTE_R,BitVec.or_assoc,BitVec.or_assoc,or_and_self]
  decide

/-- The pages `[n, n')` are new. -/
structure Grown (perm : BitVec 64) (M : ℕ → Option (BitVec 64)) (n n' : ℕ) (M' : ℕ → Option (BitVec 64)) : Prop where
  same : ∀ v, v < n ∨ n' ≤ v → M' v = M v
  new : ∀ v, n ≤ v → v < n' → ∃ pa, M' v = some (userEntry pa perm)

theorem Grown.refl : Grown perm M n n M := ⟨fun _ _ => rfl,fun v h₁ h₂ => by omega⟩

theorem Grown.succ (h : Grown perm M n v M') (hv : n ≤ v) (pa : ℕ) :
    Grown perm M n (v + 1) (update M' v (some (userEntry pa perm))) where
  same := fun u hu => by
    rw [update_of_ne (by omega)]
    exact h.same u (by omega)
  new := fun u h₁ h₂ => by
    by_cases huv : u = v
    · exact ⟨pa,by rw [huv,update_self]⟩
    · rw [update_of_ne huv]
      exact h.new u h₁ (by omega)

theorem Grown.user (h : Grown perm M n n' M') (hM : User M n) (hn : n ≤ n') (hroom : n' ≤ trapPage) : User M' n' where
  low := fun v hv => by
    rcases Nat.lt_or_ge v n with hlt | hge
    · rw [h.same v (.inl hlt)]
      exact hM.low v hlt
    · obtain ⟨pa,hpa⟩ := h.new v hge hv
      exact ⟨_,hpa,userEntry_R pa⟩
  high := fun v h₁ h₂ => by
    rw [h.same v (.inr h₁)]
    exact hM.high v (by omega) h₂
  room := hroom

theorem Grown.removed (h : Grown perm M n n' M') (hM : User M n) (hn : n ≤ n') (hroom : n' ≤ trapPage) :
    removed M' n (n' - n) = M := by
  funext v
  rw [Vm.removed]
  split
  · exact (hM.high v (by omega) (by omega)).symm
  · exact h.same v (by omega)

/-- What `uvmalloc` leaves: the pages up to `n'` are there, or it has failed and nothing is new. -/
def grownTo (ram : Ram) (root : ℕ) (perm : BitVec 64) (M : ℕ → Option (BitVec 64)) (n n' newsz r : ℕ) : Assert ℕ Page :=
  (⨆ M', fact (r = newsz ∧ Grown perm M n n' M' ∧ n' ≤ trapPage) * region ram root M' n') ⊔
    fact (r = 0) * region ram root M n

def zeroFrom (c : ℕ → Page) (n : ℕ) : ℕ → Page := fun v => if v < n then c v else fill 0

theorem held_zeroFrom : held I ram root M (zeroFrom c n) n = held I ram root M c n :=
  congrArg (table I root M * ·) (holds_congr (fun _ _ => rfl) fun _ hu => if_pos hu)

/-- What `uvmalloc` leaves of pages with contents `c`: the pages up to `n'` are there, the new ones
all zeros, or it has failed and everything is as before. -/
def grownHeld (I : BitVec 64 → Prop) (ram : Ram) (root : ℕ) (perm : BitVec 64) (M : ℕ → Option (BitVec 64)) (c : ℕ → Page)
    (n n' newsz r : ℕ) : Assert ℕ Page :=
  (⨆ M', fact (r = newsz ∧ Grown perm M n n' M' ∧ n' ≤ trapPage) * held I ram root M' (zeroFrom c n) n') ⊔
    fact (r = 0) * held I ram root M c n

section Alloc
variable (hI : ∀ pa, ram.Has pa → I (PA2PTE pa ||| PTE_V))
include hI

theorem allocLoop_held {newsz k : ℕ} (hpages : ram.pages < trapPage) (hperm : perm.toNat < 1024) (hM : User M n)
    (hv : n ≤ v) (hroom : v ≤ trapPage) (hG : Grown perm M n v M') :
    held I ram root M' (zeroFrom c n) v ≤ (allocLoop root (n * PGSIZE) newsz perm k (v * PGSIZE)).must (vmLocal ram X)
      (grownHeld I ram root perm M c n (v + k) newsz) := by
  induction k generalizing v M' with
  | zero =>
    refine Prog.must_ret_le (le_sup_of_le_left (le_iSup_of_le M' ?_))
    exact le_fact_mul ⟨rfl,hG,hroom⟩ le_rfl
  | succ k ih =>
    have hfail : held I ram root M' (zeroFrom c n) v ≤
        ((uvmdealloc root (v * PGSIZE) (n * PGSIZE)).bind fun _ => pure 0).must
          (vmLocal ram X) (grownHeld I ram root perm M c n (v + (k + 1)) newsz) := by
      refine Prog.seq (uvmdealloc_held hI (npages_mul v) (hG.user hM hv hroom)) fun r => ?_
      rw [fact_mul_le]
      rintro rfl
      have hmin : min (v * PGSIZE) (n * PGSIZE) = n * PGSIZE := Nat.min_eq_right (Nat.mul_le_mul_right _ hv)
      rw [hmin,npages_mul,hG.removed hM hv hroom]
      exact Prog.must_ret_le (le_sup_of_le_right (le_fact_mul rfl held_zeroFrom.le))
    refine kalloc_bind hfail fun mem hmem => memset_bind ?_
    have hmapped : ∀ u, u < v → M' u ≠ none := fun u hu => by
      obtain ⟨e,he,-⟩ := (hG.user hM hv hroom).low u hu
      rw [he]
      exact Option.some_ne_none e
    refine (held_room hmem hmapped).trans (fact_mul_le.mpr fun hlt => ?_)
    rw [held,show ∀ A B C : Assert ℕ Page, A * (B * C) = B * (A * C) by intros; ac_rfl]
    refine mappages_bind hI (by omega) ?_ ?_ ?_
    · rw [hG.same v (.inr le_rfl)]
      exact hM.high v hv (by omega)
    · have hzero : fill 0 = zeroFrom c n v := (if_neg (by omega)).symm
      have hpa : PTE2PA (userEntry mem perm) = mem := by
        rw [userEntry,BitVec.or_assoc]
        exact hmem.PTE2PA (or_valid_lt (user_lt hperm))
      rw [if_neg (by decide),hzero]
      refine (held_push hmem hpa).trans_le ?_
      have := ih (v := v + 1) (by omega) (by omega) (hG.succ hv mem)
      rwa [Nat.succ_mul,Nat.add_assoc,Nat.add_comm 1 k] at this
    · rw [if_pos (by decide),show ∀ A B C : Assert ℕ Page, A * (B * C) = B * (A * C) by intros; ac_rfl]
      exact kfree_bind hmem hfail

theorem uvmalloc_held {oldsz newsz : ℕ} (hpages : ram.pages < trapPage) (hperm : perm.toNat < 1024)
    (hn : npages oldsz = n) (hM : User M n) (hle : oldsz ≤ newsz) :
    held I ram root M c n ≤ (uvmalloc root oldsz newsz perm).must (vmLocal ram X)
      (grownHeld I ram root perm M c n (npages newsz) newsz) := by
  rw [uvmalloc,if_neg (by omega),PGROUNDUP_eq (hn ▸ hM.room),hn]
  have hk : n + (newsz - n * PGSIZE + (PGSIZE - 1)) / PGSIZE = npages newsz := by
    simp only [npages,PGSIZE] at hn ⊢
    omega
  rw [← hk,← held_zeroFrom]
  exact allocLoop_held hI hpages hperm hM le_rfl hM.room .refl

end Alloc

theorem grownHeld_le {n'' newsz r : ℕ} :
    grownHeld (plain ram) ram root perm M c n n'' newsz r ≤ grownTo ram root perm M n n'' newsz r :=
  sup_le_sup (iSup_mono fun _ => mul_le_mul_right held_le_region _) (mul_le_mul_right held_le_region _)

theorem uvmalloc_region {oldsz newsz : ℕ} (hpages : ram.pages < trapPage) (hperm : perm.toNat < 1024)
    (hn : npages oldsz = n) (hM : User M n) :
    region ram root M n ≤ (uvmalloc root oldsz newsz perm).must (vmLocal ram X) fun r =>
      if newsz < oldsz then fact (r = oldsz) * region ram root M n
      else grownTo ram root perm M n (npages newsz) newsz r := by
  by_cases hlt : newsz < oldsz
  · simp only [uvmalloc,if_pos hlt]
    exact Prog.must_ret_le (le_fact_mul rfl le_rfl)
  · simp only [if_neg hlt]
    exact region_le fun c => Prog.imp (uvmalloc_held plain_entry hpages hperm hn hM (by omega)) fun _ => grownHeld_le

end Growing

end Xv6.Vm
