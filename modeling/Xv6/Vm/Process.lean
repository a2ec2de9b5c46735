import Xv6.Vm.Space

/-! # The address space of a process

What `proc.c` makes of page tables: each function takes the pages of an address space and leaves
the pages of one, or none.
-/
namespace Xv6.Vm
open Library Library.Assert
open Function (update update_eq_self update_idem update_of_ne update_self)

variable {ram : Ram} {X : VmPanic → Prop} {α : Type} {R : α → Assert ℕ Page} {F : Assert ℕ Page}
variable {pagetable trapframe trampoline sz : ℕ} {guard : Set ℕ} {M : ℕ → Option (BitVec 64)}

def image (ram : Ram) (trampoline trapframe : ℕ) (guard : Set ℕ) (pagetable sz : ℕ) : Assert ℕ Page :=
  ⨆ M, fact (Shape M (npages sz) guard trapframe trampoline ∧ ram.Has pagetable) * region ram pagetable M (npages sz)

def page (ram : Ram) (pa : ℕ) : Assert ℕ Page := fact (ram.Has pa) * ⨆ q : Page, cell pa q

def space (ram : Ram) (trampoline : ℕ) (guard : Set ℕ) (p : Space) : Assert ℕ Page :=
  image ram trampoline p.trapframe guard p.pagetable p.sz * page ram p.trapframe

theorem le_image (hM : Shape M (npages sz) guard trapframe trampoline) (hpt : ram.Has pagetable) :
    region ram pagetable M (npages sz) ≤ image ram trampoline trapframe guard pagetable sz :=
  le_iSup_of_le M (le_fact_mul ⟨hM,hpt⟩ le_rfl)

theorem image_mul_le {P : Assert ℕ Page} (h : ∀ M, Shape M (npages sz) guard trapframe trampoline → ram.Has pagetable →
    region ram pagetable M (npages sz) * F ≤ P) : image ram trampoline trapframe guard pagetable sz * F ≤ P := by
  rw [image,Quantale.iSup_mul_distrib]
  refine iSup_le fun M => ?_
  rw [mul_assoc,fact_mul_le]
  exact fun ⟨hM,hpt⟩ => h M hM hpt

theorem image_le {P : Assert ℕ Page} (h : ∀ M, Shape M (npages sz) guard trapframe trampoline → ram.Has pagetable →
    region ram pagetable M (npages sz) ≤ P) : image ram trampoline trapframe guard pagetable sz ≤ P :=
  iSup_le fun M => fact_mul_le.mpr fun ⟨hM,hpt⟩ => h M hM hpt

theorem le_page {pa : ℕ} {q : Page} (h : ram.Has pa) : cell pa q ≤ page ram pa :=
  le_fact_mul h (le_iSup (fun q : Page => cell pa q) q)

theorem page_mul_le {pa : ℕ} {P : Assert ℕ Page} (h : ∀ q, ram.Has pa → cell pa q * F ≤ P) : page ram pa * F ≤ P := by
  rw [page,mul_assoc,fact_mul_le]
  intro hpa
  rw [Quantale.iSup_mul_distrib]
  exact iSup_le fun q => h q hpa

theorem TRAMPOLINE_eq : TRAMPOLINE = (trapPage + 1) * PGSIZE := rfl

theorem TRAPFRAME_eq : TRAPFRAME = trapPage * PGSIZE := rfl

theorem uvmcreate_bind {k : Option ℕ → VmCode α} (hnone : F ≤ (k none).must (vmLocal ram X) R)
    (hsome : ∀ pt, ram.Has pt → table (plain ram) pt (fun _ => none) * F ≤ (k (some pt)).must (vmLocal ram X) R) :
    F ≤ (uvmcreate.bind k).must (vmLocal ram X) R := by
  simp only [uvmcreate,Prog.bind_eq,Prog.bind_assoc]
  refine kalloc_bind hnone fun pt hpt => ?_
  simp only [Prog.bind_assoc]
  refine memset_bind ((mul_le_mul_left ?_ F).trans (hsome pt hpt))
  exact (node_zero 2 pt).trans (le_table fun v _ => PT.get_zero 2 v)

theorem region_zero : region ram pagetable M 0 = table (plain ram) pagetable M := by
  rw [region,userPages,Finset.range_zero,Finset.prod_empty,mul_one]

theorem held_zero {I : BitVec 64 → Prop} {c : ℕ → Page} : held I ram pagetable M c 0 = table I pagetable M := mul_one _

def given {β : Type} (P : β → Assert ℕ Page) : Option β → Assert ℕ Page
  | none => 1
  | some b => P b

theorem proc_pagetable_le :
    (1 : Assert ℕ Page) ≤ (proc_pagetable trampoline trapframe).must (vmLocal ram X)
      (given fun pt => image ram trampoline trapframe ∅ pt 0) := by
  rw [proc_pagetable,TRAMPOLINE_eq,TRAPFRAME_eq]
  refine uvmcreate_bind (Prog.must_ret_le le_rfl) fun pt hpt => ?_
  have hfree : table (plain ram) pt (fun _ => none) ≤ (uvmfree pt 0).must (vmLocal ram X) fun _ => 1 := by
    rw [← region_zero]
    exact uvmfree_region rfl (Nat.zero_le _) (fun _ h => absurd h (Nat.not_lt_zero _)) (fun _ _ _ => rfl) hpt
  refine mappages_bind plain_entry le_rfl rfl ?_ ?_
  · rw [if_neg (by decide)]
    refine mappages_bind plain_entry (by omega) (update_of_ne (by omega) _ _) ?_ ?_
    · rw [if_neg (by decide),mul_one]
      refine Prog.must_ret_le (le_trans (le_of_eq ?_) (le_image bare_shape hpt))
      rw [show npages 0 = 0 from rfl,region_zero,bare]
    · rw [if_pos (by decide)]
      refine unmap_bind plain_entry le_rfl (update_self _ _ _) ?_ ?_
      · rw [BitVec.or_assoc,entry_and _ _ (by decide)]
        decide
      · rw [update_idem,update_eq_self,mul_one]
        exact Prog.seq hfree fun _ => Prog.must_ret_le le_rfl
  · rw [if_pos (by decide),mul_one]
    exact Prog.seq hfree fun _ => Prog.must_ret_le le_rfl

theorem proc_freepagetable_le :
    image ram trampoline trapframe guard pagetable sz ≤
      (proc_freepagetable pagetable sz).must (vmLocal ram X) fun _ => 1 := by
  refine image_le fun M hM hpt => ?_
  rw [proc_freepagetable,TRAMPOLINE_eq,TRAPFRAME_eq,region]
  have hroom := hM.room
  refine unmap_bind plain_entry le_rfl hM.trampoline (by rw [entry_and _ _ (by decide)]; decide) ?_
  refine unmap_bind plain_entry (by omega) ((update_of_ne (by omega) _ _).trans hM.trapframe)
    (by rw [entry_and _ _ (by decide)]; decide) ?_
  have hlow : ∀ v, v < npages sz →
      update (update M (trapPage + 1) none) trapPage none v = M v := fun v hv => by
    rw [update_of_ne (by omega),update_of_ne (by omega)]
  rw [userPages_congr fun v hv => (hlow v hv).symm,← region]
  refine uvmfree_region rfl hroom (fun v hv => ?_) (fun v h₁ h₂ => ?_) hpt
  · rw [hlow v hv]
    exact hM.user.low v hv
  · by_cases h : v = trapPage
    · rw [h,update_self]
    · rw [update_of_ne h]
      by_cases h' : v = trapPage + 1
      · rw [h',update_self]
      · rw [update_of_ne h']
        exact hM.high v h₁ h₂ h h'

theorem kfree_page {pa : ℕ} {k : Unit → VmCode α} (hk : F ≤ (k ()).must (vmLocal ram X) R) :
    page ram pa * F ≤ ((kfree pa).bind k).must (vmLocal ram X) R :=
  page_mul_le fun _ hpa => kfree_bind hpa hk

theorem freeproc_le {p : Space} :
    space ram trampoline guard p ≤ (freeproc (some p.trapframe) (some p.pagetable) p.sz).must (vmLocal ram X) fun _ => 1 := by
  rw [space,mul_comm]
  exact kfree_page proc_freepagetable_le

theorem allocproc_le :
    (1 : Assert ℕ Page) ≤ (allocproc trampoline).must (vmLocal ram X)
      (given fun p => fact (p.sz = 0) * space ram trampoline ∅ p) := by
  rw [allocproc]
  refine kalloc_bind (Prog.must_ret_le le_rfl) fun tf htf => ?_
  rw [mul_comm]
  refine Prog.seq_frame proc_pagetable_le fun r => ?_
  cases r with
  | none =>
    rw [given,one_mul,← mul_one (cell tf _)]
    exact kfree_bind htf (Prog.must_ret_le le_rfl)
  | some pt =>
    refine Prog.must_ret_le (le_fact_mul rfl ?_)
    exact mul_le_mul_right (le_page htf) _

theorem uvmcopy_image {new trapframe' : ℕ} :
    image ram trampoline trapframe guard pagetable sz * image ram trampoline trapframe' ∅ new 0 ≤
      (uvmcopy pagetable new sz).must (vmLocal ram X) fun r =>
        image ram trampoline trapframe guard pagetable sz *
          (fact (r = 0) * image ram trampoline trapframe' guard new sz ⊔
            fact (r = -1) * image ram trampoline trapframe' ∅ new 0) := by
  refine image_mul_le fun M hM hpt => ?_
  rw [mul_comm]
  refine image_mul_le fun M₀ h₀ hnew => ?_
  rw [mul_comm]
  refine Prog.imp (uvmcopy_region rfl hM.user fun u hu => h₀.user.high u (Nat.zero_le u) (hu.trans_le hM.room)) fun r => ?_
  refine (mul_le_mul_left (le_image hM hpt) _).trans (mul_le_mul_right (sup_le_sup ?_ ?_) _)
  · refine iSup_le fun M' => fact_mul_le.mpr fun ⟨hr,hC⟩ => le_fact_mul hr ?_
    exact le_image (hM.copied h₀ hC) hnew
  · exact mul_le_mul_right (le_image h₀ hnew) _

theorem fork_le {p : Space} :
    space ram trampoline guard p ≤ (fork trampoline p).must (vmLocal ram X) fun r =>
      space ram trampoline guard p * given (fun np => fact (np.sz = p.sz) * space ram trampoline guard np) r := by
  rw [fork]
  conv_lhs => rw [← one_mul (space ram trampoline guard p)]
  refine Prog.seq_frame allocproc_le fun r => ?_
  cases r with
  | none =>
    rw [given,one_mul]
    exact Prog.must_ret_le (le_of_eq (mul_one _).symm)
  | some np =>
    rw [given,mul_assoc,fact_mul_le]
    intro hsz
    rw [space,space,hsz,show ∀ A B C D : Assert ℕ Page, A * B * (C * D) = C * A * (D * B) by intros; ac_rfl]
    refine Prog.seq_frame uvmcopy_image fun r => ?_
    rw [mul_comm (image ram trampoline p.trapframe guard p.pagetable p.sz),mul_assoc,Quantale.sup_mul_distrib]
    refine sup_le ?_ ?_
    · rw [mul_assoc,fact_mul_le]
      rintro rfl
      rw [if_neg (by decide),show ∀ A B C D : Assert ℕ Page, A * (B * (C * D)) = C * (D * (B * A)) by intros; ac_rfl]
      refine page_mul_le fun q hp => peek_bind (by decide) ?_
      rw [mul_left_comm]
      refine page_mul_le fun q' hnp => poke_bind (by rw [Bytes.length_slice]; decide) (poke_bind (by decide) ?_)
      refine Prog.must_ret_le ?_
      rw [show ∀ A B C D : Assert ℕ Page, A * (B * (C * D)) = C * B * (D * A) by intros; ac_rfl,given,space]
      exact mul_le_mul' (mul_le_mul_right (le_page hp) _) (le_fact_mul rfl (mul_le_mul_right (le_page hnp) _))
    · rw [mul_assoc,fact_mul_le]
      rintro rfl
      rw [if_pos (by decide),show ∀ A B C D : Assert ℕ Page, A * (B * (C * D)) = A * D * (B * C) by intros; ac_rfl]
      have hfree : image ram trampoline np.trapframe ∅ np.pagetable 0 * page ram np.trapframe ≤
          (freeproc (some np.trapframe) (some np.pagetable) np.sz).must (vmLocal ram X) fun _ => 1 := by
        rw [← hsz]
        exact freeproc_le
      refine Prog.seq_frame hfree fun _ => Prog.must_ret_le ?_
      rw [one_mul,given,mul_one]

theorem uvmalloc_image {newsz : ℕ} {perm : BitVec 64} (hpages : ram.pages < trapPage) (hperm : perm.toNat < 1024) :
    image ram trampoline trapframe guard pagetable sz ≤
      (uvmalloc pagetable sz newsz perm).must (vmLocal ram X) fun r =>
        fact (r = max sz newsz) * image ram trampoline trapframe guard pagetable (max sz newsz) ⊔
          fact (r = 0) * image ram trampoline trapframe guard pagetable sz := by
  refine image_le fun M hM hpt => Prog.imp (uvmalloc_region hpages hperm rfl hM.user) fun r => ?_
  split
  · rename_i hlt
    rw [Nat.max_eq_left hlt.le]
    exact le_sup_of_le_left (mul_le_mul_right (le_image hM hpt) _)
  · rename_i hlt
    rw [Nat.max_eq_right (by omega)]
    refine sup_le_sup (iSup_le fun M' => fact_mul_le.mpr fun ⟨hr,hG,hroom⟩ => le_fact_mul hr ?_)
      (mul_le_mul_right (le_image hM hpt) _)
    exact le_image (hM.grown hG (npages_mono (by omega)) hroom) hpt

theorem uvmdealloc_image {newsz : ℕ} :
    image ram trampoline trapframe guard pagetable sz ≤ (uvmdealloc pagetable sz newsz).must (vmLocal ram X) fun r =>
      image ram trampoline trapframe (guard ∩ {v | v < npages r}) pagetable r := by
  refine image_le fun M hM hpt => Prog.imp (uvmdealloc_region rfl hM.user) fun r => fact_mul_le.mpr ?_
  rintro rfl
  exact le_image (hM.removed (npages_mono (Nat.min_le_left _ _))) hpt

theorem image_clip {k : ℕ} (h : npages sz ≤ k) :
    image ram trampoline trapframe guard pagetable sz ≤
      image ram trampoline trapframe (guard ∩ {v | v < k}) pagetable sz := by
  refine image_le fun M hM hpt => ?_
  have hclip : guard ∩ {v | v < k} = guard := Set.inter_eq_left.mpr fun v hv => (hM.guarded v hv).trans_le h
  rw [hclip]
  exact le_image hM hpt

theorem growproc_le {p : Space} {n : BitVec 32} (hpages : ram.pages < trapPage) :
    space ram trampoline guard p ≤ (growproc p n).must (vmLocal ram X) fun r =>
      fact (r.2.pagetable = p.pagetable ∧ r.2.trapframe = p.trapframe) *
        space ram trampoline (guard ∩ {v | v < npages r.2.sz}) r.2 := by
  have hsame : space ram trampoline guard p ≤ fact (p.pagetable = p.pagetable ∧ p.trapframe = p.trapframe) *
      space ram trampoline (guard ∩ {v | v < npages p.sz}) p :=
    le_fact_mul ⟨rfl,rfl⟩ (mul_le_mul_left (image_clip le_rfl) _)
  rw [growproc]
  split
  · refine Prog.seq_frame (uvmalloc_image hpages (by decide)) fun r => ?_
    rw [Quantale.sup_mul_distrib]
    refine sup_le ?_ ?_
    · rw [mul_assoc,fact_mul_le]
      rintro rfl
      split
      · rename_i hzero
        rw [hzero,show (0 : ℕ) = p.sz by omega]
        exact Prog.must_ret_le hsame
      · refine Prog.must_ret_le (le_fact_mul ⟨rfl,rfl⟩ (mul_le_mul_left (image_clip le_rfl) _))
    · rw [mul_assoc,fact_mul_le]
      rintro rfl
      rw [if_pos rfl]
      exact Prog.must_ret_le hsame
  · split
    · refine Prog.seq_frame uvmdealloc_image fun r => Prog.must_ret_le (le_fact_mul ⟨rfl,rfl⟩ le_rfl)
    · exact Prog.must_ret_le hsame

end Xv6.Vm
