import Xv6.Vm.Process

/-! # The kernel's accesses to the memory of a process

`copyout`, `copyin`, `copyinstr` and `uvmclear` find a page through the page table and stay within
the pages of the process.
-/
namespace Xv6.Vm
open Library Library.Assert
open Function (update update_eq_self update_of_ne update_self)

variable {ram : Ram} {X : VmPanic → Prop} {α : Type} {R : α → Assert ℕ Page} {F : Assert ℕ Page}
variable {pagetable trapframe trampoline sz n v va root : ℕ} {guard : Set ℕ} {M : ℕ → Option (BitVec 64)}
variable {I : BitVec 64 → Prop} {c : ℕ → Page}

theorem region_has {e : BitVec 64} (hv : v < n) (hM : M v = some e) :
    region ram root M n * F ≤ fact (ram.Has (PTE2PA e)) * (region ram root M n * F) := by
  rw [← mul_assoc]
  refine mul_le_mul_left ?_ F
  rw [region,userPages,← Finset.mul_prod_erase _ _ (Finset.mem_range.mpr hv),hM,owns]
  refine le_fact_self fun h hh => ?_
  rw [show ∀ A B C D : Assert ℕ Page, A * (B * C * D) = B * (A * (C * D)) by intros; ac_rfl] at hh
  exact (fact_mul_iff.mp hh).1

theorem walkaddr_bind {k : ℕ → VmCode α}
    (hzero : (va / PGSIZE < npages sz → va / PGSIZE ∈ guard) →
      image ram trampoline trapframe guard pagetable sz * F ≤ (k 0).must (vmLocal ram X) R)
    (hsome : ∀ pa q G, pa ≠ 0 → (∀ q, cell pa q * G ≤ image ram trampoline trapframe guard pagetable sz) →
      cell pa q * (G * F) ≤ (k pa).must (vmLocal ram X) R) :
    image ram trampoline trapframe guard pagetable sz * F ≤ ((walkaddr pagetable va).bind k).must (vmLocal ram X) R := by
  refine image_mul_le fun M hM hpt => ?_
  have hwalk : region ram pagetable M (npages sz) ≤ (walkaddr pagetable va).must (vmLocal ram X) fun r =>
      fact (r = userAddr M va) * table (plain ram) pagetable M * userPages ram M (npages sz) :=
    Prog.frame (walkaddr_le plain_entry)
  refine Prog.seq_frame hwalk fun r => ?_
  rw [mul_assoc (fact _),← region,mul_assoc,fact_mul_le]
  rintro rfl
  have hclose : region ram pagetable M (npages sz) ≤ image ram trampoline trapframe guard pagetable sz := le_image hM hpt
  by_cases hva : va < MAXVA
  · have hv : va / PGSIZE < 2 ^ 27 := by
      simp only [MAXVA,PGSIZE] at hva ⊢
      omega
    rw [userAddr,if_pos hva]
    cases he : M (va / PGSIZE) with
    | none =>
      refine (mul_le_mul_left hclose F).trans (hzero fun hlt => ?_)
      obtain ⟨e,he',-⟩ := hM.low _ hlt
      rw [he] at he'
      cases he'
    | some e =>
      dsimp only
      split
      · rename_i hU
        refine (mul_le_mul_left hclose F).trans (hzero fun hlt => ?_)
        obtain ⟨e',he',-,hU'⟩ := hM.low _ hlt
        by_contra hg
        exact hU' hg (Option.some.inj (he.symm.trans he') ▸ hU)
      · rename_i hU
        have hlt := hM.lt_of_user hv he hU
        refine (region_has hlt he).trans (fact_mul_le.mpr fun hhas => ?_)
        obtain ⟨G,hopen,hback⟩ := region_page ram pagetable hlt he
        refine hopen _ _ fun q => hsome _ q G ?_ fun q => ?_
        · have := hhas.2.1
          have := ram.pos
          omega
        · have := hback q 1
          rw [mul_one,mul_one] at this
          exact this.trans hclose
  · rw [userAddr,if_neg hva]
    refine (mul_le_mul_left hclose F).trans (hzero fun hlt => ?_)
    have := hM.room
    rw [trapPage_eq] at this
    simp only [MAXVA,PGSIZE] at hva hlt
    omega

theorem chunk_le {a len : ℕ} : a - PGROUNDDOWN a + min (PGSIZE - (a - PGROUNDDOWN a)) len ≤ PGSIZE := by
  simp only [PGROUNDDOWN,PGSIZE]
  omega

theorem copyin_image {fuel a len : ℕ} :
    image ram trampoline trapframe guard pagetable sz ≤ (copyinLoop pagetable fuel a len).must (vmLocal ram X) fun _ =>
      image ram trampoline trapframe guard pagetable sz := by
  induction fuel generalizing a len with
  | zero => exact Prog.must_ret_le le_rfl
  | succ fuel ih =>
    rw [copyinLoop]
    split
    · exact Prog.must_ret_le le_rfl
    · rw [← mul_one (image ram trampoline trapframe guard pagetable sz)]
      refine walkaddr_bind (fun _ => ?_) fun pa q G hpa hG => ?_
      · rw [if_pos rfl]
        exact Prog.must_ret_le le_rfl
      · rw [if_neg hpa]
        refine peek_bind chunk_le ?_
        rw [← mul_assoc]
        refine (mul_le_mul_left (hG q) _).trans ?_
        exact Prog.seq_frame ih fun _ => Prog.must_ret_le le_rfl

theorem copyinstr_image {fuel a max : ℕ} :
    image ram trampoline trapframe guard pagetable sz ≤
      (copyinstrLoop pagetable fuel a max).must (vmLocal ram X) fun r =>
        fact (r.2.length ≤ max) * image ram trampoline trapframe guard pagetable sz := by
  induction fuel generalizing a max with
  | zero => exact Prog.must_ret_le (le_fact_mul (Nat.zero_le _) le_rfl)
  | succ fuel ih =>
    rw [copyinstrLoop]
    split
    · exact Prog.must_ret_le (le_fact_mul (Nat.zero_le _) le_rfl)
    · conv_lhs => rw [← mul_one (image ram trampoline trapframe guard pagetable sz)]
      refine walkaddr_bind (fun _ => ?_) fun pa q G hpa hG => ?_
      · rw [if_pos rfl,mul_one]
        exact Prog.must_ret_le (le_fact_mul (Nat.zero_le _) le_rfl)
      · rw [if_neg hpa,mul_one]
        conv_lhs => rw [← mul_one (cell pa q * G),mul_assoc]
        refine peek_bind chunk_le ?_
        rw [mul_one]
        refine (hG q).trans ?_
        generalize hn : min (PGSIZE - (a - PGROUNDDOWN a)) max = m
        have hm : m ≤ max := hn ▸ Nat.min_le_right _ _
        dsimp only
        split
        · rename_i hlt
          refine Prog.must_ret_le (le_fact_mul ?_ le_rfl)
          rw [List.length_append,List.length_singleton]
          omega
        · refine Prog.seq ih fun r => fact_mul_le.mpr fun hr => Prog.must_ret_le (le_fact_mul ?_ le_rfl)
          rw [List.length_append,Bytes.length_slice]
          omega

theorem copyout_image {fuel a : ℕ} {src : List Byte} :
    image ram trampoline trapframe guard pagetable sz ≤ (copyoutLoop pagetable fuel a src).must (vmLocal ram X) fun _ =>
      image ram trampoline trapframe guard pagetable sz := by
  induction fuel generalizing a src with
  | zero => exact Prog.must_ret_le le_rfl
  | succ fuel ih =>
    rw [copyoutLoop]
    split
    · exact Prog.must_ret_le le_rfl
    · dsimp only
      split
      · exact Prog.must_ret_le le_rfl
      · rename_i hmax
        refine image_le fun M hM hpt => ?_
        have hclose : region ram pagetable M (npages sz) ≤ image ram trampoline trapframe guard pagetable sz := le_image hM hpt
        have hv : PGROUNDDOWN a / PGSIZE < 2 ^ 27 := by
          simp only [MAXVA,PGSIZE] at hmax ⊢
          omega
        rw [region]
        refine walk_bind plain_entry (by omega) (fun _ => Prog.must_ret_le hclose) fun x i s G hslot => node_load_bind ?_
        refine hslot.close.trans ?_
        rw [← region]
        split
        · exact Prog.must_ret_le hclose
        · rename_i hok
          simp only [not_or] at hok
          have he := hslot.get.symm.trans (valid_eq_some.mpr ⟨hok.1,rfl⟩)
          obtain ⟨G,hopen,hback⟩ := region_page ram pagetable (hM.lt_of_user hv he hok.2.1) he
          rw [← mul_one (region ram pagetable M (npages sz))]
          refine hopen _ _ fun q => poke_bind ?_ ((hback _ _).trans ?_)
          · refine le_trans (Nat.add_le_add_left (List.length_take_le _ _) _) chunk_le
          · rw [mul_one]
            exact hclose.trans ih

/-! ## `uvmclear` -/

theorem clear_and (e : BitVec 64) {mask : BitVec 64} (h : mask &&& PTE_U = 0) : e &&& ~~~PTE_U &&& mask = e &&& mask := by
  apply BitVec.eq_of_getLsbD_eq
  intro i hi
  have hU : (mask.getLsbD i && PTE_U.getLsbD i) = false := by
    rw [← BitVec.getLsbD_and,h]
    simp
  rw [BitVec.getLsbD_and,BitVec.getLsbD_and,BitVec.getLsbD_and,BitVec.getLsbD_not]
  cases hm : mask.getLsbD i with
  | false => simp
  | true =>
    rw [hm,Bool.true_and] at hU
    rw [hU,Bool.not_false,decide_eq_true hi,Bool.and_true,Bool.and_true]

theorem PTE2PA_clear (e : BitVec 64) : PTE2PA (e &&& ~~~PTE_U) = PTE2PA e := by
  have h : (e &&& ~~~PTE_U) >>> 10 = e >>> 10 := by
    apply BitVec.eq_of_getLsbD_eq
    intro i _
    have hU : ∀ j, j < 64 → 10 ≤ j → PTE_U.getLsbD j = false := by decide
    rw [BitVec.getLsbD_ushiftRight,BitVec.getLsbD_ushiftRight,BitVec.getLsbD_and,BitVec.getLsbD_not]
    rcases Nat.lt_or_ge (10 + i) 64 with hlt | hge
    · rw [hU _ hlt (by omega),Bool.not_false,decide_eq_true hlt,Bool.and_true,Bool.and_true]
    · simp [hge]
  rw [PTE2PA,PTE2PA,h]

theorem uvmclear_held {e : BitVec 64} (hv : v ≤ trapPage) (he : M v = some e) :
    held (plain ram) ram root M c n ≤ (uvmclear root (v * PGSIZE)).must (vmLocal ram X) fun _ =>
      held (plain ram) ram root (update M v (some (e &&& ~~~PTE_U))) c n := by
  have hdiv : v * PGSIZE / PGSIZE = v := Nat.mul_div_cancel v (by decide)
  rw [uvmclear,held]
  refine walk_bind plain_entry ?_ (fun hnone => ?_) fun x i s G hslot => node_load_bind ?_
  · rw [trapPage_eq] at hv
    simp only [MAXVA,PGSIZE]
    omega
  · rw [hdiv,he] at hnone
    cases hnone rfl
  · rw [hdiv] at hslot
    obtain ⟨hvalid,hent⟩ := valid_eq_some.mp (hslot.get.trans he)
    rw [hent] at hvalid ⊢
    refine hslot.store_bind (Prog.must_ret_le ?_)
    have hnew : valid (e &&& ~~~PTE_U) = some (e &&& ~~~PTE_U) := by
      rw [valid_eq_some,clear_and e (by decide)]
      exact ⟨hvalid,rfl⟩
    rw [hnew,held]
    refine mul_le_mul_right (le_of_eq (Finset.prod_congr rfl fun u _ => ?_)) _
    by_cases hu : u = v
    · rw [hu,update_self,he,ownsAt,ownsAt,PTE2PA_clear]
    · rw [update_of_ne hu]

theorem Shape.cleared (h : Shape M n guard trapframe trampoline) {e : BitVec 64} (hv : v < n) (he : M v = some e) :
    Shape (update M v (some (e &&& ~~~PTE_U))) n (insert v guard) trapframe trampoline := by
  have hroom := h.room
  refine ⟨fun u hu => ?_,fun u h₁ h₂ h₃ h₄ => ?_,hroom,fun u hu => ?_,?_,?_⟩
  · obtain ⟨e',he',hR',hU'⟩ := h.low u hu
    by_cases huv : u = v
    · subst huv
      rw [he] at he'
      cases he'
      rw [update_self]
      exact ⟨_,rfl,by rwa [clear_and e (by decide)],fun hg => absurd (Set.mem_insert u guard) hg⟩
    · rw [update_of_ne huv]
      exact ⟨e',he',hR',fun hg => hU' fun h => hg (Set.mem_insert_of_mem v h)⟩
  · rw [update_of_ne (by omega)]
    exact h.high u h₁ h₂ h₃ h₄
  · rcases Set.mem_insert_iff.mp hu with rfl | hu
    · exact hv
    · exact h.guarded u hu
  · rw [update_of_ne (by omega)]
    exact h.trapframe
  · rw [update_of_ne (by omega)]
    exact h.trampoline

/-! ## Transfers and what they write -/

theorem held_has {e : BitVec 64} (hv : v < n) (hM : M v = some e) :
    held I ram root M c n ≤ fact (ram.Has (PTE2PA e)) * held I ram root M c n := by
  refine le_fact_self fun h ⟨f,g,_,hg,_,_⟩ => ?_
  exact (userPages_iff (holds_le _ hg)).1 v e hv hM |>.1

theorem poke_held {e : BitVec 64} {off : ℕ} {bs : List Byte} (hv : v < n) (hM : M v = some e) (hlen : off + bs.length ≤ PGSIZE) :
    held I ram root M c n ≤ (poke (PTE2PA e) off bs).must (vmLocal ram X) fun _ =>
      held I ram root M (update c v ((c v).splice off bs)) n := by
  obtain ⟨G,hopen⟩ := held_page I ram root c hv hM
  have hpage := hopen (c v)
  rw [update_eq_self] at hpage
  rw [hpage,hopen]
  exact poke_bind hlen (Prog.must_ret_le le_rfl)

def written (c : ℕ → Page) (a : ℕ) (bs : List Byte) : ℕ → Page := fun v j =>
  if a ≤ v * PGSIZE + j ∧ v * PGSIZE + j < a + bs.length then bs.getD (v * PGSIZE + j - a) 0 else c v j

theorem written_nil (c : ℕ → Page) (a : ℕ) : written c a [] = c := by
  funext v j
  exact if_neg (by rw [List.length_nil]; omega)

theorem written_append (c : ℕ → Page) (a : ℕ) (xs ys : List Byte) :
    written (written c a xs) (a + xs.length) ys = written c a (xs ++ ys) := by
  funext v j
  simp only [written,List.length_append]
  generalize v * PGSIZE + j.val = b
  by_cases hx : a ≤ b ∧ b < a + xs.length
  · rw [if_neg (by omega),if_pos hx,if_pos (by omega),List.getD_append _ _ _ _ (by omega)]
  · rw [if_neg hx]
    by_cases hy : a + xs.length ≤ b ∧ b < a + xs.length + ys.length
    · rw [if_pos hy,if_pos (by omega),List.getD_append_right _ _ _ _ (by omega),Nat.sub_sub]
    · rw [if_neg hy,if_neg (by omega)]

theorem written_page (c : ℕ → Page) {a : ℕ} {bs : List Byte} (h : a % PGSIZE + bs.length ≤ PGSIZE) :
    written c a bs = update c (a / PGSIZE) ((c (a / PGSIZE)).splice (a % PGSIZE) bs) := by
  funext v
  by_cases hv : v = a / PGSIZE
  · subst hv
    rw [update_self]
    funext j
    have ha := Nat.div_add_mod a PGSIZE
    rw [mul_comm] at ha
    simp only [written,Bytes.splice]
    have hiff : (a ≤ a / PGSIZE * PGSIZE + j ∧ a / PGSIZE * PGSIZE + j < a + bs.length) ↔
        a % PGSIZE ≤ j.val ∧ j.val < a % PGSIZE + bs.length := by omega
    by_cases hj : a % PGSIZE ≤ j.val ∧ j.val < a % PGSIZE + bs.length
    · rw [if_pos (hiff.mpr hj),if_pos hj]
      congr 1
      omega
    · rw [if_neg (mt hiff.mp hj),if_neg hj]
  · rw [update_of_ne hv]
    funext j
    refine if_neg fun hj => hv ?_
    have := j.isLt
    simp only [PGSIZE] at h hj this ⊢
    omega

theorem copyout_held {fuel a : ℕ} {src : List Byte} (hfuel : src.length ≤ fuel) (hn : a + src.length ≤ n * PGSIZE)
    (hroom : n ≤ trapPage)
    (hok : ∀ b, a ≤ b → b < a + src.length → ∃ e, M (b / PGSIZE) = some e ∧ e &&& PTE_U ≠ 0 ∧ e &&& PTE_W ≠ 0) :
    held (plain ram) ram root M c n ≤ (copyoutLoop root fuel a src).must (vmLocal ram X) fun r =>
      fact (r = 0) * held (plain ram) ram root M (written c a src) n := by
  induction fuel generalizing a src c with
  | zero =>
    obtain rfl : src = [] := List.length_eq_zero_iff.mp (by omega)
    rw [written_nil]
    exact Prog.must_ret_le (le_fact_mul rfl le_rfl)
  | succ fuel ih =>
    rw [copyoutLoop]
    split
    · rename_i hnil
      rw [hnil,written_nil]
      exact Prog.must_ret_le (le_fact_mul rfl le_rfl)
    rename_i hne
    have hpos : 0 < src.length := List.length_pos_iff.mpr hne
    obtain ⟨e,he,hU,hW⟩ := hok a le_rfl (by omega)
    have hdiv : PGROUNDDOWN a / PGSIZE = a / PGSIZE := Nat.mul_div_cancel _ (by decide)
    have hoff : a - PGROUNDDOWN a = a % PGSIZE := by
      simp only [PGROUNDDOWN,PGSIZE]
      omega
    have hva : PGROUNDDOWN a < MAXVA := by
      rw [trapPage_eq] at hroom
      simp only [PGROUNDDOWN,PGSIZE,MAXVA] at hn ⊢
      omega
    have hv : a / PGSIZE < n := Nat.div_lt_of_lt_mul (by rw [mul_comm]; omega)
    dsimp only
    rw [if_neg (by omega)]
    conv_lhs => rw [held]
    refine walk_bind plain_entry hva (fun hnone => ?_) fun x i s G hslot => node_load_bind ?_
    · rw [hdiv,he] at hnone
      cases hnone rfl
    rw [hdiv] at hslot
    obtain ⟨hvalid,hent⟩ := valid_eq_some.mp (hslot.get.trans he)
    refine hslot.close.trans ?_
    rw [← held,hent,if_neg (by rw [hent] at hvalid; tauto),hoff]
    generalize hk : min (PGSIZE - a % PGSIZE) src.length = k
    have hmod : a % PGSIZE < PGSIZE := Nat.mod_lt _ (by decide)
    have htake : (src.take k).length = k := by
      rw [List.length_take]
      omega
    have hpage : a % PGSIZE + (src.take k).length ≤ PGSIZE := by omega
    refine Prog.seq (poke_held hv he hpage) fun _ => ?_
    rw [← written_page c (by omega)]
    have hsrc : written c a src = written (written c a (src.take k)) (a + k) (src.drop k) := by
      have := written_append c a (src.take k) (src.drop k)
      rw [htake,List.take_append_drop] at this
      exact this.symm
    rw [hsrc]
    by_cases hlast : src.drop k = []
    · rw [hlast,written_nil]
      cases fuel with
      | zero => exact Prog.must_ret_le (le_fact_mul rfl le_rfl)
      | succ fuel =>
        rw [copyoutLoop,if_pos rfl]
        exact Prog.must_ret_le (le_fact_mul rfl le_rfl)
    · have hlt : k < src.length := by
        by_contra hge
        exact hlast (List.drop_eq_nil_of_le (by omega))
      have hnext : PGROUNDDOWN a + PGSIZE = a + k := by
        simp only [PGROUNDDOWN,PGSIZE] at hk ⊢
        omega
      rw [hnext]
      refine ih (by rw [List.length_drop]; omega) (by rw [List.length_drop]; omega) fun b h₁ h₂ => ?_
      rw [List.length_drop] at h₂
      exact hok b (by omega) (by omega)

end Xv6.Vm
