import Xv6.Vm.Region

/-! # Whole address spaces

Freeing a page table, copying an address space, and the functions of `proc.c` that build and
drop the address space of a process.
-/
namespace Xv6.Vm
open Library Library.Assert
open Function (update update_of_ne update_self)

variable {ram : Ram} {X : VmPanic → Prop} {α : Type} {R : α → Assert ℕ Page} {F : Assert ℕ Page}
variable {root n v l pa : ℕ} {M M' : ℕ → Option (BitVec 64)}

/-! ## `freewalk` -/

namespace PT

def Empty : (l : ℕ) → PT l → Prop
  | 0, t => ∀ i, t.entry i &&& PTE_V = 0
  | l + 1, t => ∀ i s, t.kid i = some s → Empty l s

theorem get_congr {t : PT l} {u v : ℕ} (h : ∀ j, j ≤ l → px j u = px j v) : get l t u = get l t v := by
  induction l with
  | zero => rw [get,get,h 0 le_rfl]
  | succ l ih =>
    rw [get,get,h (l + 1) le_rfl]
    congr 1
    funext s
    exact ih fun j hj => h j (by omega)

theorem empty_of_get {t : PT l} (h : ∀ v, v < 512 ^ (l + 1) → get l t v = none) : Empty l t := by
  induction l with
  | zero =>
    intro i
    have hi := h i.val (by have := i.isLt; omega)
    have hpx : px 0 i.val = i := Fin.ext (by have := i.isLt; simp only [px]; omega)
    rw [get,hpx] at hi
    by_contra hv
    rw [if_pos hv] at hi
    cases hi
  | succ l ih =>
    intro i s hs
    refine ih fun v hv => ?_
    have hlt : v + 512 ^ (l + 1) * i.val < 512 ^ (l + 2) := by
      have := i.isLt
      calc v + 512 ^ (l + 1) * i.val < 512 ^ (l + 1) * (i.val + 1) := by rw [Nat.mul_add,Nat.mul_one]; omega
        _ ≤ 512 ^ (l + 1) * 512 := Nat.mul_le_mul_left _ (by omega)
        _ = 512 ^ (l + 2) := (pow_succ 512 (l + 1)).symm
    have hi : px (l + 1) (v + 512 ^ (l + 1) * i.val) = i := by
      apply Fin.ext
      simp only [px]
      rw [Nat.add_mul_div_left _ _ (by positivity),Nat.div_eq_of_lt hv,Nat.zero_add,Nat.mod_eq_of_lt i.isLt]
    have hget := h _ hlt
    rw [get,hi,hs,Option.bind_some] at hget
    rw [← hget]
    refine get_congr fun j hj => ?_
    apply Fin.ext
    simp only [px]
    obtain ⟨k,rfl⟩ := Nat.exists_eq_add_of_le hj
    rw [show 512 ^ (j + k + 1) * i.val = 512 ^ j * (512 * (512 ^ k * i.val)) by ring,
      Nat.add_mul_div_left _ _ (by positivity),Nat.add_mul_mod_self_left]

end PT

/-- A loop over the entries of one page, each round of which uses up what belongs to its entry and
changes no other. -/
theorem forEach_le {f : Fin 512 → VmCode Unit} {C : Fin 512 → Assert ℕ Page} {L : List (Fin 512)} (hL : L.Nodup) {p : Page}
    (hf : ∀ i p', Page.pte p' i = Page.pte p i → cell pa p' * C i ≤ (f i).must (vmLocal ram X) fun _ =>
      ⨆ q : Page, fact (∀ j, j ≠ i → Page.pte q j = Page.pte p' j) * cell pa q)
    {p' : Page} (hp' : ∀ i ∈ L, Page.pte p' i = Page.pte p i) :
    cell pa p' * (L.map C).prod ≤ (forEach f L).must (vmLocal ram X) fun _ => ⨆ q : Page, cell pa q := by
  induction L generalizing p' with
  | nil =>
    rw [List.map_nil,List.prod_nil,mul_one]
    exact Prog.must_ret_le (le_iSup (fun q : Page => cell pa q) p')
  | cons i L ih =>
    obtain ⟨hi,hL⟩ := List.nodup_cons.mp hL
    rw [List.map_cons,List.prod_cons,← mul_assoc]
    refine Prog.seq_frame (hf i p' (hp' i List.mem_cons_self)) fun _ => ?_
    rw [Quantale.iSup_mul_distrib]
    refine iSup_le fun q => ?_
    rw [mul_assoc,fact_mul_le]
    intro hq
    refine ih hL fun j hj => ?_
    rw [hq j fun hji => hi (hji ▸ hj)]
    exact hp' j (List.mem_cons_of_mem _ hj)

theorem kfree_le (hpa : ram.Has pa) : (⨆ q : Page, cell pa q) ≤ (kfree pa).must (vmLocal ram X) fun _ => 1 := by
  refine iSup_le fun q => ?_
  rw [← mul_one (cell pa q)]
  exact kfree_bind hpa (Prog.must_ret_le le_rfl)

private theorem kept_le (i : Fin 512) (p : Page) :
    cell pa p ≤ (⨆ q : Page, fact (∀ j, j ≠ i → Page.pte q j = Page.pte p j) * cell pa q : Assert ℕ Page) :=
  le_iSup_of_le p (le_fact_mul (fun _ _ => rfl) le_rfl)

theorem freewalk_le {t : PT l} (ht : t.Empty) (hpa : ram.Has pa) :
    node (plain ram) l pa t ≤ (freewalk (l + 1) pa).must (vmLocal ram X) fun _ => 1 := by
  induction l generalizing pa with
  | zero =>
    rw [node]
    refine iSup_le fun p => fact_mul_le.mpr fun hp => ?_
    rw [freewalk]
    have hprod : cell pa p = cell pa p * ((List.finRange 512).map fun _ => (1 : Assert ℕ Page)).prod := by
      rw [List.prod_eq_one fun x hx => (List.mem_map.mp hx).elim fun _ h => h.2.symm,mul_one]
    rw [hprod]
    refine Prog.seq (forEach_le (List.nodup_finRange 512) (fun i p' hi => ?_) fun _ _ => rfl) fun _ => kfree_le hpa
    refine load_bind ?_
    have hv : Page.pte p' i &&& PTE_V = 0 := by rw [hi,hp i]; exact ht i
    rw [if_neg fun h => h.1 hv,if_neg (not_not.mpr hv),mul_one]
    exact Prog.must_ret_le (kept_le i p')
  | succ l ih =>
    rw [node]
    refine iSup_le fun p => ?_
    rw [freewalk,children_eq_list]
    refine Prog.seq (forEach_le (List.nodup_finRange 512) (fun i p' hi => ?_) fun _ _ => rfl) fun _ => kfree_le hpa
    refine load_bind ?_
    cases hk : t.kid i with
    | none =>
      rw [child,← mul_one (fact _),← mul_assoc,mul_comm (cell pa p'),mul_assoc,fact_mul_le]
      intro hv
      rw [← hi] at hv
      rw [if_neg fun h => h.1 hv,if_neg (not_not.mpr hv),mul_one]
      exact Prog.must_ret_le (kept_le i p')
    | some s =>
      rw [child,show ∀ A B C : Assert ℕ Page, A * (B * C) = B * (C * A) by intros; ac_rfl,fact_mul_le]
      rintro ⟨hv,hplain,hhas⟩
      rw [← hi] at hv hplain hhas ⊢
      rw [if_pos ⟨hv,hplain⟩]
      refine Prog.seq_frame (ih (ht i s hk) hhas) fun _ => ?_
      rw [one_mul,← mul_one (cell pa p')]
      refine store_bind (Prog.must_ret_le ?_)
      rw [mul_one]
      exact le_iSup_of_le _ (le_fact_mul (fun j hj => Page.pte_setPte_of_ne p' hj 0) le_rfl)

theorem freewalk_table (hM : ∀ v, v < 2 ^ 27 → M v = none) (hroot : ram.Has root) :
    table (plain ram) root M ≤ (freewalk 3 root).must (vmLocal ram X) fun _ => 1 := by
  refine iSup_le fun t => fact_mul_le.mpr fun ht => freewalk_le (PT.empty_of_get fun v hv => ?_) hroot
  have hv : v < 2 ^ 27 := hv.trans_eq (by norm_num)
  rw [ht v hv,hM v hv]

theorem uvmfree_region {sz : ℕ} (hn : npages sz = n) (hroom : n ≤ trapPage)
    (hlow : ∀ v, v < n → ∃ e, M v = some e ∧ e &&& PTE_R ≠ 0) (hhigh : ∀ v, n ≤ v → v < 2 ^ 27 → M v = none)
    (hroot : ram.Has root) :
    region ram root M n ≤ (uvmfree root sz).must (vmLocal ram X) fun _ => 1 := by
  have hempty : region ram root (removed M 0 n) 0 ≤ (freewalk 3 root).must (vmLocal ram X) fun _ => 1 := by
    rw [region,userPages,Finset.range_zero,Finset.prod_empty,mul_one]
    refine freewalk_table (fun v hv => ?_) hroot
    rw [removed]
    split
    · rfl
    · exact hhigh v (by omega) hv
  rw [uvmfree]
  split
  · refine Prog.seq ?_ fun _ => hempty
    rw [PGROUNDUP_eq (hn ▸ hroom),Nat.mul_div_cancel _ (by decide),hn]
    exact uvmunmap_region (Nat.zero_mul _).symm (Nat.zero_add n) hroom fun v _ h => hlow v h
  · rename_i hsz
    obtain rfl : sz = 0 := by omega
    obtain rfl : n = 0 := hn.symm.trans (by decide)
    rwa [removed_zero] at hempty

/-! ## `uvmcopy` -/

/-- The entry that `uvmcopy` makes for a copy of the page of `e`. -/
def copyEntry (pa : ℕ) (e : BitVec 64) : BitVec 64 := PA2PTE pa ||| PTE_FLAGS e ||| PTE_V

theorem copyEntry_and (pa : ℕ) (e : BitVec 64) {mask : BitVec 64} (hmask : mask.toNat < 1024) (hV : mask &&& PTE_V = 0) :
    copyEntry pa e &&& mask = e &&& mask := by
  rw [copyEntry,BitVec.or_assoc,entry_and _ _ hmask]
  apply BitVec.eq_of_getLsbD_eq
  intro i hi
  have hVi : (mask.getLsbD i && PTE_V.getLsbD i) = false := by
    rw [← BitVec.getLsbD_and,hV]
    simp
  rw [BitVec.getLsbD_and,BitVec.getLsbD_and,BitVec.getLsbD_or,PTE_FLAGS,BitVec.getLsbD_and]
  rcases Nat.lt_or_ge i 10 with h | h
  · have hones : ∀ j, j < 10 → (0x3FF : BitVec 64).getLsbD j = true := by decide
    rw [hones i h]
    cases hm : mask.getLsbD i with
    | false => simp
    | true =>
      rw [hm,Bool.true_and] at hVi
      rw [hVi]
      simp
  · have : mask.getLsbD i = false :=
      Nat.testBit_lt_two_pow (hmask.trans_le (Nat.pow_le_pow_right (n := 2) (by norm_num) h))
    simp [this]

/-- The first `v` pages of `M` have been copied into a table that mapped `M₀` before. -/
structure Copied (M M₀ : ℕ → Option (BitVec 64)) (v : ℕ) (M' : ℕ → Option (BitVec 64)) : Prop where
  same : ∀ u, v ≤ u → M' u = M₀ u
  new : ∀ u, u < v → ∃ pa e, M u = some e ∧ M' u = some (copyEntry pa e)

section Copy
variable {M₀ : ℕ → Option (BitVec 64)} {old new : ℕ}

theorem Copied.zero : Copied M M₀ 0 M₀ := ⟨fun _ _ => rfl,fun _ h => absurd h (Nat.not_lt_zero _)⟩

theorem Copied.succ {e : BitVec 64} (h : Copied M M₀ v M') (he : M v = some e) (pa : ℕ) :
    Copied M M₀ (v + 1) (update M' v (some (copyEntry pa e))) where
  same := fun u hu => by
    rw [update_of_ne (by omega)]
    exact h.same u (by omega)
  new := fun u hu => by
    by_cases huv : u = v
    · exact ⟨pa,e,huv ▸ he,by rw [huv,update_self]⟩
    · rw [update_of_ne huv]
      exact h.new u (by omega)

theorem Copied.readable (h : Copied M M₀ v M') (hM : ∀ u, u < v → ∃ e, M u = some e ∧ e &&& PTE_R ≠ 0) {u : ℕ}
    (hu : u < v) : ∃ e, M' u = some e ∧ e &&& PTE_R ≠ 0 := by
  obtain ⟨pa,e,he,he'⟩ := h.new u hu
  obtain ⟨e₁,he₁,hR⟩ := hM u hu
  obtain rfl := Option.some.inj (he.symm.trans he₁)
  exact ⟨_,he',by rwa [copyEntry_and pa e (by decide) (by decide)]⟩

theorem Copied.removed (h : Copied M M₀ v M') (h₀ : ∀ u, u < v → M₀ u = none) : removed M' 0 v = M₀ := by
  funext u
  rw [Vm.removed]
  split
  · exact (h₀ u (by omega)).symm
  · exact h.same u (by omega)

/-- What `uvmcopy` leaves of the new table: all pages, or nothing new. -/
def copiedTo (ram : Ram) (new : ℕ) (M M₀ : ℕ → Option (BitVec 64)) (n : ℕ) (r : ℤ) : Assert ℕ Page :=
  (⨆ M', fact (r = 0 ∧ Copied M M₀ n M') * region ram new M' n) ⊔ fact (r = -1) * region ram new M₀ 0

/-- The same, the pages having the contents `c` of the copied ones. -/
def copiedHeld (I : BitVec 64 → Prop) (ram : Ram) (new : ℕ) (M M₀ : ℕ → Option (BitVec 64)) (c : ℕ → Page) (n : ℕ) (r : ℤ) :
    Assert ℕ Page :=
  (⨆ M', fact (r = 0 ∧ Copied M M₀ n M') * held I ram new M' c n) ⊔ fact (r = -1) * held I ram new M₀ c 0

theorem splice_slice (p q : Page) : p.splice 0 (q.slice 0 PGSIZE) = q := by
  refine Bytes.ext_get fun i hi => ?_
  rw [Bytes.get_splice _ _ _ hi,Bytes.length_slice,if_pos ⟨Nat.zero_le i,by omega⟩,Nat.sub_zero,Bytes.slice_getD _ _ _ hi,
    Nat.zero_add]

def look (root va : ℕ) : VmCode (Option (BitVec 64)) := do
  match ← walk root va false with
  | none => pure none
  | some (t,i) => do
    let pte ← load t i
    pure (some pte)

theorem load_only {N : VmOp → Prop} (hN : ∀ pa off n, N (.peek pa off n)) (t : ℕ) (i : Fin 512) : (load t i).only N :=
  Prog.only.bind (Prog.only_call (hN _ _ _)) fun _ => Prog.only_ret _

theorem walkFrom_only {N : VmOp → Prop} (hN : ∀ pa off n, N (.peek pa off n)) (va l root : ℕ) :
    (walkFrom va false l root).only N := by
  induction l generalizing root with
  | zero => exact Prog.only_ret _
  | succ l ih =>
    rw [walkFrom]
    refine (load_only hN _ _).bind fun e => ?_
    split
    · exact ih _
    · exact Prog.only_ret _

theorem look_only (root : ℕ) {va : ℕ} (hva : va < MAXVA) :
    (look root va).only fun o => ∀ h r h', (vmLocal ram X).step o h r h' → h' = h := by
  have hN : ∀ pa off n h r h', (vmLocal ram X).step (.peek pa off n) h r h' → h' = h := fun _ _ _ _ _ _ hs => hs.2
  rw [look,walk,if_neg (by omega)]
  refine (walkFrom_only hN va 2 root).bind fun r => ?_
  rcases r with - | ⟨t,i⟩
  · exact Prog.only_ret _
  · exact (load_only hN t i).bind fun _ => Prog.only_ret _

def copyPage (new i : ℕ) (next : VmCode ℤ) (pte : BitVec 64) : VmCode ℤ := do
  if pte &&& PTE_V = 0 then panic .copyNotPresent
  else
    match ← kalloc with
    | none => do
      uvmunmap new 0 (i / PGSIZE) true
      pure (-1)
    | some mem => do
      let bs ← peek (PTE2PA pte) 0 PGSIZE
      poke mem 0 bs
      let r ← mappages new i PGSIZE mem (PTE_FLAGS pte)
      if r ≠ 0 then do
        kfree mem
        uvmunmap new 0 (i / PGSIZE) true
        pure (-1)
      else next

theorem copyLoop_succ (k i : ℕ) : copyLoop old new (k + 1) i = (look old i).bind fun o =>
    o.elim (panic .copyNoPte) (copyPage new i (copyLoop old new k (i + PGSIZE))) := by
  rw [copyLoop,look]
  refine Eq.trans ?_ (Prog.bind_assoc _ _ _).symm
  refine congrArg (Prog.bind _) (funext fun r => ?_)
  rcases r with - | ⟨t,j⟩
  · rfl
  · change (load t j).bind (copyPage new i _) = ((load t j).bind fun pte => .ret (some pte)).bind _
    rw [Prog.bind_assoc]
    rfl

section Exactly
variable {I : BitVec 64 → Prop} (hI : ∀ pa, ram.Has pa → I (PA2PTE pa ||| PTE_V)) {c : ℕ → Page} {f : Heap ℕ Page}
include hI

theorem look_le {va : ℕ} (hva : va < MAXVA) : table I root M ≤ (look root va).must (vmLocal ram X) fun o =>
    fact (o.bind valid = M (va / PGSIZE)) * table I root M := by
  rw [look,← mul_one (table I root M)]
  refine walk_bind hI hva (fun hnone => ?_) fun x i s G hslot => node_load_bind ?_
  · exact Prog.must_ret_le (le_fact_mul (hnone rfl).symm le_rfl)
  · refine Prog.must_ret_le (le_fact_mul hslot.get (hslot.close.trans ?_))
    rw [mul_one]

theorem look_exactly {va : ℕ} (hva : va < MAXVA) (hf : held I ram root M c n f) :
    exactly f ≤ (look root va).must (vmLocal ram X) fun o => fact (o.bind valid = M (va / PGSIZE)) * exactly f := by
  have hmust := Prog.frame (F := holds ram M c n) (look_le (X := X) hI hva) f hf
  refine Prog.imp (Prog.must_exactly (look_only root hva) hmust) fun o => fact_mul_le.mpr fun ho => ?_
  obtain ⟨f₁,f₂,h₁,-⟩ := ho
  exact le_fact_mul (fact_mul_iff.mp h₁).1 le_rfl

theorem copyLoop_held {k n' : ℕ} (hM : User M n) (h₀ : ∀ u, u < n → M₀ u = none)
    (hX : n < n' → n < trapPage ∧ X .copyNoPte ∧ X .copyNotPresent) (hf : held I ram old M c n f)
    (hv : v ≤ n) (hk : v + k = n') (hC : Copied M M₀ v M') :
    exactly f * held I ram new M' c v ≤ (copyLoop old new k (v * PGSIZE)).must (vmLocal ram X) fun r =>
      exactly f * copiedHeld I ram new M M₀ c n' r := by
  induction k generalizing v M' with
  | zero =>
    obtain rfl : v = n' := by omega
    refine Prog.must_ret_le (mul_le_mul_right (le_sup_of_le_left (le_iSup_of_le M' ?_)) _)
    exact le_fact_mul ⟨rfl,hC⟩ le_rfl
  | succ k ih =>
    have hroom := hM.room
    have hfail : exactly f * held I ram new M' c v ≤
        ((uvmunmap new 0 (v * PGSIZE / PGSIZE) true).bind fun _ => pure (-1)).must (vmLocal ram X) fun r =>
          exactly f * copiedHeld I ram new M M₀ c n' r := by
      rw [Nat.mul_div_cancel _ (by decide),mul_comm]
      refine Prog.seq_frame (uvmunmap_held hI (Nat.zero_mul _).symm (Nat.zero_add v) (by omega) fun u _ hu =>
        hC.readable (fun w hw => hM.low w (by omega)) hu) fun _ => ?_
      rw [hC.removed fun u hu => h₀ u (by omega),mul_comm]
      exact Prog.must_ret_le (mul_le_mul_right (le_sup_of_le_right (le_fact_mul rfl le_rfl)) _)
    have hva : v * PGSIZE < MAXVA := by
      rw [trapPage_eq] at hroom
      simp only [MAXVA,PGSIZE]
      omega
    -- past the last page there is nothing to copy
    have hend : M v = none → X .copyNoPte ∧ X .copyNotPresent := fun hnone => by
      refine (hX ?_).2
      by_contra hle
      obtain ⟨e,he,-⟩ := hM.low v (by omega)
      cases he.symm.trans hnone
    rw [copyLoop_succ]
    refine Prog.seq_frame (look_exactly hI hva hf) fun o => ?_
    rw [Nat.mul_div_cancel v (by decide),mul_assoc,fact_mul_le]
    intro ho
    cases o with
    | none => exact panic_le (hend ho.symm).1
    | some e =>
      rw [Option.elim_some,copyPage]
      split
      · rename_i hvalid
        exact panic_le (hend (ho.symm.trans (valid_eq_none.mpr hvalid))).2
      rename_i hvalid
      have he : M v = some e := ho.symm.trans (valid_eq_some.mpr ⟨hvalid,rfl⟩)
      have hvn : v < n := by
        by_contra hle
        have hhigh := hM.high v (by omega) (by have := hX (by omega); omega)
        cases he.symm.trans hhigh
      refine kalloc_bind hfail fun mem hmem => ?_
      have hpage : f (PTE2PA e) = some (c v) := by
        obtain ⟨f₁,f₂,-,h₂,hap,rfl⟩ := hf
        rw [Heap.join_comm hap]
        exact Heap.join_left (holds_content h₂ hvn he)
      rw [mul_left_comm]
      refine peek_exactly_bind hpage (Nat.le_refl _) ?_
      rw [mul_left_comm]
      refine poke_bind (by rw [Bytes.length_slice,Nat.zero_add]) ?_
      rw [splice_slice]
      have hmove : ∀ A B C D : Assert ℕ Page, A * (B * (C * D)) = C * (A * D * B) := by intros; ac_rfl
      have hnew : held I ram new M' c v = table I new M' * holds ram M' c v := rfl
      rw [hnew,hmove]
      refine mappages_bind hI (by omega) ?_ ?_ ?_
      · rw [hC.same v le_rfl]
        exact h₀ v hvn
      · have hpa : PTE2PA (copyEntry mem e) = mem := by
          rw [copyEntry,BitVec.or_assoc]
          exact hmem.PTE2PA (or_valid_lt (by rw [PTE_FLAGS_toNat]; exact Nat.mod_lt _ (by decide)))
        rw [if_neg (by decide),← mul_assoc]
        refine (mul_le_mul_left (held_push hmem hpa).le _).trans ?_
        have := ih hvn (by omega) (hC.succ he mem)
        rw [Nat.succ_mul] at this
        rwa [mul_comm]
      · rw [if_pos (by decide),← hmove,← hnew]
        exact kfree_bind hmem hfail

theorem uvmcopy_held {sz : ℕ} (hM : User M n) (h₀ : ∀ u, u < n → M₀ u = none)
    (hX : n < npages sz → n < trapPage ∧ X .copyNoPte ∧ X .copyNotPresent) (hf : held I ram old M c n f) :
    exactly f * held I ram new M₀ c 0 ≤ (uvmcopy old new sz).must (vmLocal ram X) fun r =>
      exactly f * copiedHeld I ram new M M₀ c (npages sz) r := by
  rw [uvmcopy,← Nat.zero_mul PGSIZE]
  exact copyLoop_held hI hM h₀ hX hf (Nat.zero_le n) (Nat.zero_add _) .zero

end Exactly

theorem copiedHeld_le {c : ℕ → Page} {r : ℤ} : copiedHeld (plain ram) ram new M M₀ c n r ≤ copiedTo ram new M M₀ n r :=
  sup_le_sup (iSup_mono fun _ => mul_le_mul_right held_le_region _) (mul_le_mul_right held_le_region _)

theorem uvmcopy_region {sz : ℕ} (hn : npages sz = n) (hM : User M n) (h₀ : ∀ u, u < n → M₀ u = none) :
    region ram old M n * region ram new M₀ 0 ≤ (uvmcopy old new sz).must (vmLocal ram X) fun r =>
      region ram old M n * copiedTo ram new M M₀ n r := by
  subst hn
  refine region_mul_le fun c => mul_le_of_exactly fun f hf => ?_
  have hnew : region ram new M₀ 0 = held (plain ram) ram new M₀ c 0 := rfl
  rw [hnew]
  refine Prog.imp (uvmcopy_held plain_entry hM h₀ (fun h => absurd h (lt_irrefl _)) hf) fun _ => ?_
  exact mul_le_mul' ((exactly_le hf).trans held_le_region) copiedHeld_le

end Copy

/-! ## Shapes -/

section Shape
variable {guard : Set ℕ} {trapframe trampoline n' : ℕ}

theorem Shape.user (h : Shape M n guard trapframe trampoline) : User M n where
  low := fun v hv => by
    obtain ⟨e,he,hR,-⟩ := h.low v hv
    exact ⟨e,he,hR⟩
  high := fun v h₁ h₂ => by
    rw [trapPage_eq] at h₂
    exact h.high v h₁ (by omega) (by rw [trapPage_eq]; omega) (by rw [trapPage_eq]; omega)
  room := h.room

theorem Shape.lt_of_user (h : Shape M n guard trapframe trampoline) {e : BitVec 64} (hv : v < 2 ^ 27) (he : M v = some e)
    (hU : e &&& PTE_U ≠ 0) : v < n := by
  by_contra hn
  by_cases h₁ : v = trapPage
  · rw [h₁,h.trapframe] at he
    rw [← Option.some.inj he,entry_and _ _ (by decide)] at hU
    exact hU (by decide)
  · by_cases h₂ : v = trapPage + 1
    · rw [h₂,h.trampoline] at he
      rw [← Option.some.inj he,entry_and _ _ (by decide)] at hU
      exact hU (by decide)
    · rw [h.high v (by omega) hv h₁ h₂] at he
      cases he

theorem Shape.grown {perm : BitVec 64} (h : Shape M n guard trapframe trampoline) (hG : Grown perm M n n' M')
    (hn : n ≤ n') (hroom : n' ≤ trapPage) : Shape M' n' guard trapframe trampoline where
  low := fun v hv => by
    rcases Nat.lt_or_ge v n with hlt | hge
    · rw [hG.same v (.inl hlt)]
      exact h.low v hlt
    · obtain ⟨pa,hpa⟩ := hG.new v hge hv
      exact ⟨_,hpa,userEntry_R pa,fun _ => userEntry_U pa⟩
  high := fun v h₁ h₂ h₃ h₄ => by
    rw [hG.same v (.inr h₁)]
    exact h.high v (by omega) h₂ h₃ h₄
  room := hroom
  guarded := fun v hv => (h.guarded v hv).trans_le hn
  trapframe := by rw [hG.same _ (.inr hroom)]; exact h.trapframe
  trampoline := by rw [hG.same _ (.inr (by omega))]; exact h.trampoline

theorem Shape.removed (h : Shape M n guard trapframe trampoline) (hn : n' ≤ n) :
    Shape (removed M n' (n - n')) n' (guard ∩ {v | v < n'}) trapframe trampoline where
  low := fun v hv => by
    rw [removed_of_lt hv]
    obtain ⟨e,he,hR,hU⟩ := h.low v (by omega)
    exact ⟨e,he,hR,fun hg => hU fun hv' => hg ⟨hv',hv⟩⟩
  high := fun v h₁ h₂ h₃ h₄ => by
    rw [Vm.removed]
    split
    · rfl
    · exact h.high v (by omega) h₂ h₃ h₄
  room := hn.trans h.room
  guarded := fun v hv => hv.2
  trapframe := by
    rw [Vm.removed,if_neg (by have := h.room; omega)]
    exact h.trapframe
  trampoline := by
    rw [Vm.removed,if_neg (by have := h.room; omega)]
    exact h.trampoline

def bare (trapframe trampoline : ℕ) : ℕ → Option (BitVec 64) :=
  update (update (fun _ => none) (trapPage + 1) (some (PA2PTE trampoline ||| (PTE_R ||| PTE_X) ||| PTE_V)))
    trapPage (some (PA2PTE trapframe ||| (PTE_R ||| PTE_W) ||| PTE_V))

theorem bare_of_ne (h₁ : v ≠ trapPage) (h₂ : v ≠ trapPage + 1) : bare trapframe trampoline v = none := by
  rw [bare,update_of_ne h₁,update_of_ne h₂]

theorem bare_trapframe : bare trapframe trampoline trapPage = some (PA2PTE trapframe ||| (PTE_R ||| PTE_W ||| PTE_V)) := by
  rw [bare,update_self,BitVec.or_assoc]

theorem bare_trampoline :
    bare trapframe trampoline (trapPage + 1) = some (PA2PTE trampoline ||| (PTE_R ||| PTE_X ||| PTE_V)) := by
  rw [bare,update_of_ne (by omega),update_self,BitVec.or_assoc]

theorem bare_shape : Shape (bare trapframe trampoline) 0 ∅ trapframe trampoline where
  low := fun _ h => absurd h (Nat.not_lt_zero _)
  high := fun _ _ _ h₁ h₂ => bare_of_ne h₁ h₂
  room := Nat.zero_le _
  guarded := fun _ h => h.elim
  trapframe := bare_trapframe
  trampoline := bare_trampoline

theorem Shape.copied {guard' : Set ℕ} {trapframe' : ℕ} {M₀ : ℕ → Option (BitVec 64)}
    (h : Shape M n guard trapframe trampoline) (h₀ : Shape M₀ 0 guard' trapframe' trampoline) (hC : Copied M M₀ n M') :
    Shape M' n guard trapframe' trampoline where
  low := fun v hv => by
    obtain ⟨pa,e,he,he'⟩ := hC.new v hv
    obtain ⟨e₁,he₁,hR,hU⟩ := h.low v hv
    obtain rfl := Option.some.inj (he.symm.trans he₁)
    refine ⟨_,he',?_,fun hg => ?_⟩
    · rwa [copyEntry_and pa e (by decide) (by decide)]
    · rw [copyEntry_and pa e (by decide) (by decide)]
      exact hU hg
  high := fun v h₁ h₂ h₃ h₄ => by
    rw [hC.same v h₁]
    exact h₀.high v (Nat.zero_le v) h₂ h₃ h₄
  room := h.room
  guarded := h.guarded
  trapframe := by
    rw [hC.same _ h.room]
    exact h₀.trapframe
  trampoline := by
    rw [hC.same _ (h.room.trans (by omega))]
    exact h₀.trampoline

end Shape

end Xv6.Vm
