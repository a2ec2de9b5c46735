import Xv6.Vm.Table

/-! # `mappages`, `uvmunmap` and `walkaddr` on what a table maps -/
namespace Xv6.Vm
open Library Library.Assert
open Function (update update_eq_self update_of_ne update_self)

variable {ram : Ram} {X : VmPanic → Prop} {I : BitVec 64 → Prop} {α : Type} {R : α → Assert ℕ Page}
variable {F G : Assert ℕ Page} {root va pa v x : ℕ} {i : Fin 512} {s : PT 0} {M : ℕ → Option (BitVec 64)}

theorem node_load_bind {k : BitVec 64 → VmCode α} (hk : node I 0 x s * F ≤ (k (s.entry i)).must (vmLocal ram X) R) :
    node I 0 x s * F ≤ ((load x i).bind k).must (vmLocal ram X) R := by
  rw [node,Quantale.iSup_mul_distrib]
  refine iSup_le fun p => ?_
  rw [mul_assoc,fact_mul_le]
  intro hp
  refine load_bind ?_
  rw [hp i]
  exact (mul_le_mul_left (le_node_leaf p hp) F).trans hk

theorem node_store_bind {k : Unit → VmCode α} {e : BitVec 64}
    (hk : node I 0 x (s.setEntry i e) * F ≤ (k ()).must (vmLocal ram X) R) :
    node I 0 x s * F ≤ ((store x i e).bind k).must (vmLocal ram X) R := by
  rw [node,Quantale.iSup_mul_distrib]
  refine iSup_le fun p => ?_
  rw [mul_assoc,fact_mul_le]
  intro hp
  refine store_bind ((mul_le_mul_left (le_node_leaf _ fun j => ?_) F).trans hk)
  by_cases hj : j = i
  · rw [hj,Page.pte_setPte_self,PT.entry_setEntry_self]
  · rw [Page.pte_setPte_of_ne p hj,PT.entry_setEntry_of_ne s hj,hp j]

namespace Slot

theorem close (h : Slot I root M v x i s G) : node I 0 x s * (G * F) ≤ table I root M * F := by
  rw [← mul_assoc]
  refine mul_le_mul_left ?_ F
  have hself : s.setEntry i (s.entry i) = s := update_eq_self (β := fun _ => BitVec 64) i s
  have := h.back (s.entry i)
  rwa [hself,h.get,update_eq_self] at this

theorem store_bind {k : Unit → VmCode α} {e : BitVec 64} (h : Slot I root M v x i s G)
    (hk : table I root (update M v (valid e)) * F ≤ (k ()).must (vmLocal ram X) R) :
    node I 0 x s * (G * F) ≤ ((store x i e).bind k).must (vmLocal ram X) R := by
  refine node_store_bind ?_
  rw [← mul_assoc]
  exact (mul_le_mul_left (h.back e) F).trans hk

end Slot

theorem valid_eq_none {e : BitVec 64} : valid e = none ↔ e &&& PTE_V = 0 := by
  simp [valid]

theorem valid_eq_some {e e' : BitVec 64} : valid e = some e' ↔ e &&& PTE_V ≠ 0 ∧ e = e' := by
  simp [valid]

theorem valid_or_V (e : BitVec 64) : valid (e ||| PTE_V) = some (e ||| PTE_V) :=
  valid_eq_some.mpr ⟨or_valid e,rfl⟩

/-- `n` pages from `v` on, mapped to the pages from `pa` on. -/
def mapped (M : ℕ → Option (BitVec 64)) (v n pa : ℕ) (perm : BitVec 64) : ℕ → Option (BitVec 64) := fun u =>
  if v ≤ u ∧ u < v + n then some (PA2PTE (pa + (u - v) * PGSIZE) ||| perm ||| PTE_V) else M u

def removed (M : ℕ → Option (BitVec 64)) (v n : ℕ) : ℕ → Option (BitVec 64) := fun u =>
  if v ≤ u ∧ u < v + n then none else M u

theorem mapped_zero {perm : BitVec 64} : mapped M v 0 pa perm = M := by
  funext u
  exact if_neg (by omega)

theorem removed_zero : removed M v 0 = M := by
  funext u
  exact if_neg (by omega)

theorem mapped_succ {perm : BitVec 64} {n : ℕ} :
    mapped (update M v (some (PA2PTE pa ||| perm ||| PTE_V))) (v + 1) n (pa + PGSIZE) perm =
      mapped M v (n + 1) pa perm := by
  funext u
  simp only [mapped]
  by_cases hu : u = v
  · subst hu
    rw [if_neg (by omega),update_self,if_pos (by omega),Nat.sub_self,Nat.zero_mul,Nat.add_zero]
  · rw [update_of_ne hu]
    by_cases h : v + 1 ≤ u ∧ u < v + 1 + n
    · rw [if_pos h,if_pos (by omega),show u - v = u - (v + 1) + 1 by omega]
      congr 4
      ring
    · rw [if_neg h,if_neg (by omega)]

theorem removed_succ {n : ℕ} : removed (update M v none) (v + 1) n = removed M v (n + 1) := by
  funext u
  simp only [removed]
  by_cases hu : u = v
  · subst hu
    rw [if_neg (by omega),update_self,if_pos (by omega)]
  · rw [update_of_ne hu]
    by_cases h : v + 1 ≤ u ∧ u < v + 1 + n
    · rw [if_pos h,if_pos (by omega)]
    · rw [if_neg h,if_neg (by omega)]

def userAddr (M : ℕ → Option (BitVec 64)) (va : ℕ) : ℕ :=
  if va < MAXVA then
    match M (va / PGSIZE) with
    | some e => if e &&& PTE_U = 0 then 0 else PTE2PA e
    | none => 0
  else 0

/-- What `mappages` leaves: all pages are mapped, or it has failed after some of them. -/
def mappedPost (I : BitVec 64 → Prop) (root : ℕ) (M : ℕ → Option (BitVec 64)) (v n pa : ℕ) (perm : BitVec 64) (r : ℤ) :
    Assert ℕ Page :=
  ⨆ m, fact ((r = 0 ∧ m = n ∨ r = -1 ∧ m < n) ∧ ∀ u, v ≤ u → u < v + m → M u = none) *
    table I root (mapped M v m pa perm)

theorem le_mappedPost {n m : ℕ} {perm : BitVec 64} {r : ℤ} (h : r = 0 ∧ m = n ∨ r = -1 ∧ m < n)
    (hM : ∀ u, v ≤ u → u < v + m → M u = none) :
    table I root (mapped M v m pa perm) ≤ mappedPost I root M v n pa perm r :=
  (le_fact_mul ⟨h,hM⟩ le_rfl).trans (le_iSup (fun m => fact ((r = 0 ∧ m = n ∨ r = -1 ∧ m < n) ∧
    ∀ u, v ≤ u → u < v + m → M u = none) * table I root (mapped M v m pa perm)) m)

section Map
variable (hI : ∀ pa, ram.Has pa → I (PA2PTE pa ||| PTE_V))
include hI

theorem mapLoop_le {n : ℕ} {perm : BitVec 64} (hva : va = v * PGSIZE) (hmax : (v + n) * PGSIZE ≤ MAXVA)
    (hfree : ∀ u, v ≤ u → u < v + n → M u = none ∨ X .mapRemap) :
    table I root M ≤ (mapLoop root perm n va pa).must (vmLocal ram X) (mappedPost I root M v n pa perm) := by
  induction n generalizing va v pa M with
  | zero =>
    refine Prog.must_ret_le (le_trans (le_of_eq ?_) (le_mappedPost (.inl ⟨rfl,rfl⟩) fun u _ _ => by omega))
    rw [mapped_zero]
  | succ n ih =>
    have hv : va / PGSIZE = v := by rw [hva]; exact Nat.mul_div_cancel v (by norm_num)
    rw [← mul_one (table I root M)]
    refine walk_bind hI (by rw [hva]; simp only [PGSIZE] at hmax ⊢; omega) (fun _ => ?_) fun x i s G hslot => ?_
    · refine Prog.must_ret_le ?_
      rw [mul_one]
      refine le_trans (le_of_eq ?_) (le_mappedPost (m := 0) (.inr ⟨rfl,by omega⟩) fun u _ _ => by omega)
      rw [mapped_zero]
    · rw [hv] at hslot
      refine node_load_bind ?_
      split
      · rename_i hvalid
        refine panic_le ((hfree v le_rfl (by omega)).resolve_left fun h => hvalid ?_)
        exact valid_eq_none.mp (hslot.get.trans h)
      · rename_i hvalid
        have hnone : M v = none := hslot.get.symm.trans (valid_eq_none.mpr (not_not.mp hvalid))
        refine hslot.store_bind ?_
        rw [mul_one,valid_or_V]
        refine Prog.imp (ih (v := v + 1) (by rw [hva,Nat.succ_mul])
          (by rwa [Nat.add_assoc,Nat.add_comm 1 n]) fun u h₁ h₂ => ?_) fun r => ?_
        · rw [update_of_ne (by omega)]
          exact hfree u (by omega) (by omega)
        · refine iSup_le fun m => fact_mul_le.mpr fun ⟨hr,hm⟩ => ?_
          rw [mapped_succ]
          refine le_mappedPost (by omega) fun u h₁ h₂ => ?_
          by_cases hu : u = v
          · rw [hu,hnone]
          · have := hm u (by omega) (by omega)
            rwa [update_of_ne hu] at this

theorem mappages_le {size : ℕ} {perm : BitVec 64} (hva : va % PGSIZE = 0) (hsize : size % PGSIZE = 0) (hpos : 0 < size)
    (hmax : va + size ≤ MAXVA)
    (hfree : ∀ u, va / PGSIZE ≤ u → u < va / PGSIZE + size / PGSIZE → M u = none ∨ X .mapRemap) :
    table I root M ≤ (mappages root va size pa perm).must (vmLocal ram X)
      (mappedPost I root M (va / PGSIZE) (size / PGSIZE) pa perm) := by
  rw [mappages,if_neg (not_not.mpr hva),if_neg (not_not.mpr hsize),if_neg hpos.ne']
  refine mapLoop_le hI ?_ ?_ hfree
  · simp only [PGSIZE] at hva ⊢
    omega
  · simp only [PGSIZE] at hva hsize ⊢
    omega

theorem walkaddr_le :
    table I root M ≤ (walkaddr root va).must (vmLocal ram X) fun r => fact (r = userAddr M va) * table I root M := by
  rw [walkaddr]
  split
  · rename_i hva
    exact Prog.must_ret_le (le_fact_mul (if_neg (by omega)).symm le_rfl)
  · rename_i hva
    have hva : va < MAXVA := by omega
    rw [← mul_one (table I root M)]
    refine walk_bind hI hva (fun hnone => Prog.must_ret_le ?_) fun x i s G hslot => node_load_bind ?_
    · exact le_fact_mul (by simp [userAddr,hnone]) le_rfl
    · split
      · rename_i he
        refine Prog.must_ret_le (hslot.close.trans (le_fact_mul ?_ le_rfl))
        rw [userAddr,← hslot.get,valid_eq_none.mpr he,ite_self]
      · rename_i he
        have hM := hslot.get.symm.trans (valid_eq_some.mpr ⟨he,rfl⟩)
        rw [userAddr,if_pos hva,hM]
        split
        · rename_i hU
          exact Prog.must_ret_le (hslot.close.trans (le_fact_mul (if_pos hU).symm le_rfl))
        · rename_i hU
          exact Prog.must_ret_le (hslot.close.trans (le_fact_mul (if_neg hU).symm le_rfl))

end Map

def owns (ram : Ram) : Option (BitVec 64) → Assert ℕ Page
  | none => 1
  | some e => fact (ram.Has (PTE2PA e)) * ⨆ p : Page, cell (PTE2PA e) p

def ownsAt (ram : Ram) (q : Page) : Option (BitVec 64) → Assert ℕ Page
  | none => 1
  | some e => fact (ram.Has (PTE2PA e)) * cell (PTE2PA e) q

theorem owns_eq (o : Option (BitVec 64)) : owns ram o = ⨆ q : Page, ownsAt ram q o := by
  cases o with
  | none => exact ciSup_const.symm
  | some e => exact Quantale.mul_iSup_distrib

theorem ownsAt_le {q : Page} (o : Option (BitVec 64)) : ownsAt ram q o ≤ owns ram o := by
  rw [owns_eq]
  exact le_iSup (fun q : Page => ownsAt ram q o) q

def freed (ram : Ram) (do_free : Bool) (M : ℕ → Option (BitVec 64)) (v n : ℕ) : Assert ℕ Page :=
  if do_free then ∏ k ∈ Finset.range n, owns ram (M (v + k)) else 1

theorem freed_succ {do_free : Bool} {n : ℕ} :
    freed ram do_free M v (n + 1) =
      (if do_free then owns ram (M v) else 1) * freed ram do_free (update M v none) (v + 1) n := by
  cases do_free
  · simp [freed]
  · simp only [freed,if_true]
    rw [Finset.prod_range_succ',Nat.add_zero,mul_comm]
    congr 1
    refine Finset.prod_congr rfl fun k _ => ?_
    rw [update_of_ne (by omega),Nat.add_right_comm,Nat.add_assoc]

section Unmap
variable (hI : ∀ pa, ram.Has pa → I (PA2PTE pa ||| PTE_V))
include hI

theorem unmapLoop_le {n : ℕ} {do_free : Bool} (hva : va = v * PGSIZE) (hmax : (v + n) * PGSIZE ≤ MAXVA)
    (hleaf : ∀ u, v ≤ u → u < v + n → (∃ e, M u = some e ∧ PTE_FLAGS e ≠ PTE_V) ∨
      X .unmapWalk ∧ X .unmapNotMapped ∧ X .unmapNotLeaf) :
    table I root M * freed ram do_free M v n ≤ (unmapLoop root do_free n va).must (vmLocal ram X) fun _ =>
      table I root (removed M v n) := by
  induction n generalizing va v M with
  | zero =>
    refine Prog.must_ret_le (le_of_eq ?_)
    rw [removed_zero]
    cases do_free <;> simp [freed]
  | succ n ih =>
    have hv : va / PGSIZE = v := by rw [hva]; exact Nat.mul_div_cancel v (by norm_num)
    have hhead := hleaf v le_rfl (by omega)
    have hrest : table I root (update M v none) * freed ram do_free (update M v none) (v + 1) n ≤
        (unmapLoop root do_free n (va + PGSIZE)).must (vmLocal ram X) fun _ => table I root (removed M v (n + 1)) := by
      rw [← removed_succ]
      refine ih (by rw [hva,Nat.succ_mul]) (by rwa [Nat.add_assoc,Nat.add_comm 1 n]) fun u h₁ h₂ => ?_
      rw [update_of_ne (by omega)]
      exact hleaf u (by omega) (by omega)
    refine walk_bind hI (by rw [hva]; simp only [PGSIZE] at hmax ⊢; omega) (fun hnone => ?_) fun x i s G hslot => ?_
    · rw [hv] at hnone
      rcases hhead with ⟨e,he,-⟩ | hX
      · rw [hnone rfl] at he
        cases he
      · exact panic_le hX.1
    · rw [hv] at hslot
      refine node_load_bind ?_
      split
      · rename_i he
        rcases hhead with ⟨e,hMe,-⟩ | hX
        · rw [← hslot.get,valid_eq_none.mpr he] at hMe
          cases hMe
        · exact panic_le hX.2.1
      · rename_i he
        have hM := hslot.get.symm.trans (valid_eq_some.mpr ⟨he,rfl⟩)
        split
        · rename_i hflags
          rcases hhead with ⟨e,hMe,hne⟩ | hX
          · rw [hM] at hMe
            exact absurd hflags (Option.some.inj hMe ▸ hne)
          · exact panic_le hX.2.2
        · have hzero : valid 0 = none := valid_eq_none.mpr (by decide)
          rw [freed_succ]
          cases do_free with
          | false =>
            simp only [Bool.false_eq_true,if_false,one_mul]
            refine hslot.store_bind ?_
            rw [hzero]
            exact hrest
          | true =>
            simp only [if_true,hM,owns]
            rw [show ∀ A B C D E : Assert ℕ Page, A * (B * (C * D * E)) = C * (D * (A * (B * E))) by
              intros; ac_rfl,fact_mul_le]
            intro hram
            rw [Quantale.iSup_mul_distrib]
            refine iSup_le fun p => kfree_bind hram (hslot.store_bind ?_)
            rw [hzero]
            exact hrest

theorem uvmunmap_le {n : ℕ} {do_free : Bool} (hva : va % PGSIZE = 0) (hmax : va + n * PGSIZE ≤ MAXVA)
    (hleaf : ∀ u, va / PGSIZE ≤ u → u < va / PGSIZE + n → (∃ e, M u = some e ∧ PTE_FLAGS e ≠ PTE_V) ∨
      X .unmapWalk ∧ X .unmapNotMapped ∧ X .unmapNotLeaf) :
    table I root M * freed ram do_free M (va / PGSIZE) n ≤ (uvmunmap root va n do_free).must (vmLocal ram X) fun _ =>
      table I root (removed M (va / PGSIZE) n) := by
  rw [uvmunmap,if_neg (not_not.mpr hva)]
  refine unmapLoop_le hI ?_ ?_ hleaf
  · simp only [PGSIZE] at hva ⊢
    omega
  · simp only [PGSIZE] at hva hmax ⊢
    omega

end Unmap

end Xv6.Vm
