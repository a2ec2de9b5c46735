import Xv6.Vm.Heap

/-! # Page tables as trees, and what they map

A page table is a tree of pages; owning it is owning each node page separately, so no node is
shared. `walk` finds or makes the path to a leaf node and changes nothing that the table maps.
-/
namespace Xv6.Vm
open Library Library.Assert
open Function (update update_eq_self update_idem update_of_ne update_self)

/-! ## Entries -/

theorem PTE2PA_eq (e : BitVec 64) : PTE2PA e = e.toNat / 1024 * 4096 % 2 ^ 64 := by
  simp [PTE2PA,BitVec.toNat_shiftLeft,BitVec.toNat_ushiftRight,Nat.shiftRight_eq_div_pow,Nat.shiftLeft_eq]

theorem PTE_FLAGS_toNat (e : BitVec 64) : (PTE_FLAGS e).toNat = e.toNat % 1024 := by
  rw [PTE_FLAGS,BitVec.toNat_and]
  exact Nat.and_two_pow_sub_one_eq_mod e.toNat 10

section Entry
variable {pa : ℕ} {perm : BitVec 64} (hpa : pa < 2 ^ 56) (hperm : perm.toNat < 1024)
include hpa hperm

theorem entry_toNat : (PA2PTE pa ||| perm).toNat = pa / PGSIZE * 1024 + perm.toNat := by
  have h : (PA2PTE pa).toNat = (pa / 4096) <<< 10 := by
    simp only [PA2PTE,BitVec.toNat_shiftLeft,BitVec.toNat_ushiftRight,BitVec.toNat_ofNat,
      Nat.shiftRight_eq_div_pow,Nat.shiftLeft_eq]
    omega
  rw [BitVec.toNat_or,h,← Nat.shiftLeft_add_eq_or_of_lt (i := 10) hperm,Nat.shiftLeft_eq]

theorem PTE2PA_entry : PTE2PA (PA2PTE pa ||| perm) = pa / PGSIZE * PGSIZE := by
  rw [PTE2PA_eq,entry_toNat hpa hperm]
  simp only [PGSIZE]
  omega

theorem PTE_FLAGS_entry : PTE_FLAGS (PA2PTE pa ||| perm) = perm := by
  apply BitVec.eq_of_toNat_eq
  rw [PTE_FLAGS_toNat,entry_toNat hpa hperm]
  omega

end Entry

theorem or_valid (e : BitVec 64) : (e ||| PTE_V) &&& PTE_V ≠ 0 := by
  intro h
  have := congrArg (BitVec.getLsbD · 0) h
  simp [PTE_V] at this

theorem or_valid_lt {perm : BitVec 64} (h : perm.toNat < 1024) : (perm ||| PTE_V).toNat < 1024 := by
  rw [BitVec.toNat_or]
  exact Nat.or_lt_two_pow (n := 10) h (by decide)

theorem Ram.Has.lt {ram : Ram} {pa : ℕ} (h : ram.Has pa) : pa < 2 ^ 56 := h.2.2.trans_le ram.top

theorem Ram.Has.PTE2PA {ram : Ram} {pa : ℕ} (h : ram.Has pa) {perm : BitVec 64} (hperm : perm.toNat < 1024) :
    PTE2PA (PA2PTE pa ||| perm) = pa := by
  rw [PTE2PA_entry h.lt hperm]
  exact Nat.div_mul_cancel (Nat.dvd_of_mod_eq_zero h.1)

/-! ## Entries of a page -/

def Page.pte (p : Page) (i : Fin 512) : BitVec 64 := BitVec.ofNat 64 (ofLe (p.slice (8 * i.val) 8))

def Page.setPte (p : Page) (i : Fin 512) (e : BitVec 64) : Page := p.splice (8 * i.val) (leBytes 8 e.toNat)

theorem Page.pte_setPte_self (p : Page) (i : Fin 512) (e : BitVec 64) : (Page.setPte p i e).pte i = e := by
  have hi := i.isLt
  have hle : 8 * i.val + (leBytes 8 e.toNat).length ≤ PGSIZE := by
    simp only [leBytes_length,PGSIZE]
    omega
  have h := Bytes.slice_splice_same p hle
  rw [leBytes_length] at h
  rw [Page.pte,Page.setPte,h,ofLe_leBytes_of_lt (e.isLt.trans_le (by norm_num)),BitVec.ofNat_toNat,
    BitVec.setWidth_eq]

theorem Page.pte_setPte_of_ne (p : Page) {i j : Fin 512} (h : j ≠ i) (e : BitVec 64) :
    (Page.setPte p i e).pte j = Page.pte p j := by
  have hij : j.val ≠ i.val := fun he => h (Fin.ext he)
  rw [Page.pte,Page.setPte,Bytes.slice_splice_disjoint]
  · rfl
  · rw [leBytes_length]
    omega

theorem pte_fill_zero (i : Fin 512) : Page.pte (fill 0) i = 0 := by
  have h : (fill 0).slice (8 * i.val) 8 = List.replicate 8 (0 : Byte) := Bytes.slice_zero _ _
  rw [Page.pte,h,ofLe_replicate_zero]
  rfl

theorem splice_replicate (p : Page) (c : Byte) : p.splice 0 (List.replicate PGSIZE c) = fill c := by
  funext j
  have := j.isLt
  simp [Bytes.splice,fill]

section Rules
variable {ram : Ram} {X : VmPanic → Prop} {α : Type} {R : α → Assert ℕ Page} {F : Assert ℕ Page} {pa : ℕ} {p : Page}

theorem load_bind {k : BitVec 64 → VmCode α} {i : Fin 512}
    (hk : cell pa p * F ≤ (k (Page.pte p i)).must (vmLocal ram X) R) :
    cell pa p * F ≤ ((load pa i).bind k).must (vmLocal ram X) R := by
  simp only [load,Prog.bind_eq,Prog.pure_eq,Prog.bind_assoc,Prog.ret_bind]
  exact peek_bind (by have := i.isLt; simp only [PGSIZE]; omega) hk

theorem store_bind {k : Unit → VmCode α} {i : Fin 512} {e : BitVec 64}
    (hk : cell pa (Page.setPte p i e) * F ≤ (k ()).must (vmLocal ram X) R) :
    cell pa p * F ≤ ((store pa i e).bind k).must (vmLocal ram X) R :=
  poke_bind (by have := i.isLt; simp only [leBytes_length,PGSIZE]; omega) hk

theorem memset_bind {k : Unit → VmCode α} {c : Byte}
    (hk : cell pa (fill c) * F ≤ (k ()).must (vmLocal ram X) R) :
    cell pa p * F ≤ ((memset pa c).bind k).must (vmLocal ram X) R :=
  poke_bind (by simp) (by rwa [splice_replicate])

end Rules

/-! ## Trees -/

def px (l v : ℕ) : Fin 512 := ⟨v / 512 ^ l % 512,Nat.mod_lt _ (by decide)⟩

theorem PX_eq (l va : ℕ) : PX l va = px l (va / PGSIZE) := by
  apply Fin.ext
  simp only [PX,px,PGSIZE]
  rw [Nat.div_div_eq_div_mul,show (4096 : ℕ) = 2 ^ 12 by norm_num,show (512 : ℕ) ^ l = 2 ^ (9 * l) by
    rw [show (512 : ℕ) = 2 ^ 9 by norm_num,← pow_mul],← pow_add]

def PT : ℕ → Type
  | 0 => Fin 512 → BitVec 64
  | l + 1 => Fin 512 → Option (PT l)

namespace PT
variable {l v : ℕ}

def entry (t : PT 0) : Fin 512 → BitVec 64 := t
def kid (t : PT (l + 1)) : Fin 512 → Option (PT l) := t
def setEntry (t : PT 0) (i : Fin 512) (e : BitVec 64) : PT 0 := update t.entry i e
def setKid (t : PT (l + 1)) (i : Fin 512) (s : PT l) : PT (l + 1) := update t.kid i (some s)

@[simp] theorem entry_setEntry_self (t : PT 0) (i : Fin 512) (e : BitVec 64) : (t.setEntry i e).entry i = e :=
  update_self (β := fun _ => BitVec 64) ..
theorem entry_setEntry_of_ne (t : PT 0) {i j : Fin 512} (h : j ≠ i) (e : BitVec 64) :
    (t.setEntry i e).entry j = t.entry j := update_of_ne (β := fun _ => BitVec 64) h ..
@[simp] theorem kid_setKid_self (t : PT (l + 1)) (i : Fin 512) (s : PT l) : (t.setKid i s).kid i = some s :=
  update_self (β := fun _ => Option (PT l)) ..
theorem kid_setKid_of_ne (t : PT (l + 1)) {i j : Fin 512} (h : j ≠ i) (s : PT l) :
    (t.setKid i s).kid j = t.kid j := update_of_ne (β := fun _ => Option (PT l)) h ..

theorem setKid_eq_self {t : PT (l + 1)} {i : Fin 512} {s : PT l} (h : t.kid i = some s) : t.setKid i s = t := by
  rw [setKid,← h]
  exact update_eq_self (β := fun _ => Option (PT l)) i t

def zero : (l : ℕ) → PT l
  | 0 => (fun _ => 0 : Fin 512 → BitVec 64)
  | l + 1 => (fun _ => none : Fin 512 → Option (PT l))

theorem entry_zero (i : Fin 512) : (zero 0).entry i = 0 := rfl
theorem kid_zero (i : Fin 512) : (zero (l + 1)).kid i = none := rfl

def get : (l : ℕ) → PT l → ℕ → Option (BitVec 64)
  | 0, t, v => if t.entry (px 0 v) &&& PTE_V ≠ 0 then some (t.entry (px 0 v)) else none
  | l + 1, t, v => (t.kid (px (l + 1) v)).bind fun s => get l s v

def leaf : (l : ℕ) → PT l → ℕ → Option (PT 0)
  | 0, t, _ => some t
  | l + 1, t, v => (t.kid (px (l + 1) v)).bind fun s => leaf l s v

/-- The tree with another leaf node on the path of `v`. -/
def setLeaf : (l : ℕ) → PT l → ℕ → PT 0 → PT l
  | 0, _, _, s => s
  | l + 1, t, v, s =>
    match t.kid (px (l + 1) v) with
    | some u => t.setKid (px (l + 1) v) (setLeaf l u v s)
    | none => t

theorem get_zero (l v : ℕ) : get l (zero l) v = none := by
  cases l with
  | zero => simp [get,entry_zero]
  | succ l => rfl

theorem get_setKid {t : PT (l + 1)} {i : Fin 512} {s : PT l}
    (h : ∀ v, get l s v = (t.kid i).bind fun u => get l u v) : get (l + 1) (t.setKid i s) = get (l + 1) t := by
  funext v
  rw [get,get]
  by_cases hv : px (l + 1) v = i
  · rw [hv,kid_setKid_self,Option.bind_some,h v]
  · rw [kid_setKid_of_ne t hv]

theorem leaf_setKid {t : PT (l + 1)} {s : PT l} : leaf (l + 1) (t.setKid (px (l + 1) v) s) v = leaf l s v := by
  rw [leaf,kid_setKid_self,Option.bind_some]

theorem setLeaf_setKid {t : PT (l + 1)} {s : PT l} {u : PT 0} :
    setLeaf (l + 1) (t.setKid (px (l + 1) v) s) v u = t.setKid (px (l + 1) v) (setLeaf l s v u) := by
  rw [setLeaf,kid_setKid_self]
  exact update_idem (β := fun _ => Option (PT l)) ..

def SameLeaf (l u v : ℕ) : Prop := ∀ j, 1 ≤ j → j ≤ l → px j u = px j v

theorem sameLeaf_succ {u : ℕ} : SameLeaf (l + 1) u v ↔ px (l + 1) u = px (l + 1) v ∧ SameLeaf l u v := by
  constructor
  · intro h
    exact ⟨h (l + 1) (by omega) le_rfl,fun j h₁ h₂ => h j h₁ (by omega)⟩
  · rintro ⟨h,hl⟩ j h₁ h₂
    rcases Nat.lt_or_ge j (l + 1) with hj | hj
    · exact hl j h₁ (by omega)
    · rwa [show j = l + 1 by omega]

theorem get_of_leaf {u : ℕ} {t : PT l} {s : PT 0} (h : leaf l t v = some s) (huv : SameLeaf l u v) :
    get l t u = get 0 s u := by
  induction l with
  | zero => rw [Option.some.inj h]
  | succ l ih =>
    obtain ⟨hi,hl⟩ := sameLeaf_succ.mp huv
    rw [leaf] at h
    obtain ⟨w,hw,h⟩ := Option.bind_eq_some_iff.mp h
    rw [← ih h hl,get,hi,hw,Option.bind_some]

theorem leaf_setLeaf {t : PT l} {s s' : PT 0} (h : leaf l t v = some s) : leaf l (setLeaf l t v s') v = some s' := by
  induction l with
  | zero => rfl
  | succ l ih =>
    rw [leaf] at h
    obtain ⟨w,hw,h⟩ := Option.bind_eq_some_iff.mp h
    rw [setLeaf,hw]
    exact leaf_setKid.trans (ih h)

theorem get_setLeaf_of_not {u : ℕ} {t : PT l} {s s' : PT 0} (h : leaf l t v = some s) (huv : ¬SameLeaf l u v) :
    get l (setLeaf l t v s') u = get l t u := by
  induction l with
  | zero => exact absurd (fun j h₁ h₂ => by omega) huv
  | succ l ih =>
    rw [leaf] at h
    obtain ⟨w,hw,h⟩ := Option.bind_eq_some_iff.mp h
    rw [setLeaf,hw]
    dsimp only
    rw [get,get]
    by_cases hi : px (l + 1) u = px (l + 1) v
    · rw [hi,kid_setKid_self,hw,Option.bind_some,Option.bind_some,ih h fun hl => huv (sameLeaf_succ.mpr ⟨hi,hl⟩)]
    · rw [kid_setKid_of_ne t hi]

end PT

section Node
variable (I : BitVec 64 → Prop) {α : Type} (own : ℕ → α → Assert ℕ Page)

/-- What an entry above the leaf nodes owns; `I` is what is asked of the entries that point to
nodes. -/
def child (e : BitVec 64) : Option α → Assert ℕ Page
  | none => fact (e &&& PTE_V = 0)
  | some s => fact (e &&& PTE_V ≠ 0 ∧ I e) * own (PTE2PA e) s

def children (p : Page) (c : Fin 512 → Option α) : Assert ℕ Page := ∏ i, child I own (Page.pte p i) (c i)

def siblings (p : Page) (c : Fin 512 → Option α) (i : Fin 512) : Assert ℕ Page :=
  ∏ j ∈ Finset.univ.erase i, child I own (Page.pte p j) (c j)

variable {I own}

theorem children_eq (p : Page) (c : Fin 512 → Option α) (i : Fin 512) :
    children I own p c = child I own (Page.pte p i) (c i) * siblings I own p c i :=
  (Finset.mul_prod_erase _ _ (Finset.mem_univ i)).symm

theorem siblings_congr {p q : Page} {c d : Fin 512 → Option α} {i : Fin 512}
    (hp : ∀ j, j ≠ i → Page.pte p j = Page.pte q j) (hc : ∀ j, j ≠ i → c j = d j) :
    siblings I own p c i = siblings I own q d i := by
  refine Finset.prod_congr rfl fun j hj => ?_
  have hj := Finset.ne_of_mem_erase hj
  rw [hp j hj,hc j hj]

theorem children_of_invalid {p : Page} {c : Fin 512 → Option α} (hp : ∀ i, Page.pte p i = 0)
    (hc : ∀ i, c i = none) : children I own p c = 1 := by
  refine Finset.prod_eq_one fun i _ => ?_
  rw [hp i,hc i]
  exact fact_true rfl

theorem children_eq_list (p : Page) (c : Fin 512 → Option α) :
    children I own p c = ((List.finRange 512).map fun i => child I own (Page.pte p i) (c i)).prod := Fin.prod_univ_def _

theorem children_iff {p : Page} {c : Fin 512 → Option α} {h : Heap ℕ Page} :
    children I own p c h ↔ ∃ f : Fin 512 → Heap ℕ Page, (∀ i, child I own (Page.pte p i) (c i) (f i)) ∧
      (∀ i j, i ≠ j → (f i).Apart (f j)) ∧ ∀ x q, h x = some q ↔ ∃ i, f i x = some q := by
  rw [children,prod_iff]
  simp only [Finset.mem_univ,true_and,forall_const]

attribute [irreducible] children siblings

variable (I)

def node : (l : ℕ) → ℕ → PT l → Assert ℕ Page
  | 0, pa, t => ⨆ p : Page, fact (∀ i, Page.pte p i = t.entry i) * cell pa p
  | l + 1, pa, t => ⨆ p : Page, cell pa p * children I (node l) p t.kid

variable {I} {l pa v : ℕ} {t : PT (l + 1)} {i : Fin 512} {alloc : Bool}

theorem le_node_leaf {t : PT 0} (p : Page) (h : ∀ i, Page.pte p i = t.entry i) : cell pa p ≤ node I 0 pa t :=
  (le_fact_mul h le_rfl).trans (le_iSup (fun q : Page => fact (∀ i, Page.pte q i = t.entry i) * cell pa q) p)

theorem le_node (p : Page) : cell pa p * children I (node I l) p t.kid ≤ node I (l + 1) pa t :=
  le_iSup (fun q : Page => cell pa q * children I (node I l) q t.kid) p

theorem node_zero (l pa : ℕ) : cell pa (fill 0) ≤ node I l pa (PT.zero l) := by
  cases l with
  | zero => exact le_node_leaf (fill 0) pte_fill_zero
  | succ l =>
    refine le_trans ?_ (le_node (fill 0))
    rw [children_of_invalid pte_fill_zero PT.kid_zero,mul_one]

theorem node_up {p : Page} {s : PT l} (hv : Page.pte p i &&& PTE_V ≠ 0)
    (hI : I (Page.pte p i)) :
    node I l (PTE2PA (Page.pte p i)) s * (cell pa p * siblings I (node I l) p t.kid i) ≤
      node I (l + 1) pa (t.setKid i s) := by
  refine le_trans ?_ (le_node p)
  rw [children_eq p _ i,PT.kid_setKid_self,child,fact_true ⟨hv,hI⟩,one_mul,
    siblings_congr (fun _ _ => rfl) fun j hj => PT.kid_setKid_of_ne t hj s]
  exact le_of_eq (by ac_rfl)

/-- `walk` has found the entry `i` of the leaf node at `x`: the table may have grown but maps the
same, and the rest of it takes back a changed leaf node. -/
structure Found (I : BitVec 64 → Prop) (l pa : ℕ) (t : PT l) (v : ℕ) (alloc : Bool) (x : ℕ) (i : Fin 512)
    (t' : PT l) (s : PT 0) (F : Assert ℕ Page) : Prop where
  index : i = px 0 v
  get : PT.get l t' = PT.get l t
  same : alloc = false → t' = t
  leaf : PT.leaf l t' v = some s
  back : ∀ s', node I 0 x s' * F ≤ node I l pa (PT.setLeaf l t' v s')

def walked (I : BitVec 64 → Prop) (l pa : ℕ) (t : PT l) (v : ℕ) (alloc : Bool) :
    Option (ℕ × Fin 512) → Assert ℕ Page
  | none => ⨆ t' : PT l, fact (PT.get l t' = PT.get l t ∧
      (alloc = false → t' = t ∧ PT.leaf l t v = none)) * node I l pa t'
  | some (x,i) => ⨆ (t' : PT l) (s : PT 0) (F : Assert ℕ Page),
      fact (Found I l pa t v alloc x i t' s F) * (node I 0 x s * F)

theorem le_walked_none {t t' : PT l} (hget : PT.get l t' = PT.get l t)
    (hleaf : alloc = false → t' = t ∧ PT.leaf l t v = none) : node I l pa t' ≤ walked I l pa t v alloc none :=
  (le_fact_mul ⟨hget,hleaf⟩ le_rfl).trans (le_iSup (fun t' : PT l => fact (PT.get l t' = PT.get l t ∧
      (alloc = false → t' = t ∧ PT.leaf l t v = none)) * node I l pa t') t')

theorem Found.le_walked {t t' : PT l} {x : ℕ} {s : PT 0} {F : Assert ℕ Page}
    (h : Found I l pa t v alloc x i t' s F) : node I 0 x s * F ≤ walked I l pa t v alloc (some (x,i)) :=
  (le_fact_mul h le_rfl).trans (le_iSup_of_le t' (le_iSup_of_le s
    (le_iSup (fun F => fact (Found I l pa t v alloc x i t' s F) * (node I 0 x s * F)) F)))

theorem walked_some_mul_le {t : PT l} {x : ℕ} {P Q : Assert ℕ Page}
    (h : ∀ t' s F, Found I l pa t v alloc x i t' s F → node I 0 x s * (F * P) ≤ Q) :
    walked I l pa t v alloc (some (x,i)) * P ≤ Q := by
  rw [walked,Quantale.iSup_mul_distrib]
  refine iSup_le fun t' => ?_
  rw [Quantale.iSup_mul_distrib]
  refine iSup_le fun s => ?_
  rw [Quantale.iSup_mul_distrib]
  refine iSup_le fun F => ?_
  rw [mul_assoc,fact_mul_le,mul_assoc]
  exact h t' s F

theorem walked_none_mul_le {t : PT l} {P Q : Assert ℕ Page}
    (h : ∀ t', PT.get l t' = PT.get l t → (alloc = false → t' = t ∧ PT.leaf l t v = none) → node I l pa t' * P ≤ Q) :
    walked I l pa t v alloc none * P ≤ Q := by
  rw [walked,Quantale.iSup_mul_distrib]
  refine iSup_le fun t' => ?_
  rw [mul_assoc,fact_mul_le]
  exact fun ⟨hget,hleaf⟩ => h t' hget hleaf

theorem walked_up {p : Page} {u : PT l} {r : Option (ℕ × Fin 512)}
    (hv : Page.pte p (px (l + 1) v) &&& PTE_V ≠ 0) (hI : I (Page.pte p (px (l + 1) v)))
    (hu : t.kid (px (l + 1) v) = some u ∨ alloc = true ∧ t.kid (px (l + 1) v) = none ∧ u = PT.zero l) :
    walked I l (PTE2PA (Page.pte p (px (l + 1) v))) u v alloc r *
      (cell pa p * siblings I (node I l) p t.kid (px (l + 1) v)) ≤ walked I (l + 1) pa t v alloc r := by
  have hget : ∀ s, PT.get l s = PT.get l u → PT.get (l + 1) (t.setKid (px (l + 1) v) s) = PT.get (l + 1) t := by
    intro s hs
    refine PT.get_setKid fun w => ?_
    rw [hs]
    rcases hu with hu | ⟨-,hu,rfl⟩
    · rw [hu,Option.bind_some]
    · rw [hu,Option.bind_none,PT.get_zero]
  have hsame : alloc = false → t.kid (px (l + 1) v) = some u := by
    rintro rfl
    rcases hu with hu | ⟨hf,-⟩
    · exact hu
    · cases hf
  rcases r with - | ⟨x,i⟩
  · refine walked_none_mul_le fun s hs hleaf => ?_
    refine (node_up hv hI).trans (le_walked_none (hget s hs) fun ha => ?_)
    obtain ⟨rfl,hleaf⟩ := hleaf ha
    exact ⟨PT.setKid_eq_self (hsame ha),by rw [PT.leaf,hsame ha,Option.bind_some,hleaf]⟩
  · refine walked_some_mul_le fun s s₀ F h => ?_
    suffices hf : Found I (l + 1) pa t v alloc x i (t.setKid (px (l + 1) v) s) s₀
      (F * (cell pa p * siblings I (node I l) p t.kid (px (l + 1) v))) from hf.le_walked
    constructor
    · exact h.index
    · exact hget s h.get
    · intro ha
      rw [h.same ha]
      exact PT.setKid_eq_self (hsame ha)
    · exact PT.leaf_setKid.trans h.leaf
    · intro s'
      rw [PT.setLeaf_setKid,← mul_assoc]
      exact (mul_le_mul_left (h.back s') _).trans (node_up hv hI)

end Node

section Walk
variable {ram : Ram} {X : VmPanic → Prop} {I : BitVec 64 → Prop} {l pa va : ℕ} {alloc : Bool}
variable (hI : ∀ pa, ram.Has pa → I (PA2PTE pa ||| PTE_V))
include hI

theorem walkFrom_le (t : PT l) :
    node I l pa t ≤ (walkFrom va alloc l pa).must (vmLocal ram X) (walked I l pa t (va / PGSIZE) alloc) := by
  induction l generalizing pa with
  | zero =>
    refine Prog.must_ret_le ?_
    have h : Found I 0 pa t (va / PGSIZE) alloc pa (PX 0 va) t t 1 :=
      ⟨PX_eq 0 va,rfl,fun _ => rfl,rfl,fun s' => by rw [mul_one,PT.setLeaf]⟩
    simpa only [mul_one] using h.le_walked
  | succ l ih =>
    refine iSup_le fun p => load_bind ?_
    rw [PX_eq,children_eq p _ (px (l + 1) (va / PGSIZE))]
    cases hk : t.kid (px (l + 1) (va / PGSIZE)) with
    | some s =>
      rw [child,mul_assoc,mul_left_comm,fact_mul_le]
      rintro ⟨hv,he⟩
      rw [if_pos hv,mul_left_comm]
      exact Prog.imp (Prog.frame (ih s)) fun r => walked_up hv he (.inl hk)
    | none =>
      rw [child,mul_left_comm,fact_mul_le]
      intro hv
      have hsame : cell pa p * siblings I (node I l) p t.kid (px (l + 1) (va / PGSIZE)) ≤ node I (l + 1) pa t := by
        refine le_trans (le_of_eq ?_) (le_node p)
        rw [children_eq p _ (px (l + 1) (va / PGSIZE)),hk,child,fact_true hv,one_mul]
      rw [if_neg (not_not.mpr hv)]
      split
      · exact Prog.must_ret_le (hsame.trans (le_walked_none rfl fun _ => ⟨rfl,by rw [PT.leaf,hk,Option.bind_none]⟩))
      · rename_i halloc
        refine kalloc_bind (Prog.must_ret_le (hsame.trans (le_walked_none rfl fun h => absurd h halloc)))
          fun page hpage => memset_bind ?_
        -- the new node is linked, and the walk goes on in it
        rw [mul_left_comm]
        refine store_bind ?_
        rw [mul_left_comm]
        have hpte := Page.pte_setPte_self p (px (l + 1) (va / PGSIZE)) (PA2PTE page ||| PTE_V)
        have hpa : PTE2PA (PA2PTE page ||| PTE_V) = page := hpage.PTE2PA (by decide)
        rw [siblings_congr (q := Page.setPte p (px (l + 1) (va / PGSIZE)) (PA2PTE page ||| PTE_V))
          (fun j hj => (Page.pte_setPte_of_ne p hj _).symm) fun _ _ => rfl]
        refine Prog.imp (Prog.frame ((node_zero l page).trans (ih (PT.zero l)))) fun r => ?_
        have hup : _ ≤ walked I (l + 1) pa t (va / PGSIZE) alloc r :=
          walked_up (p := Page.setPte p (px (l + 1) (va / PGSIZE)) (PA2PTE page ||| PTE_V)) (u := PT.zero l)
            (by rw [hpte]; exact or_valid _) (by rw [hpte]; exact hI page hpage)
            (.inr ⟨by simpa using halloc,hk,rfl⟩)
        rwa [hpte,hpa] at hup

omit hI in
theorem eq_of_px {u v : ℕ} (hu : u < 2 ^ 27) (hv : v < 2 ^ 27) (h : PT.SameLeaf 2 u v) (h₀ : px 0 u = px 0 v) :
    u = v := by
  have h₁ := congrArg Fin.val (h 1 le_rfl (by decide))
  have h₂ := congrArg Fin.val (h 2 (by decide) le_rfl)
  have h₀ := congrArg Fin.val h₀
  simp only [px] at h₀ h₁ h₂
  omega

def valid (e : BitVec 64) : Option (BitVec 64) := if e &&& PTE_V ≠ 0 then some e else none

omit hI in
theorem get_setEntry {t : PT 2} {s : PT 0} {e : BitVec 64} {u v : ℕ} (h : PT.leaf 2 t v = some s) (hu : u < 2 ^ 27)
    (hv : v < 2 ^ 27) :
    PT.get 2 (PT.setLeaf 2 t v (s.setEntry (px 0 v) e)) u = if u = v then valid e else PT.get 2 t u := by
  by_cases hs : PT.SameLeaf 2 u v
  · rw [PT.get_of_leaf (PT.leaf_setLeaf h) hs,PT.get_of_leaf h hs,PT.get,PT.get]
    by_cases huv : u = v
    · rw [if_pos huv,huv,PT.entry_setEntry_self,valid]
    · rw [if_neg huv,PT.entry_setEntry_of_ne s fun h₀ => huv (eq_of_px hu hv hs h₀)]
  · rw [PT.get_setLeaf_of_not h hs,if_neg]
    rintro rfl
    exact hs fun _ _ _ => rfl

variable (I) in
def table (root : ℕ) (M : ℕ → Option (BitVec 64)) : Assert ℕ Page :=
  ⨆ t : PT 2, fact (∀ v, v < 2 ^ 27 → PT.get 2 t v = M v) * node I 2 root t

omit hI in
theorem le_table {root : ℕ} {M : ℕ → Option (BitVec 64)} {t : PT 2} (h : ∀ v, v < 2 ^ 27 → PT.get 2 t v = M v) :
    node I 2 root t ≤ table I root M :=
  (le_fact_mul h le_rfl).trans (le_iSup (fun t : PT 2 => fact (∀ v, v < 2 ^ 27 → PT.get 2 t v = M v) * node I 2 root t) t)

/-- `i` is the entry for `v` in the leaf node at `x`; the rest of the table is `F`. -/
structure Slot (I : BitVec 64 → Prop) (root : ℕ) (M : ℕ → Option (BitVec 64)) (v x : ℕ) (i : Fin 512) (s : PT 0)
    (F : Assert ℕ Page) : Prop where
  get : valid (s.entry i) = M v
  back : ∀ e, node I 0 x (s.setEntry i e) * F ≤ table I root (update M v (valid e))

theorem walk_bind {α : Type} {R : α → Assert ℕ Page} {F : Assert ℕ Page} {root : ℕ} {M : ℕ → Option (BitVec 64)}
    {k : Option (ℕ × Fin 512) → VmCode α} (hva : va < MAXVA)
    (hnone : (alloc = false → M (va / PGSIZE) = none) → table I root M * F ≤ (k none).must (vmLocal ram X) R)
    (hsome : ∀ x i s G, Slot I root M (va / PGSIZE) x i s G →
      node I 0 x s * (G * F) ≤ (k (some (x,i))).must (vmLocal ram X) R) :
    table I root M * F ≤ ((walk root va alloc).bind k).must (vmLocal ram X) R := by
  have hv : va / PGSIZE < 2 ^ 27 := by
    simp only [MAXVA,PGSIZE] at hva ⊢
    omega
  rw [walk,if_neg (by omega),table,Quantale.iSup_mul_distrib]
  refine iSup_le fun t => ?_
  rw [mul_assoc,fact_mul_le]
  intro hM
  refine Prog.seq_frame (walkFrom_le hI t) fun r => ?_
  rcases r with - | ⟨x,i⟩
  · refine walked_none_mul_le fun t' hget hleaf => ?_
    refine (mul_le_mul_left (le_table (M := M) fun v hv => ?_) F).trans (hnone fun ha => ?_)
    · rw [hget,hM v hv]
    · rw [← hM _ hv]
      have := (hleaf ha).2
      rw [PT.leaf] at this
      cases h₂ : t.kid (px 2 (va / PGSIZE)) with
      | none => rw [PT.get,h₂,Option.bind_none]
      | some t₁ =>
        rw [h₂,Option.bind_some,PT.leaf] at this
        cases h₁ : t₁.kid (px 1 (va / PGSIZE)) with
        | none => rw [PT.get,h₂,Option.bind_some,PT.get,h₁,Option.bind_none]
        | some t₀ => rw [h₁] at this; cases this
  · refine walked_some_mul_le fun t' s G h => hsome x i s G ⟨?_,fun e => ?_⟩
    · rw [← hM _ hv,← h.get,PT.get_of_leaf h.leaf fun _ _ _ => rfl,h.index]
      rfl
    · refine (h.back _).trans (le_table fun u hu => ?_)
      rw [h.index,get_setEntry h.leaf hu hv,h.get]
      by_cases huv : u = va / PGSIZE
      · rw [if_pos huv,huv,update_self]
      · rw [if_neg huv,update_of_ne huv,hM u hu]

end Walk

end Xv6.Vm
