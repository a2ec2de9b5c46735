import Xv6.Exec.Rules

/-! # Loading a program

The loop over the program headers and `loadseg`, for any file: what a read of the file may return
is a parameter. The image under construction is its size, its mappings and the contents of its
pages.
-/
namespace Xv6.Exec
open Library Library.Assert Vm
open Function (update update_of_ne update_self)

/-- The locked file `ip`: reads of less than a page keep `J` and return what `reads` allows, and closing the file leads
from `J` to `J'`. -/
structure Source (sb : Superblock) (p : Pid) (X : KHalt → Prop) (ip : Fin NINODE) (J J' : St → Prop)
    (reads : ℕ → ℕ → Option ℕ × List Byte → Prop) : Prop where
  read : ∀ s off n, off < 2 ^ 32 → n ≤ PGSIZE → J s →
    (readi sb ip .kernel off n).wp (St.exec p) (fun e => X (.fs e)) (fun r t => J t ∧ reads off n r) s
  length : ∀ off n r, reads off n r → r.2.length ≤ n
  close : ∀ s, J s → ((iunlockput sb ip).bind fun _ => endOp).wp (St.exec p) (fun e => X (.fs e)) (fun _ t => J' t) s

theorem readiLoop_length {sb : Superblock} {S E : Type} {H : Prog.Handler (Op ℕ) Op.Res S E} {ip : Fin NINODE} {dst : Dst}
    {n fuel tot off : ℕ} {acc : List Byte} (hacc : acc.length ≤ tot) (htot : tot ≤ n) (s : S) :
    (readiLoop sb ip dst n fuel tot off acc).wp H (fun _ => True) (fun r _ => r.2.length ≤ n) s := by
  induction fuel generalizing tot off acc s with
  | zero => exact (Prog.wp_pure _ _ _).mpr (hacc.trans htot)
  | succ fuel ih =>
    rw [readiLoop]
    split
    swap
    · exact (Prog.wp_pure _ _ _).mpr (hacc.trans htot)
    refine Prog.wp_bind_any (fun _ => trivial) fun addr t => ?_
    split
    · exact (Prog.wp_pure _ _ _).mpr (hacc.trans htot)
    refine Prog.wp_bind_any (fun _ => trivial) fun bp t => ?_
    refine Prog.wp_bind_any (fun _ => trivial) fun d t => ?_
    refine Prog.wp_bind_any (fun _ => trivial) fun ok t => ?_
    refine Prog.wp_bind_any (fun _ => trivial) fun _ t => ?_
    split
    · refine ih ?_ (by omega) t
      rw [List.length_append,Bytes.length_slice]
      omega
    · exact (Prog.wp_pure _ _ _).mpr (hacc.trans htot)

theorem readi_length {sb : Superblock} {S E : Type} {H : Prog.Handler (Op ℕ) Op.Res S E} (ip : Fin NINODE) (dst : Dst)
    (off n : ℕ) (s : S) :
    (readi sb ip dst off n).wp H (fun _ => True) (fun r _ => r.2.length ≤ n) s := by
  rw [readi]
  refine Prog.wp_bind_any (fun _ => trivial) fun i t => ?_
  split
  · exact (Prog.wp_pure _ _ _).mpr (Nat.zero_le n)
  · rename_i hfit
    refine (readiLoop_length (Nat.zero_le 0) (Nat.zero_le _) t).imp fun r _ hr => hr.trans ?_
    split <;> omega

theorem Source.any {sb : Superblock} {p : Pid} {ip : Fin NINODE} :
    Source sb p (fun _ => True) ip (fun _ => True) (fun _ => True) fun _ n r => r.2.length ≤ n where
  read := fun s off n _ _ _ => (readi_length ip .kernel off n s).imp fun _ _ hr => ⟨trivial,hr⟩
  length := fun _ _ _ hr => hr
  close := fun s _ => Prog.wp_of_forall (fun _ => trivial) (fun _ _ => trivial) _ s

structure Img where
  sz : ℕ
  map : ℕ → Option (BitVec 64)
  mem : ℕ → Page

def Img.own (ram : Ram) (pagetable : ℕ) (i : Img) : Assert ℕ Page :=
  held (plain ram) ram pagetable i.map i.mem (npages i.sz)

def Img.Fits (trapframe trampoline : ℕ) (guard : Set ℕ) (i : Img) : Prop :=
  Shape i.map (npages i.sz) guard trapframe trampoline

/-! ## `loadseg` -/

def segLen (sz j : ℕ) : ℕ := if sz - j * PGSIZE < PGSIZE then sz - j * PGSIZE else PGSIZE

/-- The pages after `k` rounds of `loadseg`: each has what was read for it at its start. -/
def Loaded (reads : ℕ → ℕ → Option ℕ × List Byte → Prop) (offset sz v k : ℕ) (c c' : ℕ → Page) : Prop :=
  ∃ bs : ℕ → List Byte, (∀ j, j < k → reads ((offset + j * PGSIZE) % 2 ^ 32) (segLen sz j) (some (segLen sz j),bs j)) ∧
    c' = fun u => if v ≤ u ∧ u < v + k then (c u).splice 0 (bs (u - v)) else c u

section Loaded
variable {reads : ℕ → ℕ → Option ℕ × List Byte → Prop} {offset sz v k : ℕ} {c c' : ℕ → Page}

theorem Loaded.zero : Loaded reads offset sz v 0 c c :=
  ⟨fun _ => [],fun _ h => absurd h (Nat.not_lt_zero _),by
    funext u
    exact (if_neg (by omega)).symm⟩

theorem Loaded.succ (h : Loaded reads offset sz v k c c') {bs : List Byte}
    (hr : reads ((offset + k * PGSIZE) % 2 ^ 32) (segLen sz k) (some (segLen sz k),bs)) :
    Loaded reads offset sz v (k + 1) c (update c' (v + k) ((c' (v + k)).splice 0 bs)) := by
  obtain ⟨bss,hreads,rfl⟩ := h
  refine ⟨update bss k bs,fun j hj => ?_,funext fun u => ?_⟩
  · by_cases hjk : j = k
    · subst hjk
      rwa [update_self]
    · rw [update_of_ne hjk]
      exact hreads j (by omega)
  · by_cases hu : u = v + k
    · subst hu
      have hout : ¬(v ≤ v + k ∧ v + k < v + k) := by omega
      simp only [update_self]
      rw [if_neg hout,if_pos (by omega),Nat.add_sub_cancel_left,update_self]
    · rw [update_of_ne hu]
      by_cases hin : v ≤ u ∧ u < v + k
      · rw [if_pos hin,if_pos (by omega),update_of_ne (by omega)]
      · rw [if_neg hin,if_neg (by omega)]

end Loaded

variable {sb : Superblock} {p : Pid} {ram : Ram} {X : KHalt → Prop} {ip : Fin NINODE} {J J' : St → Prop}
variable {reads : ℕ → ℕ → Option ℕ × List Byte → Prop} {β : Type} {Q : β → Kernel → Prop}
variable {s : St} {m m₀ : Machine} {h h₀ : Heap ℕ Page} {F : Assert ℕ Page} {pagetable trapframe trampoline : ℕ}

theorem walkaddr_held {M : ℕ → Option (BitVec 64)} {c : ℕ → Page} {n va : ℕ} {V : VmPanic → Prop} :
    held (plain ram) ram pagetable M c n ≤ (walkaddr pagetable va).must (vmLocal ram V) fun r =>
      fact (r = userAddr M va) * held (plain ram) ram pagetable M c n := by
  refine Prog.imp (Prog.frame (walkaddr_le plain_entry)) fun r => ?_
  rw [mul_assoc,← held]

theorem loadsegFrom_wp (hsrc : Source sb p X ip J J' reads) {M : ℕ → Option (BitVec 64)} {c c₀ : ℕ → Page} {offset sz v k j n : ℕ}
    {f : Bool → KCode β} (hn : n ≤ trapPage) (hmap : ∀ u, v ≤ u → u < v + (j + k) → u < n ∧ ∃ e, M u = some e ∧ e &&& PTE_U ≠ 0)
    (hc : Loaded reads offset sz v j c₀ c) (hJ : J s) (hs : Since ram m₀ h₀ m h)
    (hh : (held (plain ram) ram pagetable M c n * F) h)
    (hf : ∀ ok t m h c', J t → Since ram m₀ h₀ m h → (held (plain ram) ram pagetable M c' n * F) h →
      (ok = true → Loaded reads offset sz v (j + k) c₀ c') → (f ok).wp (exec p ram) X Q ⟨t,m⟩) :
    ((loadsegFrom sb pagetable (v * PGSIZE) ip offset sz k (j * PGSIZE)).bind f).wp (exec p ram) X Q ⟨s,m⟩ := by
  induction k generalizing j c s m h with
  | zero => exact hf true s m h c hJ hs hh fun _ => hc
  | succ k ih =>
    obtain ⟨hlt,e,he,hU⟩ := hmap (v + j) (by omega) (by omega)
    have hva : v * PGSIZE + j * PGSIZE = (v + j) * PGSIZE := by ring
    have hdiv : (v + j) * PGSIZE / PGSIZE = v + j := Nat.mul_div_cancel _ (by decide)
    have hmax : (v + j) * PGSIZE < MAXVA := by
      rw [trapPage_eq] at hn
      simp only [PGSIZE,MAXVA]
      omega
    simp only [loadsegFrom,Prog.bind_eq,Prog.bind_assoc]
    refine vm_must hs (Prog.frame walkaddr_held) hh fun pa m₁ h₁ hs₁ hfact => ?_
    rw [mul_assoc] at hfact
    obtain ⟨hpa,hh₁⟩ := fact_mul_iff.mp hfact
    clear hfact
    rw [hva,userAddr,if_pos hmax,hdiv,he] at hpa
    simp only [if_neg hU] at hpa
    subst hpa
    -- the page is one of the memory, so its address is not zero
    obtain ⟨g₁,g₂,hg₁,hg₂,hap,hj⟩ := hh₁
    have hhas := (fact_mul_iff.mp (held_has hlt he _ hg₁)).1
    have hne : PTE2PA e ≠ 0 := by
      have := hhas.2.1
      have := ram.pos
      omega
    have hh₁ : (held (plain ram) ram pagetable M c n * F) h₁ := ⟨g₁,g₂,hg₁,hg₂,hap,hj⟩
    rw [if_neg hne]
    simp only [Prog.bind_assoc]
    have hseg : segLen sz j ≤ PGSIZE := by
      rw [segLen]
      split <;> omega
    refine fs_seq (hsrc.read s _ _ (Nat.mod_lt _ (by decide)) hseg hJ) fun r t hread => ?_
    obtain ⟨hJt,hr⟩ := hread
    have hlen : r.2.length ≤ segLen sz j := hsrc.length _ _ _ hr
    refine vm_must hs₁ (Prog.frame (poke_held hlt he (by omega))) hh₁ fun _ m₂ h₂ hs₂ hh₂ => ?_
    dsimp only
    by_cases hok : r.1 = some (segLen sz j)
    · rw [← segLen,if_pos hok]
      have hr' : reads ((offset + j * PGSIZE) % 2 ^ 32) (segLen sz j) (some (segLen sz j),r.2) := hok ▸ hr
      have := ih (j := j + 1) (fun u h₁ h₂ => hmap u h₁ (by omega)) (hc.succ hr') hJt hs₂ hh₂ fun ok t m h c' h₁ h₂ h₃ h₄ =>
        hf ok t m h c' h₁ h₂ h₃ fun hok => by
          have := h₄ hok
          rwa [Nat.add_assoc,Nat.add_comm 1 k] at this
      rwa [Nat.succ_mul] at this
    · rw [← segLen,if_neg hok]
      exact hf false t m₂ h₂ _ hJt hs₂ hh₂ fun h => absurd h Bool.false_ne_true

/-! ## The program headers -/

/-- What `uvmalloc` makes of an image when it succeeds. -/
inductive Resized (perm : BitVec 64) (newsz : ℕ) (i : Img) : Img → Prop
  | less : newsz < i.sz → Resized perm newsz i i
  | more {M : ℕ → Option (BitVec 64)} : i.sz ≤ newsz → Grown perm i.map (npages i.sz) (npages newsz) M → npages newsz ≤ trapPage →
    Resized perm newsz i ⟨newsz,M,zeroFrom i.mem (npages i.sz)⟩

section Resized
variable {perm : BitVec 64} {newsz : ℕ} {i i' : Img} {guard : Set ℕ}

theorem Resized.fits (h : Resized perm newsz i i') (hi : i.Fits trapframe trampoline guard) :
    i'.Fits trapframe trampoline guard := by
  cases h with
  | less => exact hi
  | more hle hgrown hroom => exact Shape.grown hi hgrown (npages_mono hle) hroom

theorem Resized.le (h : Resized perm newsz i i') : newsz ≤ i'.sz := by
  cases h with
  | less hlt => exact hlt.le
  | more => exact le_rfl

theorem Resized.zero (h : Resized perm newsz i i') (h₀ : i'.sz = 0) : i.sz = 0 := by
  cases h with
  | less => exact h₀
  | more hle => exact Nat.le_zero.mp (h₀ ▸ hle)

theorem uvmalloc_own (hpages : ram.pages < trapPage) (hperm : perm.toNat < 1024) (hi : i.Fits trapframe trampoline guard)
    {V : VmPanic → Prop} :
    i.own ram pagetable ≤ (uvmalloc pagetable i.sz newsz perm).must (vmLocal ram V) fun r =>
      (⨆ i', fact (r = i'.sz ∧ Resized perm newsz i i') * i'.own ram pagetable) ⊔ fact (r = 0) * i.own ram pagetable := by
  by_cases hlt : newsz < i.sz
  · simp only [uvmalloc,if_pos hlt]
    exact Prog.must_ret_le (le_sup_of_le_left (le_iSup_of_le i (le_fact_mul ⟨rfl,.less hlt⟩ le_rfl)))
  · refine Prog.imp (uvmalloc_held plain_entry hpages hperm rfl (Shape.user hi) (Nat.le_of_not_lt hlt)) fun r => ?_
    refine sup_le_sup (iSup_le fun M => fact_mul_le.mpr fun h => ?_) le_rfl
    obtain ⟨hr,hgrown,hroom⟩ := h
    exact le_iSup_of_le ⟨newsz,M,zeroFrom i.mem (npages i.sz)⟩ (le_fact_mul ⟨hr,.more (Nat.le_of_not_lt hlt) hgrown hroom⟩ le_rfl)

end Resized

/-- The images that the loop over `n` program headers from `off` on goes through. -/
inductive Loads (reads : ℕ → ℕ → Option ℕ × List Byte → Prop) : ℕ → ℕ → Img → Img → Prop
  | done {off : ℕ} {i : Img} : Loads reads 0 off i i
  | skip {n off : ℕ} {i i' : Img} {bs : List Byte} : reads off PROGHDR_SIZE (some PROGHDR_SIZE,bs) →
    (Proghdr.ofBytes bs).type ≠ ELF_PROG_LOAD → Loads reads n ((off + PROGHDR_SIZE) % 2 ^ 32) i i' → Loads reads (n + 1) off i i'
  | load {n off : ℕ} {i i₁ i' : Img} {c : ℕ → Page} {bs : List Byte} {ph : Proghdr} :
    reads off PROGHDR_SIZE (some PROGHDR_SIZE,bs) → Proghdr.ofBytes bs = ph → ph.type = ELF_PROG_LOAD →
    ph.filesz ≤ ph.memsz → ph.vaddr + ph.memsz < 2 ^ 64 → ph.vaddr % PGSIZE = 0 →
    Resized (flags2perm ph.flags) (ph.vaddr + ph.memsz) i i₁ →
    Loaded reads (ph.off % 2 ^ 32) (ph.filesz % 2 ^ 32) (ph.vaddr / PGSIZE) (npages (ph.filesz % 2 ^ 32)) i₁.mem c →
    Loads reads n ((off + PROGHDR_SIZE) % 2 ^ 32) { i₁ with mem := c } i' → Loads reads (n + 1) off i i'

theorem flags2perm_lt (flags : ℕ) : (flags2perm flags).toNat < 1024 := by
  rw [flags2perm]
  split <;> split <;> decide

theorem field_lt (bs : List Byte) (off n : ℕ) : field bs off n < 256 ^ n :=
  (ofLe_lt _).trans_le (Nat.pow_le_pow_right (by decide) (List.length_take_le _ _))

theorem add_lt_of_le {a b : ℕ} (hb : b < 2 ^ 64) (h : ¬(a + b) % 2 ^ 64 < a) (ha : a < 2 ^ 64) : a + b < 2 ^ 64 := by omega

theorem loadseg_wp (hsrc : Source sb p X ip J J' reads) {i : Img} {ph : Proghdr} {f : Bool → KCode β}
    (hi : i.Fits trapframe trampoline ∅) (hle : ph.vaddr + ph.filesz ≤ i.sz) (hva : ph.vaddr % PGSIZE = 0) (hJ : J s)
    (hs : Since ram m₀ h₀ m h) (hh : (i.own ram pagetable * F) h)
    (hf : ∀ ok t m h c, J t → Since ram m₀ h₀ m h → ((Img.mk i.sz i.map c).own ram pagetable * F) h →
      (ok = true → Loaded reads (ph.off % 2 ^ 32) (ph.filesz % 2 ^ 32) (ph.vaddr / PGSIZE) (npages (ph.filesz % 2 ^ 32)) i.mem c) →
      (f ok).wp (exec p ram) X Q ⟨t,m⟩) :
    ((loadseg sb pagetable ph.vaddr ip ph.off ph.filesz).bind f).wp (exec p ram) X Q ⟨s,m⟩ := by
  have hfit : ph.vaddr / PGSIZE + npages (ph.filesz % 2 ^ 32) ≤ npages i.sz := by
    simp only [npages,PGSIZE] at hva ⊢
    omega
  have hmap : ∀ u, ph.vaddr / PGSIZE ≤ u → u < ph.vaddr / PGSIZE + (0 + npages (ph.filesz % 2 ^ 32)) →
      u < npages i.sz ∧ ∃ e, i.map u = some e ∧ e &&& PTE_U ≠ 0 := fun u _ hu => by
    have hlt : u < npages i.sz := by omega
    obtain ⟨e,he,-,hU⟩ := Shape.low hi u hlt
    exact ⟨hlt,e,he,hU (Set.notMem_empty u)⟩
  have hzero : Loaded reads (ph.off % 2 ^ 32) (ph.filesz % 2 ^ 32) (ph.vaddr / PGSIZE) 0 i.mem i.mem := .zero
  have hrun := loadsegFrom_wp (f := f) (Q := Q) hsrc (Shape.room hi) hmap hzero hJ hs hh
    fun ok t m h c h₁ h₂ h₃ h₄ => hf ok t m h c h₁ h₂ h₃ fun hok => by simpa only [Nat.zero_add] using h₄ hok
  rwa [Nat.div_mul_cancel (Nat.dvd_of_mod_eq_zero hva),Nat.zero_mul] at hrun

theorem loadFrom_wp (hsrc : Source sb p X ip J J' reads) (hpages : ram.pages < trapPage) {n off : ℕ} {i : Img}
    {f : Bool × ℕ → KCode β} (hoff : off < 2 ^ 32) (hi : i.Fits trapframe trampoline ∅) (hJ : J s) (hs : Since ram m₀ h₀ m h)
    (hh : (i.own ram pagetable * F) h)
    (hf : ∀ ok t m h i', J t → Since ram m₀ h₀ m h → (i'.own ram pagetable * F) h → i'.Fits trapframe trampoline ∅ →
      (ok = true → Loads reads n off i i') → (f (ok,i'.sz)).wp (exec p ram) X Q ⟨t,m⟩) :
    ((loadFrom sb ip pagetable n off i.sz).bind f).wp (exec p ram) X Q ⟨s,m⟩ := by
  induction n generalizing off i s m h with
  | zero => exact hf true s m h i hJ hs hh hi fun _ => .done
  | succ n ih =>
    have hnext : (off + PROGHDR_SIZE) % 2 ^ 32 < 2 ^ 32 := Nat.mod_lt _ (by decide)
    simp only [loadFrom,Prog.bind_eq,Prog.bind_assoc]
    refine fs_seq (hsrc.read s _ _ hoff (by decide) hJ) fun r t ⟨hJt,hr⟩ => ?_
    have hfail : (f (false,i.sz)).wp (exec p ram) X Q ⟨t,m⟩ := hf false t m h i hJt hs hh hi nofun
    by_cases hsome : r.1 = some PROGHDR_SIZE
    swap
    · rwa [if_pos hsome]
    have hr : reads off PROGHDR_SIZE (some PROGHDR_SIZE,r.2) := hsome ▸ hr
    rw [if_neg (not_not_intro hsome)]
    by_cases htype : (Proghdr.ofBytes r.2).type = ELF_PROG_LOAD
    swap
    · simp only [if_pos htype]
      exact ih hnext hi hJt hs hh fun ok t m h i' h₁ h₂ h₃ h₄ h₅ => hf ok t m h i' h₁ h₂ h₃ h₄ fun hok => .skip hr htype (h₅ hok)
    simp only [if_neg (not_not_intro htype)]
    have hvaddr : (Proghdr.ofBytes r.2).vaddr < 2 ^ 64 := field_lt r.2 16 8
    have hmemsz : (Proghdr.ofBytes r.2).memsz < 2 ^ 64 := field_lt r.2 40 8
    generalize hph : Proghdr.ofBytes r.2 = ph at htype hvaddr hmemsz ⊢
    by_cases hsize : ph.memsz < ph.filesz
    · rwa [if_pos hsize]
    rw [if_neg hsize]
    by_cases hwrap : (ph.vaddr + ph.memsz) % 2 ^ 64 < ph.vaddr
    · rwa [if_pos hwrap]
    have hend := add_lt_of_le hmemsz hwrap hvaddr
    rw [if_neg hwrap,Nat.mod_eq_of_lt hend]
    by_cases halign : ph.vaddr % PGSIZE = 0
    swap
    · rwa [if_pos halign]
    rw [if_neg (not_not_intro halign)]
    simp only [Prog.bind_assoc]
    refine vm_must hs (Prog.frame (uvmalloc_own hpages (flags2perm_lt _) hi)) hh fun sz₁ m₁ h₁ hs₁ hh₁ => ?_
    rw [Quantale.sup_mul_distrib,Quantale.iSup_mul_distrib] at hh₁
    rcases hh₁ with hh₁ | hh₁
    swap
    · rw [mul_assoc] at hh₁
      obtain ⟨hsz,hh₂⟩ := fact_mul_iff.mp hh₁
      rw [if_pos hsz]
      exact hf false t m₁ h₁ i hJt hs₁ hh₂ hi nofun
    obtain ⟨i₁,hh₁⟩ := iSup_iff.mp hh₁
    rw [mul_assoc] at hh₁
    obtain ⟨⟨hsz,hi₁⟩,hh₂⟩ := fact_mul_iff.mp hh₁
    have hfit := hi₁.fits hi
    rw [hsz]
    by_cases hzero : i₁.sz = 0
    · rw [if_pos hzero,hi₁.zero hzero,← hzero]
      exact hf false t m₁ h₁ i₁ hJt hs₁ hh₂ hfit nofun
    rw [if_neg hzero]
    simp only [Prog.bind_assoc]
    refine loadseg_wp hsrc hfit ((by omega : _ ≤ ph.vaddr + ph.memsz).trans hi₁.le) halign hJt hs₁ hh₂
      fun ok t m h c h₁ h₂ h₃ h₄ => ?_
    cases ok with
    | false => exact hf false t m h ⟨i₁.sz,i₁.map,c⟩ h₁ h₂ h₃ hfit nofun
    | true =>
      refine ih (i := ⟨i₁.sz,i₁.map,c⟩) hnext hfit h₁ h₂ h₃ fun ok t m h i' k₁ k₂ k₃ k₄ k₅ =>
        hf ok t m h i' k₁ k₂ k₃ k₄ fun hok => ?_
      exact .load hr hph htype (by omega) hend halign hi₁ (h₄ rfl) (k₅ hok)

end Xv6.Exec
