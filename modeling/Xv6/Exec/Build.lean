import Xv6.Exec.Stack

/-! # `exec` on a locked file

All exits of `exec` from the first read on to the push of the arguments: each failure gives back what was built so
far, and a success leaves a new image with its stack.
-/
namespace Xv6.Exec
open Library Library.Assert Vm
open Function (update update_of_ne update_self)

variable {sb : Superblock} {p : Pid} {ram : Ram} {X : KHalt → Prop} {ip : Fin NINODE} {J J' : St → Prop}
variable {reads : ℕ → ℕ → Option ℕ × List Byte → Prop} {α : Type} {Q : Option (ℕ × ℕ × ℕ) → Kernel → Prop}
variable {s : St} {m m₀ : Machine} {h h₀ f : Heap ℕ Page} {pagetable trapframe trampoline : ℕ}
variable {i i' : Img}

structure Stack (i i' : Img) : Prop where
  sz : i'.sz = (npages i.sz + (USERSTACK + 1)) * PGSIZE
  same : ∀ v, v < npages i.sz ∨ npages i.sz + (USERSTACK + 1) ≤ v → i'.map v = i.map v
  guard : ∃ e, i'.map (npages i.sz) = some e ∧ e &&& PTE_U = 0
  stack : Open i'.map (npages i.sz + 1) (npages i.sz + (USERSTACK + 1))
  mem : i'.mem = zeroFrom i.mem (npages i.sz)

theorem userEntry_W (pa : ℕ) : userEntry pa PTE_W &&& PTE_W ≠ 0 := by
  rw [userEntry,BitVec.or_assoc,entry_and _ _ (by decide)]
  decide

theorem clear_U (e : BitVec 64) : e &&& ~~~PTE_U &&& PTE_U = 0 := by
  rw [BitVec.and_assoc,show ~~~PTE_U &&& PTE_U = 0#64 by decide,BitVec.and_zero]
  rfl

theorem Stack.of_grown {n : ℕ} {M : ℕ → Option (BitVec 64)} {pa : ℕ} (hn : n = npages i.sz)
    (hgrown : Grown PTE_W i.map n (n + (USERSTACK + 1)) M) (he : M n = some (userEntry pa PTE_W)) :
    Stack i ⟨(n + (USERSTACK + 1)) * PGSIZE,update M n (some (userEntry pa PTE_W &&& ~~~PTE_U)),zeroFrom i.mem n⟩ := by
  subst hn
  refine ⟨rfl,fun v hv => ?_,⟨_,update_self _ _ _,clear_U _⟩,fun v h₁ h₂ => ?_,rfl⟩
  · exact (update_of_ne (by omega) _ _).trans (hgrown.same v hv)
  · obtain ⟨pa,hpa⟩ := hgrown.new v (by omega) h₂
    exact ⟨_,(update_of_ne (by omega) _ _).trans hpa,userEntry_U pa,userEntry_W pa⟩

theorem Stack.open (h : Stack i i') : Open i'.map (npages i'.sz - USERSTACK) (npages i'.sz) := by
  rw [h.sz,npages_mul,show npages i.sz + (USERSTACK + 1) - USERSTACK = npages i.sz + 1 by omega]
  exact h.stack

theorem stackImage_wp (hpages : ram.pages < trapPage) (hi : i.Fits trapframe trampoline ∅) (hpt : ram.Has pagetable)
    (hs : Since ram m₀ h₀ m h) (hh : (i.own ram pagetable * exactly f) h) {Q : Option ℕ → Kernel → Prop}
    (hbad : ∀ m, Since ram m₀ h₀ m f → Q none ⟨s,m⟩)
    (hbuilt : ∀ i' m h, Stack i i' → i'.Fits trapframe trampoline {npages i.sz} → Since ram m₀ h₀ m h →
      (i'.own ram pagetable * exactly f) h → Q (some i'.sz) ⟨s,m⟩) :
    (stackImage sb pagetable i.sz).wp (exec p ram) X Q ⟨s,m⟩ := by
  generalize hn : npages i.sz = n at *
  have hround : PGROUNDUP i.sz = n * PGSIZE := hn ▸ PGROUNDUP_eq (Shape.room hi)
  have hend : n * PGSIZE + (USERSTACK + 1) * PGSIZE = (n + (USERSTACK + 1)) * PGSIZE := (Nat.add_mul _ _ _).symm
  have hi₀ : (Img.mk (n * PGSIZE) i.map i.mem).Fits trapframe trampoline ∅ := by
    change Shape i.map (npages (n * PGSIZE)) ∅ trapframe trampoline
    rw [npages_mul,← hn]
    exact hi
  have hown : (Img.mk (n * PGSIZE) i.map i.mem).own ram pagetable = i.own ram pagetable := by
    rw [Img.own,Img.own,npages_mul,hn]
  rw [← hown] at hh
  rw [stackImage,hround,hend]
  refine vm_must hs (Prog.frame (uvmalloc_own hpages (by decide) hi₀)) hh fun sz₁ m₁ h₁ hs₁ hh₁ => ?_
  rw [Quantale.sup_mul_distrib,Quantale.iSup_mul_distrib] at hh₁
  rcases hh₁ with hh₁ | hh₁
  swap
  · rw [mul_assoc] at hh₁
    obtain ⟨hsz,hh₂⟩ := fact_mul_iff.mp hh₁
    rw [if_pos hsz]
    exact bad_wp hi₀ hpt hs₁ hh₂ hbad
  obtain ⟨i₁,hh₁⟩ := iSup_iff.mp hh₁
  rw [mul_assoc] at hh₁
  obtain ⟨⟨hsz,hi₁⟩,hh₂⟩ := fact_mul_iff.mp hh₁
  have hfit := hi₁.fits hi₀
  cases hi₁ with
  | less hlt =>
    exact absurd hlt (Nat.not_lt_of_le (Nat.mul_le_mul_right _ (Nat.le_add_right _ _)))
  | @more M _ hgrown hroom =>
    simp only [npages_mul] at hgrown
    obtain ⟨pa,hpa⟩ := hgrown.new n le_rfl (by omega)
    have hstack := Stack.of_grown hn.symm hgrown hpa
    rw [hsz]
    dsimp only
    rw [if_neg (Nat.mul_ne_zero (by omega) (by decide)),← hend,Nat.add_sub_cancel]
    rw [npages_mul] at hroom
    refine vm_must hs₁ (Prog.frame (uvmclear_held (by omega) hpa)) hh₂ fun _ m₂ h₂ hs₂ hh₃ => ?_
    have hclear : (Img.mk ((n + (USERSTACK + 1)) * PGSIZE)
        (update M n (some (userEntry pa PTE_W &&& ~~~PTE_U))) (zeroFrom i.mem n)).Fits trapframe trampoline {n} := by
      rw [← insert_empty_eq]
      exact Shape.cleared hfit (by rw [npages_mul]; omega) hpa
    obtain ⟨i',hi'⟩ : ∃ i', i' = Img.mk ((n + (USERSTACK + 1)) * PGSIZE)
      (update M n (some (userEntry pa PTE_W &&& ~~~PTE_U))) (zeroFrom i.mem n) := ⟨_,rfl⟩
    rw [← hi'] at hstack hclear
    have hsz' : i'.sz = (n + (USERSTACK + 1)) * PGSIZE := congrArg Img.sz hi'
    have hown' : (i'.own ram pagetable * exactly f) h₂ := by
      simp only [npages_mul] at hh₃
      simpa only [hi',Img.own,npages_mul] using hh₃
    rw [hend,← hsz']
    exact (Prog.wp_pure _ _ _).mpr (hbuilt i' m₂ h₂ hstack hclear hs₂ hown')

theorem bad_open_wp (hsrc : Source sb p X ip J J' reads) (hJ : J s) {out : α} {Q : α → Kernel → Prop}
    (hbad : ∀ t, J' t → Q out ⟨t,m⟩) :
    (bad sb out (some ip) none 0).wp (exec p ram) X Q ⟨s,m⟩ := by
  have hclose := hsrc.close s hJ
  rw [Prog.wp_bind] at hclose
  refine fs_seq hclose fun _ t ht => fs_seq ht fun _ t ht => ?_
  exact (Prog.wp_pure _ _ _).mpr (hbad t ht)

theorem bad_both_wp (hsrc : Source sb p X ip J J' reads) (hi : i.Fits trapframe trampoline ∅) (hpt : ram.Has pagetable)
    (hJ : J s) (hs : Since ram m₀ h₀ m h) (hh : (i.own ram pagetable * exactly f) h) {out : α} {Q : α → Kernel → Prop}
    (hbad : ∀ t m, J' t → Since ram m₀ h₀ m f → Q out ⟨t,m⟩) :
    (bad sb out (some ip) (some pagetable) i.sz).wp (exec p ram) X Q ⟨s,m⟩ :=
  freepagetable_wp hi hpt hs hh fun m hs => bad_open_wp hsrc hJ fun t ht => hbad t m ht hs

theorem loadImage_wp (hsrc : Source sb p X ip J J' reads) (hpages : ram.pages < trapPage) (hJ : J s) (hs : Since ram m₀ h₀ m f)
    (hbad : ∀ t m, J' t → Since ram m₀ h₀ m f → Q none ⟨t,m⟩)
    (hbuilt : ∀ bs elf i₀ i i' pagetable t m h, reads 0 ELFHDR_SIZE (some ELFHDR_SIZE,bs) → Elfhdr.ofBytes bs = elf →
      elf.magic = ELF_MAGIC → i₀.sz = 0 → i₀.Fits trapframe trampoline ∅ →
      Loads reads elf.phnum (elf.phoff % 2 ^ 32) i₀ i → Stack i i' →
      i'.Fits trapframe trampoline {npages i.sz} → ram.Has pagetable → J' t → Since ram m₀ h₀ m h →
      (i'.own ram pagetable * exactly f) h → Q (some (elf.entry,pagetable,i'.sz)) ⟨t,m⟩) :
    (loadImage sb trampoline trapframe ip).wp (exec p ram) X Q ⟨s,m⟩ := by
  refine fs_seq (hsrc.read s _ _ (by decide) (by decide) hJ) fun r t ⟨hJt,hr⟩ => ?_
  by_cases hsome : r.1 = some ELFHDR_SIZE
  swap
  · rw [if_pos hsome]
    exact bad_open_wp hsrc hJt fun t ht => hbad t m ht hs
  have hr : reads 0 ELFHDR_SIZE (some ELFHDR_SIZE,r.2) := hsome ▸ hr
  rw [if_neg (not_not_intro hsome)]
  generalize helf : Elfhdr.ofBytes r.2 = elf
  dsimp only
  by_cases hmagic : elf.magic = ELF_MAGIC
  swap
  · rw [if_pos hmagic]
    exact bad_open_wp hsrc hJt fun t ht => hbad t m ht hs
  rw [if_neg (not_not_intro hmagic)]
  have hone : (1 * exactly f : Assert ℕ Page) f := by
    rw [one_mul]
    rfl
  refine vm_must hs (Prog.frame proc_pagetable_le) hone fun pt m₁ h₁ hs₁ hh₁ => ?_
  cases pt with
  | none =>
    rw [given,one_mul] at hh₁
    obtain rfl : h₁ = f := hh₁
    exact bad_open_wp hsrc hJt fun t ht => hbad t m₁ ht hs₁
  | some pagetable =>
    rw [given,image,Quantale.iSup_mul_distrib] at hh₁
    obtain ⟨M,hh₁⟩ := iSup_iff.mp hh₁
    rw [mul_assoc] at hh₁
    obtain ⟨⟨hM,hpt⟩,hh₂⟩ := fact_mul_iff.mp hh₁
    have hfit : (Img.mk 0 M fun _ => fill 0).Fits trapframe trampoline ∅ := hM
    have hh₃ : ((Img.mk 0 M fun _ => fill 0).own ram pagetable * exactly f) h₁ := by
      have hzero : npages 0 = 0 := rfl
      rw [Img.own,hzero,held_zero,← region_zero,← hzero]
      exact hh₂
    refine loadFrom_wp hsrc hpages (Nat.mod_lt _ (by decide)) hfit hJt hs₁ hh₃ fun ok t m h i hJt hs hh hi hloads => ?_
    cases ok with
    | false => exact bad_both_wp hsrc hi hpt hJt hs hh hbad
    | true =>
      rw [if_neg Bool.noConfusion]
      have hclose := hsrc.close t hJt
      rw [Prog.wp_bind] at hclose
      refine fs_seq hclose fun _ t ht => fs_seq ht fun _ t ht => ?_
      rw [Prog.bind_eq,Prog.wp_bind]
      refine stackImage_wp hpages hi hpt hs hh (fun m hs => ?_) fun i' m h hstack hi' hs hh => ?_
      · exact (Prog.wp_pure _ _ _).mpr (hbad t m ht hs)
      · refine (Prog.wp_pure _ _ _).mpr ?_
        exact hbuilt r.2 elf _ i i' pagetable t m h hr helf hmagic rfl hfit (hloads rfl) hstack hi' hpt ht hs hh

end Xv6.Exec
