import Xv6.Exec.Load

/-! # The argument stack

Where the strings and the array of pointers go is arithmetic on the sizes alone. The code's unsigned
subtractions follow it as long as they stay above the base of the stack.
-/
namespace Xv6.Exec
open Library Library.Assert Vm

/-! ## The layout -/

def up16 (n : ℕ) : ℕ := (n + 15) / 16 * 16

theorem le_up16 (n : ℕ) : n ≤ up16 n := by
  rw [up16]
  omega

theorem up16_mod (n : ℕ) : up16 n % 16 = 0 := Nat.mul_mod_left _ _

def slot (s : List Byte) : ℕ := up16 (s.length + 1)

theorem slot_pos (s : List Byte) : s.length + 1 ≤ slot s := le_up16 _

def slots (strs : List (List Byte)) : ℕ := (strs.map slot).sum

@[simp] theorem slots_nil : slots [] = 0 := rfl

@[simp] theorem slots_cons (s : List Byte) (strs : List (List Byte)) : slots (s :: strs) = slot s + slots strs := List.sum_cons

theorem slots_mod (strs : List (List Byte)) : slots strs % 16 = 0 := by
  induction strs with
  | nil => rfl
  | cons s strs ih =>
    have := up16_mod (s.length + 1)
    rw [slots_cons,slot]
    omega

def place : ℕ → List (List Byte) → List ℕ
  | _, [] => []
  | sp, s :: strs => (sp - slot s) :: place (sp - slot s) strs

@[simp] theorem length_place (sp : ℕ) (strs : List (List Byte)) : (place sp strs).length = strs.length := by
  induction strs generalizing sp with
  | nil => rfl
  | cons s strs ih => rw [place,List.length_cons,ih,List.length_cons]

def pushed (c : ℕ → Page) : ℕ → List (List Byte) → ℕ → Page
  | _, [] => c
  | sp, s :: strs => pushed (written c (sp - slot s) (s ++ [0])) (sp - slot s) strs

def need (strs : List (List Byte)) : ℕ := slots strs + up16 ((strs.length + 1) * 8)

/-- Memory with the strings and the array pushed, from `top` down. -/
def stacked (c : ℕ → Page) (top : ℕ) (strs : List (List Byte)) : ℕ → Page :=
  written (pushed c top strs) (top - need strs) ((place top strs ++ [0]).flatMap (leBytes 8))

/-! ## The code -/

theorem push_eq {sp n : ℕ} (hsp : sp % 16 = 0) (hn : n ≤ sp) (hlt : sp < 2 ^ 64) : push sp n = sp - up16 n := by
  have hsub : sub64 sp n = sp - n := by
    rw [sub64,show sp + (2 ^ 64 - n) = sp - n + 2 ^ 64 by omega,Nat.add_mod_right,Nat.mod_eq_of_lt (by omega)]
  rw [push,hsub,up16]
  omega

theorem length_pointers (xs : List ℕ) : (xs.flatMap (leBytes 8)).length = xs.length * 8 := by
  rw [length_flatMap_const fun x _ => leBytes_length 8 x,Nat.mul_comm]

def argStr (f : Heap ℕ Page) (a : ℕ) : List Byte := cstr (((f a).getD (fill 0)).slice 0 PGSIZE)

/-- The pages in `argv` are there, each with a string in it. -/
def Args (f : Heap ℕ Page) (argv : List ℕ) : Prop := ∀ a ∈ argv, f a ≠ none ∧ (argStr f a).length < PGSIZE

theorem peek_arg {f : Heap ℕ Page} {a : ℕ} (ha : f a ≠ none) {ram : Ram} {V : VmPanic → Prop} :
    exactly f ≤ (peek a 0 PGSIZE).must (vmLocal ram V) fun page => fact (cstr page = argStr f a) * exactly f := by
  obtain ⟨q,hq⟩ := Option.ne_none_iff_exists'.mp ha
  have hstr : cstr (q.slice 0 PGSIZE) = argStr f a := by rw [argStr,hq,Option.getD_some]
  have hret : exactly f * 1 ≤ (Prog.ret (q.slice 0 PGSIZE) : VmCode (List Byte)).must (vmLocal ram V) fun page =>
      fact (cstr page = argStr f a) * exactly f :=
    Prog.must_ret_le (le_fact_mul hstr (mul_one _).le)
  have hpeek := peek_exactly_bind hq (Nat.zero_add PGSIZE).le hret
  rwa [mul_one] at hpeek

/-- The pages from `base` on are the process's, to write. -/
def Open (M : ℕ → Option (BitVec 64)) (base n : ℕ) : Prop :=
  ∀ v, base ≤ v → v < n → ∃ e, M v = some e ∧ e &&& PTE_U ≠ 0 ∧ e &&& PTE_W ≠ 0

section Code
variable {sb : Superblock} {p : Pid} {ram : Ram} {X : KHalt → Prop} {β : Type} {Q : β → Kernel → Prop}
variable {s : St} {m m₀ : Machine} {h h₀ f : Heap ℕ Page} {pagetable trapframe trampoline : ℕ}
variable {M : ℕ → Option (BitVec 64)} {c : ℕ → Page} {n base : ℕ}

theorem copyout_open (hopen : Open M base n) (hn : n ≤ trapPage) {a : ℕ} {src : List Byte} (ha : base * PGSIZE ≤ a)
    (hend : a + src.length ≤ n * PGSIZE) {V : VmPanic → Prop} :
    held (plain ram) ram pagetable M c n ≤ (copyout pagetable a src).must (vmLocal ram V) fun r =>
      fact (r = 0) * held (plain ram) ram pagetable M (written c a src) n := by
  refine copyout_held le_rfl hend hn fun b h₁ h₂ => hopen _ ?_ ?_
  · exact (Nat.le_div_iff_mul_le (by decide)).mpr (ha.trans h₁)
  · exact (Nat.div_lt_iff_lt_mul (by decide)).mpr (by omega)

theorem pushArgs_wp (hopen : Open M base n) (hbase : 0 < base) (hn : n ≤ trapPage) {argv : List ℕ} {sp : ℕ} {ustack : List ℕ}
    {k : Option (ℕ × List ℕ) → KCode β} (hargs : Args f argv) (hmax : ustack.length + argv.length ≤ MAXARG)
    (hsp : sp % 16 = 0) (hlow : base * PGSIZE ≤ sp) (hhigh : sp ≤ n * PGSIZE) (hs : Since ram m₀ h₀ m h)
    (hh : (held (plain ram) ram pagetable M c n * exactly f) h)
    (hfull : sp < base * PGSIZE + slots (argv.map (argStr f)) → ∀ m h c, Since ram m₀ h₀ m h →
      (held (plain ram) ram pagetable M c n * exactly f) h → (k none).wp (exec p ram) X Q ⟨s,m⟩)
    (hk : base * PGSIZE + slots (argv.map (argStr f)) ≤ sp → ∀ m h, Since ram m₀ h₀ m h →
      (held (plain ram) ram pagetable M (pushed c sp (argv.map (argStr f))) n * exactly f) h →
      (k (some (sp - slots (argv.map (argStr f)),ustack ++ place sp (argv.map (argStr f))))).wp (exec p ram) X Q ⟨s,m⟩) :
    ((pushArgs pagetable (base * PGSIZE) argv sp ustack).bind k).wp (exec p ram) X Q ⟨s,m⟩ := by
  induction argv generalizing sp ustack c m h with
  | nil =>
    simp only [List.map_nil,slots_nil,place,pushed,List.append_nil,Nat.add_zero,Nat.sub_zero] at hk
    exact hk hlow m h hs hh
  | cons a argv ih =>
    obtain ⟨ha,hlen⟩ := hargs a List.mem_cons_self
    rw [List.length_cons] at hmax
    simp only [List.map_cons,slots_cons,place,pushed] at hfull hk
    simp only [pushArgs,Prog.bind_eq]
    rw [if_neg (by omega)]
    simp only [Prog.bind_assoc]
    rw [mul_comm] at hh
    refine vm_must hs (Prog.frame (peek_arg ha)) hh fun page m₁ h₁ hs₁ hh₁ => ?_
    rw [mul_assoc,mul_comm (exactly f)] at hh₁
    obtain ⟨hstr,hh₂⟩ := fact_mul_iff.mp hh₁
    rw [hstr]
    have hslot : slot (argStr f a) ≤ PGSIZE := by
      rw [slot,up16]
      simp only [PGSIZE] at hlen ⊢
      omega
    have hpush : push sp ((argStr f a).length + 1) = sp - slot (argStr f a) := by
      refine push_eq hsp ?_ ?_
      · exact (slot_pos _).trans (hslot.trans ((Nat.le_mul_of_pos_left _ hbase).trans hlow))
      · rw [trapPage_eq] at hn
        simp only [PGSIZE] at hhigh
        omega
    have hle : slot (argStr f a) ≤ sp := hslot.trans ((Nat.le_mul_of_pos_left _ hbase).trans hlow)
    rw [hpush]
    by_cases hroom : sp - slot (argStr f a) < base * PGSIZE
    · rw [if_pos hroom]
      exact hfull (by omega) m₁ h₁ c hs₁ hh₂
    · rw [if_neg hroom]
      simp only [Prog.bind_assoc]
      have hfit := slot_pos (argStr f a)
      refine vm_must hs₁ (Prog.frame (copyout_open hopen hn (Nat.le_of_not_lt hroom) ?_)) hh₂ fun r m₂ h₂ hs₂ hh₃ => ?_
      · rw [List.length_append,List.length_singleton]
        omega
      rw [mul_assoc] at hh₃
      obtain ⟨hr,hh₄⟩ := fact_mul_iff.mp hh₃
      rw [hr,if_neg (by decide)]
      have hmod : slot (argStr f a) % 16 = 0 := up16_mod _
      refine ih (c := written c (sp - slot (argStr f a)) (argStr f a ++ [0])) (fun b hb => hargs b (List.mem_cons_of_mem a hb))
        ?_ (by omega) (Nat.le_of_not_lt hroom) (by omega) hs₂ hh₄ ?_ ?_
      · rw [List.length_append,List.length_singleton]
        omega
      · exact fun hlt => hfull (by omega)
      · intro hge m h hs hh
        have hsum := Nat.add_le_of_le_sub hle hge
        rw [Nat.add_assoc,Nat.add_comm (slots _)] at hsum
        have := hk hsum m h hs hh
        rwa [← Nat.sub_sub,← List.singleton_append,← List.append_assoc] at this

variable {task : Task} {path : List Byte} {argv : List ℕ} {entry : ℕ} {guard : Set ℕ} {i i' : Img}

theorem Img.own_le (hi : i.Fits trapframe trampoline guard) (hpt : ram.Has pagetable) :
    i.own ram pagetable ≤ image ram trampoline trapframe guard pagetable i.sz :=
  held_le_region.trans (le_image hi hpt)

theorem freepagetable_wp (hi : i.Fits trapframe trampoline guard) (hpt : ram.Has pagetable) {k : Unit → KCode β}
    (hs : Since ram m₀ h₀ m h) (hh : (i.own ram pagetable * exactly f) h)
    (hk : ∀ m, Since ram m₀ h₀ m f → (k ()).wp (exec p ram) X Q ⟨s,m⟩) :
    ((vm (proc_freepagetable pagetable i.sz)).bind k).wp (exec p ram) X Q ⟨s,m⟩ := by
  refine vm_must hs (Prog.frame ((Img.own_le hi hpt).trans proc_freepagetable_le)) hh fun _ m h hs hh => ?_
  rw [one_mul] at hh
  obtain rfl : h = f := hh
  exact hk m hs

theorem bad_wp {out : β} (hi : i.Fits trapframe trampoline guard) (hpt : ram.Has pagetable)
    (hs : Since ram m₀ h₀ m h) (hh : (i.own ram pagetable * exactly f) h) (hbad : ∀ m, Since ram m₀ h₀ m f → Q out ⟨s,m⟩) :
    (bad sb out none (some pagetable) i.sz).wp (exec p ram) X Q ⟨s,m⟩ :=
  freepagetable_wp hi hpt hs hh fun m hs => (Prog.wp_pure _ _ _).mpr (hbad m hs)

/-- The end of `exec` on an image that has a stack: it fails exactly when the stack is too small. -/
theorem pushImage_wp {Q : ℤ × Task → Kernel → Prop} (hi : i.Fits trapframe trampoline guard) (hpt : ram.Has pagetable)
    (hsz : i.sz = n * PGSIZE) (hn : USERSTACK < n) (hopen : Open i.map (n - USERSTACK) n) (hargs : Args f argv)
    (hargc : argv.length < MAXARG) (hs : Since ram m₀ h₀ m h) (hh : (i.own ram pagetable * exactly f) h)
    (hbad : USERSTACK * PGSIZE < need (argv.map (argStr f)) → ∀ m, Since ram m₀ h₀ m f → Q (-1,task) ⟨s,m⟩)
    (hcommit : need (argv.map (argStr f)) ≤ USERSTACK * PGSIZE → ∀ m h, Since ram m₀ h₀ m h →
      ((Img.mk i.sz i.map (stacked i.mem i.sz (argv.map (argStr f)))).own ram pagetable * exactly f) h →
      (commitImage task path entry pagetable i.sz (i.sz - need (argv.map (argStr f))) argv.length).wp (exec p ram) X Q ⟨s,m⟩) :
    (pushImage sb task path argv entry pagetable i.sz).wp (exec p ram) X Q ⟨s,m⟩ := by
  have hpages : npages i.sz = n := by rw [hsz,npages_mul]
  have hroom : n ≤ trapPage := hpages ▸ Shape.room hi
  have hbase : i.sz - USERSTACK * PGSIZE = (n - USERSTACK) * PGSIZE := by rw [hsz,Nat.sub_mul]
  have htop : (n - USERSTACK) * PGSIZE + USERSTACK * PGSIZE = i.sz := by
    rw [← Nat.add_mul,Nat.sub_add_cancel hn.le,hsz]
  rw [Img.own,hpages] at hh
  have hfail : ∀ m h c, USERSTACK * PGSIZE < need (argv.map (argStr f)) → Since ram m₀ h₀ m h →
      (held (plain ram) ram pagetable i.map c n * exactly f) h →
      (bad sb (-1,task) none (some pagetable) i.sz).wp (exec p ram) X Q ⟨s,m⟩ := fun m h c hlt hs hh => by
    refine bad_wp (i := ⟨i.sz,i.map,c⟩) hi hpt hs ?_ (hbad hlt)
    rwa [Img.own,hpages]
  simp only [pushImage,hbase]
  refine pushArgs_wp hopen (by omega) hroom hargs (by simpa using hargc.le) ?_ (by omega) (by omega) hs hh
    (fun hlt m h c hs hh => ?_) fun hge m h hs hh => ?_
  · rw [hsz]
    simp only [PGSIZE]
    omega
  · exact hfail m h c (by rw [need]; omega) hs hh
  · generalize hstrs : argv.map (argStr f) = strs at *
    have hlen : strs.length = argv.length := by rw [← hstrs,List.length_map]
    have hmod := slots_mod strs
    have hpush : push (i.sz - slots strs) ((strs.length + 1) * 8) = i.sz - need strs := by
      rw [push_eq,need,Nat.sub_sub]
      · rw [hsz]
        simp only [PGSIZE]
        omega
      · simp only [MAXARG,PGSIZE] at *
        omega
      · rw [trapPage_eq] at hroom
        rw [hsz]
        simp only [PGSIZE]
        omega
    dsimp only
    rw [List.nil_append,length_place,hpush]
    by_cases hlt : i.sz - need strs < (n - USERSTACK) * PGSIZE
    · rw [if_pos hlt]
      exact hfail m h _ (by omega) hs hh
    rw [if_neg hlt]
    simp only [Prog.bind_eq]
    have hfit : need strs ≤ USERSTACK * PGSIZE := by
      rw [need] at hlt ⊢
      have := up16_mod ((strs.length + 1) * 8)
      simp only [MAXARG,USERSTACK,PGSIZE,up16] at *
      omega
    refine vm_must hs (Prog.frame (copyout_open hopen hroom (Nat.le_of_not_lt hlt) ?_)) hh fun r m h hs hh => ?_
    · have := le_up16 ((strs.length + 1) * 8)
      rw [length_pointers,List.length_append,length_place,List.length_singleton,← hsz]
      rw [need] at hfit ⊢
      omega
    rw [mul_assoc] at hh
    obtain ⟨hr,hh'⟩ := fact_mul_iff.mp hh
    rw [hr,if_neg (by decide),hlen]
    refine hcommit hfit m h hs ?_
    rw [Img.own,hpages]
    exact hh'

end Code

end Xv6.Exec
