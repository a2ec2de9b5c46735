import Xv6.Exec.Build
import Xv6.Fs.Sample
import Xv6.Vm.Contents
import Xv6.Vm.Fork

/-! # What a program finds on its stack

The bytes of the strings and of the array of pointers, first in the contents of the image and then
in the memory of the machine when `exec` has returned.
-/
namespace Xv6.Exec
open Library Library.Assert Vm

/-! ## Bytes of an image -/

def byteAt (c : ℕ → Page) (a : ℕ) : Byte := (c (a / PGSIZE)).get (a % PGSIZE)

def HasBytes (c : ℕ → Page) (a : ℕ) (bs : List Byte) : Prop := ∀ i b, bs[i]? = some b → byteAt c (a + i) = b

theorem byteAt_written (c : ℕ → Page) (a : ℕ) (bs : List Byte) (b : ℕ) :
    byteAt (written c a bs) b = if a ≤ b ∧ b < a + bs.length then bs.getD (b - a) 0 else byteAt c b := by
  have hlt : b % PGSIZE < PGSIZE := Nat.mod_lt _ (by decide)
  have hb : b / PGSIZE * PGSIZE + b % PGSIZE = b := Nat.div_add_mod' b PGSIZE
  rw [byteAt,byteAt,Bytes.get,dif_pos hlt,Bytes.get,dif_pos hlt,written]
  simp only [hb]

section Bytes
variable {c : ℕ → Page} {a a' : ℕ} {bs bs' : List Byte}

theorem hasBytes_written (c : ℕ → Page) (a : ℕ) (bs : List Byte) : HasBytes (written c a bs) a bs := fun i b hb => by
  have hi : i < bs.length := (List.getElem?_eq_some_iff.mp hb).1
  rw [byteAt_written,if_pos (by omega),Nat.add_sub_cancel_left,List.getD_eq_getElem?_getD,hb,Option.getD_some]

theorem HasBytes.written (h : HasBytes c a bs) (hd : a + bs.length ≤ a' ∨ a' + bs'.length ≤ a) :
    HasBytes (written c a' bs') a bs := by
  intro i b hb
  have hi : i < bs.length := (List.getElem?_eq_some_iff.mp hb).1
  rw [byteAt_written,if_neg (by omega)]
  exact h i b hb

theorem HasBytes.pushed {strs : List (List Byte)} {sp : ℕ} (h : HasBytes c a bs) (ha : sp ≤ a) (hsp : slots strs ≤ sp) :
    HasBytes (pushed c sp strs) a bs := by
  induction strs generalizing sp c with
  | nil => exact h
  | cons s strs ih =>
    rw [slots_cons] at hsp
    have := slot_pos s
    refine ih (h.written (.inr ?_)) (by omega) (by omega)
    rw [List.length_append,List.length_singleton]
    omega

end Bytes

section Layout
variable {c : ℕ → Page} {sp top : ℕ} {strs : List (List Byte)}

def ranges (sp : ℕ) (strs : List (List Byte)) : List (ℕ × ℕ) := (place sp strs).zip (strs.map fun s => s.length + 1)

@[simp] theorem ranges_cons (sp : ℕ) (s : List Byte) (strs : List (List Byte)) :
    ranges sp (s :: strs) = (sp - slot s,s.length + 1) :: ranges (sp - slot s) strs := rfl

theorem mem_ranges (hsp : slots strs ≤ sp) {x : ℕ × ℕ} (hx : x ∈ ranges sp strs) : sp - slots strs ≤ x.1 ∧ x.1 + x.2 ≤ sp := by
  induction strs generalizing sp with
  | nil => exact absurd hx List.not_mem_nil
  | cons s strs ih =>
    rw [slots_cons] at hsp ⊢
    have := slot_pos s
    rcases List.mem_cons.mp hx with rfl | hx
    · dsimp only
      omega
    · have hrest : slots strs ≤ sp - slot s := by omega
      have := ih hrest hx
      omega

theorem ranges_pairwise (hsp : slots strs ≤ sp) : (ranges sp strs).Pairwise fun x y => y.1 + y.2 ≤ x.1 := by
  induction strs generalizing sp with
  | nil => exact List.Pairwise.nil
  | cons s strs ih =>
    rw [slots_cons] at hsp
    refine List.pairwise_cons.mpr ⟨fun y hy => ?_,ih (by omega)⟩
    exact (mem_ranges (by omega) hy).2

theorem pushed_strings (hsp : slots strs ≤ sp) {i a : ℕ} {s : List Byte} (hs : strs[i]? = some s)
    (ha : (place sp strs)[i]? = some a) : HasBytes (pushed c sp strs) a (s ++ [0]) := by
  induction strs generalizing sp c i with
  | nil => cases hs
  | cons t strs ih =>
    rw [slots_cons] at hsp
    cases i with
    | zero =>
      cases hs
      cases ha
      exact (hasBytes_written _ _ _).pushed le_rfl (by omega)
    | succ i => exact ih (by omega) hs ha

theorem mem_ranges_of_getElem {i a : ℕ} {s : List Byte} (hs : strs[i]? = some s) (ha : (place sp strs)[i]? = some a) :
    (a,s.length + 1) ∈ ranges sp strs := by
  refine List.mem_iff_getElem?.mpr ⟨i,?_⟩
  rw [ranges,List.getElem?_zip_eq_some]
  exact ⟨ha,by rw [List.getElem?_map,hs]; rfl⟩

def pushStr (sp : ℕ) (s : List Byte) : ℕ := push sp (s.length + 1)

theorem foldl_pushStr (hmod : sp % 16 = 0) (hlt : sp < 2 ^ 64) (hsp : slots strs ≤ sp) :
    strs.foldl pushStr sp = sp - slots strs := by
  induction strs generalizing sp with
  | nil => rfl
  | cons s strs ih =>
    rw [slots_cons] at hsp
    have := slot_pos s
    have hs : slot s % 16 = 0 := up16_mod _
    rw [List.foldl_cons,pushStr,push_eq hmod (by omega) hlt,ih (by rw [slot] at *; omega) (by omega) (by rw [slot] at *; omega),
      slots_cons,slot,Nat.sub_sub]

theorem slots_le_slots {pre : List (List Byte)} (h : pre <+: strs) : slots pre ≤ slots strs := by
  obtain ⟨post,rfl⟩ := h
  rw [slots,slots,List.map_append,List.sum_append]
  exact Nat.le_add_right _ _

theorem place_getElem {i a : ℕ} (ha : (place sp strs)[i]? = some a) : a = sp - slots (strs.take (i + 1)) := by
  induction strs generalizing sp i with
  | nil => cases ha
  | cons s strs ih =>
    cases i with
    | zero =>
      cases ha
      rfl
    | succ i => rw [List.take_succ_cons,slots_cons,← Nat.sub_sub,ih ha]

end Layout

/-! ## The memory of the new program -/

def Holds (m : Machine) (root a : ℕ) (bs : List Byte) : Prop := ∀ i b, bs[i]? = some b → m.byte root (a + i) = some b

/-- The stack of a program started with the arguments `strs`: `ptrs` are the pointers to the strings,
and `sp` the one to their array. -/
structure ArgStack (m : Machine) (p : Space) (strs : List (List Byte)) (sp : ℕ) (ptrs : List ℕ) : Prop where
  count : ptrs.length = strs.length
  aligned : sp % 16 = 0
  array : Holds m p.pagetable sp ((ptrs ++ [0]).flatMap (leBytes 8))
  strings : ∀ (i : ℕ) s a, strs[i]? = some s → ptrs[i]? = some a → Holds m p.pagetable a (s ++ [0])
  disjoint : ((sp,(strs.length + 1) * 8) :: ptrs.zip (strs.map fun s => s.length + 1)).Pairwise fun x y =>
    x.1 + x.2 ≤ y.1 ∨ y.1 + y.2 ≤ x.1
  within : ∀ x ∈ (sp,(strs.length + 1) * 8) :: ptrs.zip (strs.map fun s => s.length + 1),
    p.sz - USERSTACK * PGSIZE ≤ x.1 ∧ x.1 + x.2 ≤ p.sz
  guard : ∃ e, m.get 2 p.pagetable ((p.sz - USERSTACK * PGSIZE) / PGSIZE - 1) = some e ∧ e &&& PTE_U = 0
  /-- The values of the stack pointer, and that no subtraction wraps. -/
  pointers : ∀ (i : ℕ) a, ptrs[i]? = some a → a = (strs.take (i + 1)).foldl pushStr p.sz
  pointer : sp = push (strs.foldl pushStr p.sz) ((strs.length + 1) * 8)
  nowrap : ∀ pre s, pre ++ [s] <+: strs → s.length + 1 ≤ pre.foldl pushStr p.sz
  room : (strs.length + 1) * 8 ≤ strs.foldl pushStr p.sz

section Machine
variable {ram : Ram} {m : Machine} {h : Heap ℕ Page} {pagetable n : ℕ} {M : ℕ → Option (BitVec 64)} {c : ℕ → Page}
variable {strs : List (List Byte)}

theorem HasBytes.holds {a : ℕ} {bs : List Byte} (hc : HasBytes c a bs) (hs : Machine.Shows ram m h pagetable M c n)
    (hM : User M n) (ha : a + bs.length ≤ n * PGSIZE) : Holds m pagetable a bs := fun i b hb => by
  have hi : i < bs.length := (List.getElem?_eq_some_iff.mp hb).1
  have hlt : (a + i) / PGSIZE < n := (Nat.div_lt_iff_lt_mul (by decide)).mpr (by omega)
  obtain ⟨e,he,-⟩ := hM.low _ hlt
  have hroom := hM.room
  rw [trapPage_eq] at hroom
  rw [Machine.byte,Machine.phys,hs.get _ (by omega),he,Option.map_some,Option.map_some,hs.content _ _ hlt he]
  exact congrArg some (hc i b hb)

theorem argStack_of {p : Space} (hs : Machine.Shows ram m h p.pagetable M (stacked c p.sz strs) n) (hsz : p.sz = n * PGSIZE)
    (hM : User M n) (hn : USERSTACK < n) (hguard : ∃ e, M (n - USERSTACK - 1) = some e ∧ e &&& PTE_U = 0)
    (hneed : need strs ≤ USERSTACK * PGSIZE) : ArgStack m p strs (p.sz - need strs) (place p.sz strs) := by
  have hroom := hM.room
  rw [trapPage_eq] at hroom
  have htop : USERSTACK * PGSIZE ≤ p.sz := by
    rw [hsz]
    exact Nat.mul_le_mul_right _ hn.le
  have hmod : p.sz % 16 = 0 := by
    rw [hsz]
    simp only [PGSIZE]
    omega
  have hlt : p.sz < 2 ^ 64 := by
    rw [hsz]
    simp only [PGSIZE]
    omega
  have hslots : slots strs ≤ p.sz := by
    rw [need] at hneed
    omega
  have hsmod := slots_mod strs
  have harr := le_up16 ((strs.length + 1) * 8)
  have hamod := up16_mod ((strs.length + 1) * 8)
  have hlen : (((place p.sz strs) ++ [0]).flatMap (leBytes 8)).length = (strs.length + 1) * 8 := by
    rw [length_pointers,List.length_append,length_place,List.length_singleton]
  have hneed' : need strs = slots strs + up16 ((strs.length + 1) * 8) := rfl
  have hfold := foldl_pushStr hmod hlt hslots
  have hrange : ∀ x ∈ ranges p.sz strs, p.sz - need strs + (strs.length + 1) * 8 ≤ x.1 ∧ x.1 + x.2 ≤ p.sz := fun x hx => by
    have := mem_ranges hslots hx
    omega
  refine ⟨length_place _ _,by omega,?_,fun i s a hi ha => ?_,?_,?_,?_,fun i a ha => ?_,?_,fun pre s hpre => ?_,by omega⟩
  · refine (hasBytes_written _ _ _).holds hs hM ?_
    rw [hlen,← hsz]
    omega
  · have hx := hrange _ (mem_ranges_of_getElem hi ha)
    refine ((pushed_strings hslots hi ha).written (.inr ?_)).holds hs hM ?_
    · rw [hlen]
      exact hx.1
    · rw [List.length_append,List.length_singleton,← hsz]
      exact hx.2
  · refine List.pairwise_cons.mpr ⟨fun y hy => .inl (hrange y hy).1,?_⟩
    exact (ranges_pairwise hslots).imp .inr
  · intro x hx
    rcases List.mem_cons.mp hx with rfl | hx
    · dsimp only
      omega
    · have := hrange x hx
      omega
  · have hdiv : (p.sz - USERSTACK * PGSIZE) / PGSIZE = n - USERSTACK := by
      rw [hsz,← Nat.sub_mul,Nat.mul_div_cancel _ (by decide)]
    rw [hdiv,hs.get _ (by omega)]
    exact hguard
  · rw [place_getElem ha,foldl_pushStr hmod hlt ((slots_le_slots (List.take_prefix _ _)).trans hslots)]
  · rw [hfold,push_eq (by omega) (by omega) (by omega),Nat.sub_sub,hneed']
  · have hle := (slots_le_slots hpre).trans hslots
    rw [slots,List.map_append,List.sum_append,List.map_singleton,List.sum_singleton,← slots] at hle
    have := slot_pos s
    rw [foldl_pushStr hmod hlt (by omega)]
    omega

end Machine

/-! ## `exec` -/

def argStrs (m : Machine) (argv : List ℕ) : List (List Byte) := argv.map fun a => cstr ((m.mem a).slice 0 PGSIZE)

/-- The pages of a process in `exec`: those with the arguments, and its address space. -/
structure Caller (ram : Ram) (trampoline : ℕ) (task : Task) (argv : List ℕ) (fa fo : Heap ℕ Page) : Prop where
  apart : fa.Apart fo
  space : ∃ guard, Vm.space ram trampoline guard task.space fo
  args : Args fa argv
  argc : argv.length < MAXARG

def Ready (ram : Ram) (trampoline : ℕ) (task : Task) (argv : List ℕ) (m : Machine) : Prop :=
  ∃ fa fo, Caller ram trampoline task argv fa fo ∧ m.Agrees ram (fa.join fo)

/-- The machine when the new image has its stack, next to the pages `f`. -/
def Built (ram : Ram) (trampoline trapframe : ℕ) (f : Heap ℕ Page) (m : Machine) (pagetable sz : ℕ) : Prop :=
  ∃ i i' h guard, Stack i i' ∧ i'.Fits trapframe trampoline guard ∧ ram.Has pagetable ∧ i'.sz = sz ∧ m.Agrees ram h ∧
    (i'.own ram pagetable * exactly f) h

/-- The new program is to run: `sp` is in the registers `a1` and `sp`, and the result is for `a0`. -/
structure Started (task : Task) (strs : List (List Byte)) (r : ℤ × Task) (m : Machine) : Prop where
  argc : r.1 = strs.length
  trapframe : r.2.space.trapframe = task.space.trapframe
  stack : ∃ sp ptrs, ArgStack m r.2.space strs sp ptrs ∧
    (m.mem task.space.trapframe).slice 120 8 = leBytes 8 sp ∧ (m.mem task.space.trapframe).slice 48 8 = leBytes 8 sp

section Exec
variable {sb : Superblock} {p : Pid} {ram : Ram} {X : KHalt → Prop} {s : St} {m m₀ : Machine} {h h₀ fa fo f : Heap ℕ Page}
variable {task : Task} {path : List Byte} {argv : List ℕ} {trampoline pagetable entry : ℕ} {i i' : Img}

theorem Args.join (ha : Args fa argv) : Args (fa.join fo) argv := fun a hmem => by
  obtain ⟨h₁,h₂⟩ := ha a hmem
  rw [argStr,Heap.join_of_ne h₁]
  exact ⟨h₁,h₂⟩

theorem argStrs_eq (ha : Args f argv) (hm : m.Agrees ram f) : argv.map (argStr f) = argStrs m argv := by
  refine List.map_congr_left fun a hmem => ?_
  obtain ⟨q,hq⟩ := Option.ne_none_iff_exists'.mp (ha a hmem).1
  rw [argStr,hq,Option.getD_some,hm.mem a q hq]

theorem poke_cell {pa off : ℕ} {q : Page} {bs : List Byte} (h : off + bs.length ≤ PGSIZE) {V : VmPanic → Prop} :
    cell pa q ≤ (poke pa off bs).must (vmLocal ram V) fun _ => cell pa (q.splice off bs) := by
  have hret : cell pa (q.splice off bs) * 1 ≤ (Prog.ret () : VmCode Unit).must (vmLocal ram V) fun _ => cell pa (q.splice off bs) :=
    Prog.must_ret_le (mul_one _).le
  have hpoke := poke_bind h hret
  rwa [mul_one] at hpoke

theorem register_splice {q : Page} {off v : ℕ} (h : off + 8 ≤ PGSIZE) : (q.splice off (leBytes 8 v)).slice off 8 = leBytes 8 v := by
  have hsame : off + (leBytes 8 v).length ≤ PGSIZE := by rwa [leBytes_length]
  have := Bytes.slice_splice_same q hsame
  rwa [leBytes_length] at this

theorem commitImage_wp {sz sp argc : ℕ} {F : Assert ℕ Page} {guard : Set ℕ}
    (hs : Since ram m₀ h₀ m h) (hh : (space ram trampoline guard task.space * F) h) :
    (commitImage task path entry pagetable sz sp argc).wp (exec p ram) X (fun r k =>
      r.1 = argc ∧ r.2.space = { task.space with pagetable := pagetable, sz := sz } ∧
        ∃ (q : Page) (h : Heap ℕ Page), k.vm.Agrees ram h ∧
        (cell task.space.trapframe q * F : Assert ℕ Page) h ∧ q.slice 120 8 = leBytes 8 sp ∧ q.slice 48 8 = leBytes 8 sp)
          ⟨s,m⟩ := by
  obtain ⟨q,hh⟩ : ∃ q : Page, (cell task.space.trapframe q *
      (image ram trampoline task.space.trapframe guard task.space.pagetable task.space.sz * F) : Assert ℕ Page) h := by
    rw [space,mul_assoc,mul_left_comm,page,mul_assoc] at hh
    have hh := (fact_mul_iff.mp hh).2
    rwa [Quantale.iSup_mul_distrib,iSup_iff] at hh
  refine vm_must hs (Prog.frame (poke_cell (by rw [leBytes_length]; decide))) hh fun _ m h hs hh => ?_
  refine vm_must hs (Prog.frame (poke_cell (by rw [leBytes_length]; decide))) hh fun _ m h hs hh => ?_
  refine vm_must hs (Prog.frame (poke_cell (by rw [leBytes_length]; decide))) hh fun _ m h hs hh => ?_
  rw [mul_left_comm] at hh
  refine vm_must hs (Prog.frame proc_freepagetable_le) hh fun _ m h hs hh => ?_
  rw [one_mul] at hh
  refine (Prog.wp_pure _ _ _).mpr ⟨rfl,rfl,_,h,hs.agrees,hh,?_,?_⟩
  · rw [Bytes.slice_splice_disjoint _ (by simp),Bytes.slice_splice_disjoint _ (by simp),register_splice (by decide)]
  · rw [register_splice (by decide)]

theorem exactly_join (hc : fa.Apart fo) : (exactly (fa.join fo) : Assert ℕ Page) ≤ exactly fa * exactly fo := by
  rintro _ rfl
  exact ⟨fa,fo,rfl,rfl,hc,rfl⟩

theorem pushImage_built (sb : Superblock) (p : Pid) (s : St) (path : List Byte) (entry : ℕ)
    (hc : Caller ram trampoline task argv fa fo) (hstack : Stack i i') {guard : Set ℕ}
    (hi : i'.Fits task.space.trapframe trampoline guard) (hpt : ram.Has pagetable) (hm : m.Agrees ram h)
    (hh : (i'.own ram pagetable * exactly (fa.join fo)) h) :
    (pushImage sb task path argv entry pagetable i'.sz).wp (exec p ram) (fun _ => False) (fun r k =>
      USERSTACK * PGSIZE < need (argv.map (argStr (fa.join fo))) ∧ r.1 = -1 ∨
        need (argv.map (argStr (fa.join fo))) ≤ USERSTACK * PGSIZE ∧ Started task (argv.map (argStr (fa.join fo))) r k.vm)
          ⟨s,m⟩ := by
  have hn : npages i'.sz = npages i.sz + (USERSTACK + 1) := by rw [hstack.sz,npages_mul]
  refine pushImage_wp hi hpt (hn ▸ hstack.sz) (by omega) hstack.open hc.args.join hc.argc (.refl hm) hh
    (fun hlt m hs => .inl ⟨hlt,rfl⟩) fun hneed m h hs hh => ?_
  generalize hstrs : argv.map (argStr (fa.join fo)) = strs at *
  have hlen : argv.length = strs.length := by rw [← hstrs,List.length_map]
  obtain ⟨guard',hspace⟩ := hc.space
  have hown : (space ram trampoline guard' task.space *
      (exactly fa * (Img.mk i'.sz i'.map (stacked i'.mem i'.sz strs)).own ram pagetable)) h := by
    have hle := mul_le_mul_right ((exactly_join hc.apart).trans (mul_le_mul_right (exactly_le hspace) _))
      ((Img.mk i'.sz i'.map (stacked i'.mem i'.sz strs)).own ram pagetable) h hh
    rwa [mul_comm,mul_comm (exactly fa),mul_assoc] at hle
  refine (commitImage_wp hs hown).imp fun r k ⟨hr,hsp,q,h,hag,hq,ha1,hsp'⟩ =>
    .inr ⟨hneed,by rw [hr,hlen],by rw [hsp],?_⟩
  · obtain ⟨g₁,g₂,hg₁,⟨g₃,g₄,-,hg₄,ha₂,rfl⟩,ha₁,rfl⟩ := hq
    have hsub : k.vm.Agrees ram g₄ := by
      rw [Heap.join_comm ha₁,Heap.join_comm ha₂,Heap.join_assoc] at hag
      exact hag.sub
    have htf : k.vm.mem task.space.trapframe = q := hag.mem _ q (Heap.join_left (by rw [hg₁]; simp [Heap.single]))
    have hroom := Shape.room hi
    rw [trapPage_eq] at hroom
    have hlt : USERSTACK < npages i'.sz := by omega
    have hguard : ∃ e, i'.map (npages i'.sz - USERSTACK - 1) = some e ∧ e &&& PTE_U = 0 := by
      rw [hn,show npages i.sz + (USERSTACK + 1) - USERSTACK - 1 = npages i.sz by omega]
      exact hstack.guard
    have hshows := Machine.shows_of_held hsub hg₄ (by dsimp only; omega)
    rw [hsp,htf]
    exact ⟨_,_,argStack_of (p := { task.space with pagetable := pagetable, sz := i'.sz }) hshows (hn ▸ hstack.sz) (Shape.user hi)
      hlt hguard hneed,ha1,hsp'⟩

theorem agrees_exactly {P : Assert ℕ Page} (hm : m.Agrees ram h) (hh : (P * exactly f) h) : m.Agrees ram f := by
  obtain ⟨g₁,g₂,-,rfl,ha,rfl⟩ := hh
  rw [Heap.join_comm ha] at hm
  exact hm.sub

/-- Up to the push of the arguments, `exec` builds an image or returns -1, next to whatever pages there are. -/
theorem buildImage_built (hpages : ram.pages < trapPage) {trapframe : ℕ} {k : Kernel} (hm : k.vm.Agrees ram f) :
    (buildImage sb trampoline trapframe path).wp (exec p ram) (fun _ => True) (fun o k' => ∀ entry pagetable sz,
      o = some (entry,pagetable,sz) → Built ram trampoline trapframe f k'.vm pagetable sz) k := by
  refine fs_seq (Prog.wp_of_forall (Q := fun _ _ => True) (fun _ => trivial) (fun _ _ => trivial) _ _) fun _ t _ => ?_
  refine fs_seq (Prog.wp_of_forall (Q := fun _ _ => True) (fun _ => trivial) (fun _ _ => trivial) _ _) fun ip t _ => ?_
  cases ip with
  | none =>
    refine fs_seq (Prog.wp_of_forall (Q := fun _ _ => True) (fun _ => trivial) (fun _ _ => trivial) _ _) fun _ t _ => ?_
    exact (Prog.wp_pure _ _ _).mpr fun _ _ _ ho => absurd ho.symm (Option.some_ne_none _)
  | some ip =>
    refine fs_seq (Prog.wp_of_forall (Q := fun _ _ => True) (fun _ => trivial) (fun _ _ => trivial) _ _) fun _ t _ => ?_
    refine loadImage_wp .any hpages trivial (.refl hm) (fun _ _ _ _ _ _ _ ho => absurd ho.symm (Option.some_ne_none _)) ?_
    intro bs elf i₀ i i' pt t m h _ _ _ _ _ _ hstack hi hpt _ hs hh entry pagetable sz ho
    cases ho
    exact ⟨i,i',h,_,hstack,hi,hpt,rfl,hs.agrees,hh⟩

/-- Once the image is built, `exec` fails exactly when the arguments do not fit on the stack. -/
theorem execPath_built (hpages : ram.pages < trapPage) {k k₁ : Kernel} (hready : Ready ram trampoline task argv k.vm) {sz : ℕ}
    (hrun : (buildImage sb trampoline task.space.trapframe path).run (exec p ram) k = .ok (some (entry,pagetable,sz),k₁)) :
    ∃ r k', (execPath sb trampoline task path argv).run (exec p ram) k = .ok (r,k') ∧
      (USERSTACK * PGSIZE < need (argStrs k.vm argv) ∧ r.1 = -1 ∨
        need (argStrs k.vm argv) ≤ USERSTACK * PGSIZE ∧ Started task (argStrs k.vm argv) r k'.vm) := by
  obtain ⟨fa,fo,hc,hm⟩ := hready
  obtain ⟨i,i',h,guard,hstack,hi,hpt,rfl,hm₁,hh⟩ := (buildImage_built hpages hm).of_run_ok hrun _ _ _ rfl
  rw [← argStrs_eq hc.args.join hm]
  rcases (pushImage_built sb p k₁.fs path entry hc hstack hi hpt hm₁ hh).run with ⟨r,k',hr,hq⟩ | ⟨e,-,he⟩
  · exact ⟨r,k',(Prog.run_bind_ok hrun).trans hr,hq⟩
  · exact he.elim

/-- A successful `exec` gives the new program its arguments on the stack. Whether the same file can be executed in the
same state with other arguments depends on their size alone: `exec` returns, and fails exactly when they do not fit
on the stack. -/
theorem exec_argument_stack (hpages : ram.pages < trapPage) {k k' : Kernel} {r : ℤ × Task}
    (hready : Ready ram trampoline task argv k.vm)
    (hrun : (execPath sb trampoline task path argv).run (exec p ram) k = .ok (r,k')) (hr : 0 ≤ r.1) :
    Started task (argStrs k.vm argv) r k'.vm ∧ need (argStrs k.vm argv) ≤ USERSTACK * PGSIZE ∧
    ∀ argv', Ready ram trampoline task argv' k.vm →
      ∃ r k', (execPath sb trampoline task path argv').run (exec p ram) k = .ok (r,k') ∧
        (USERSTACK * PGSIZE < need (argStrs k.vm argv') ∧ r.1 = -1 ∨
          need (argStrs k.vm argv') ≤ USERSTACK * PGSIZE ∧ Started task (argStrs k.vm argv') r k'.vm) := by
  obtain ⟨o,k₁,hbuild,hpush⟩ := Prog.exists_of_run_bind hrun
  cases o with
  | none =>
    cases hpush
    exact absurd hr (by decide : ¬(0 : ℤ) ≤ -1)
  | some x =>
    obtain ⟨entry,pagetable,sz⟩ := x
    have hall : ∀ argv', Ready ram trampoline task argv' k.vm → _ := fun argv' h' => execPath_built hpages h' hbuild
    obtain ⟨r',k'',hrun',hout⟩ := hall argv hready
    rw [hrun] at hrun'
    cases hrun'
    rcases hout with ⟨-,hbad⟩ | ⟨hfits,hstarted⟩
    · omega
    · exact ⟨hstarted,hfits,hall⟩

end Exec

/-! ## A program without segments -/

/-- `/a` is a file of 64 bytes, the header of an executable without segments. -/
def programState : St :=
  let blocks : Blocks := fun b =>
    if b = 32 then Dinode.toBlock (Sample.blocks 32) 2 ⟨T_FILE,0,0,1,64,fun k => if k = 0 then 35 else 0⟩
    else if b = 35 then Bytes.zero.splice 0 [0x7f,0x45,0x4c,0x46]
    else Sample.blocks b
  { Sample.state with blk := blocks, disk := blocks }

def oneArgument : VmCode (Option (Space × ℕ)) := do
  match ← allocproc 0x2000 with
  | none => pure none
  | some q => do
    match ← kalloc with
    | none => pure none
    | some a => do
      poke a 0 (text "hi" ++ [0])
      pure (some (q,a))

def argumentPage : Page := (fill 5 : Page).splice 0 (text "hi" ++ [0])

theorem oneArgument_le {ram : Ram} {V : VmPanic → Prop} : (1 : Assert ℕ Page) ≤ oneArgument.must (vmLocal ram V)
    fun o h => ∀ q a, o = some (q,a) → (cell a argumentPage * space ram 0x2000 ∅ q) h := by
  refine Prog.seq allocproc_le fun o => ?_
  cases o with
  | none => exact Prog.must_ret_le fun _ _ _ _ ho => absurd ho.symm (Option.some_ne_none _)
  | some q =>
    refine Assert.fact_mul_le.mpr fun _ => kalloc_bind ?_ fun a _ => poke_bind (by decide) ?_
    · exact Prog.must_ret_le fun _ _ _ _ ho => absurd ho.symm (Option.some_ne_none _)
    · refine Prog.must_ret_le fun h hh _ _ ho => ?_
      cases ho
      exact hh

theorem cstr_argumentPage : cstr (argumentPage.slice 0 PGSIZE) = text "hi" := by
  have hslice : argumentPage.slice 0 PGSIZE = (text "hi" ++ [0]) ++ argumentPage.slice 3 4093 := by
    have hfirst := @Bytes.slice_splice_same _ (fill 5 : Page) 0 (text "hi" ++ [0]) (by decide)
    exact (Bytes.slice_add argumentPage 0 3 4093).trans (congrArg (· ++ argumentPage.slice 3 4093) hfirst)
  rw [hslice,cstr,List.append_assoc,List.takeWhile_append_of_pos (by decide)]
  rfl

theorem ready_oneArgument {ram : Ram} {q : Space} {a : ℕ} {m : Machine} {h : Heap ℕ Page} (hm : m.Agrees ram h)
    (hh : (cell a argumentPage * space ram 0x2000 ∅ q) h) :
    Ready ram 0x2000 ⟨q,[]⟩ [a] m ∧ argStrs m [a] = [text "hi"] := by
  obtain ⟨fa,fo,hfa,hfo,hapart,rfl⟩ := hh
  have hpage : fa a = some argumentPage := by
    rw [hfa]
    simp [Heap.single]
  have harg : argStr fa a = text "hi" := by
    rw [argStr,hpage,Option.getD_some,cstr_argumentPage]
  refine ⟨⟨fa,fo,⟨hapart,⟨∅,hfo⟩,fun b hb => ?_,show 1 < MAXARG by decide⟩,hm⟩,?_⟩
  · obtain rfl := List.mem_singleton.mp hb
    rw [harg,hpage]
    exact ⟨Option.some_ne_none _,by decide⟩
  · rw [argStrs,List.map_singleton,hm.mem a _ (Heap.join_left hpage),cstr_argumentPage]

/-- `exec("/a", {"hi"})` in a new process returns 1. -/
theorem exec_argument_stack_hi : ∃ (k k' : Kernel) (task : Task) (a : ℕ) (r : ℤ × Task), argStrs k.vm [a] = [text "hi"] ∧
    (execPath Sample.super 0x2000 task (text "/a") [a]).run (exec 0 Machine.forkRam) k = .ok (r,k') ∧ r.1 = 1 ∧
    Started task [text "hi"] r k'.vm := by
  let start : Kernel := ⟨programState,Machine.forkMachine⟩
  let both : KCode Bool := (vm oneArgument).bind fun
    | none => pure false
    | some (q,_) => (buildImage Sample.super 0x2000 q.trapframe (text "/a")).bind fun o => pure o.isSome
  obtain ⟨⟨b,k₂⟩,hboth,rfl⟩ := Prog.ok_of_toOption_map (e := both.run (exec 0 Machine.forkRam) start) (f := Prod.fst)
    (q := true) (by decide +kernel)
  obtain ⟨o,k,hone,hbuild⟩ := Prog.exists_of_run_bind hboth
  rcases Machine.run_of_must Machine.forkMachine_agrees (oneArgument_le (V := fun _ => False) _ rfl) with
    ⟨o',m,h,hrun,hown,hm,-⟩ | ⟨e,-,he⟩
  · -- the machine is as the run of the page table code alone leaves it
    obtain ⟨rfl,rfl⟩ := (wp_vm.mpr (Prog.wp_of_run (Q := fun o₁ m₁ => o₁ = o' ∧ m₁ = m) (X := fun _ => True) hrun ⟨rfl,rfl⟩) :
      (vm oneArgument).wp (exec 0 Machine.forkRam) (fun _ => True) (fun o₁ k₁ => o₁ = o' ∧ k₁.vm = m) start).of_run_ok hone
    cases o with
    | none => cases hbuild
    | some x =>
      obtain ⟨q,a⟩ := x
      obtain ⟨image,k₁,hbuild,hsome⟩ := Prog.exists_of_run_bind hbuild
      cases image with
      | none => cases hsome
      | some image =>
        obtain ⟨hready,hstrs⟩ := ready_oneArgument hm (hown q a rfl)
        obtain ⟨r,k',hexec,hout⟩ := execPath_built (by decide) hready hbuild
        have hr : 0 ≤ r.1 := by
          rcases hout with ⟨hlt,-⟩ | ⟨-,hstarted⟩
          · rw [hstrs] at hlt
            exact absurd hlt (by decide)
          · rw [hstarted.argc]
            exact Int.natCast_nonneg _
        have hstarted := (exec_argument_stack (by decide) hready hexec hr).1
        rw [hstrs] at hstarted
        exact ⟨k,k',_,a,r,hstrs,hexec,hstarted.argc,hstarted⟩
  · exact he.elim

end Xv6.Exec
