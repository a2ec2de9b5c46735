import Xv6.Vm.Access
import Xv6.Vm.Fork

/-! # The pages of all processes

The processes allocate, copy, grow and free their address spaces and move bytes between them and
the kernel, all at once: after each operation on a page or on the free list another process may go
on. At all times each page of memory is free or belongs to one process.
-/
namespace Xv6.Vm.Procs
open Library Assert Machine
open Function (update update_idem update_of_ne update_self)

/-- What a slot of the process table has, or the call that its process is in. -/
inductive Slot (P : Type)
  | idle (p : Option Space)
  /-- for `fork`, with the slot of the child and the pages of the parent -/
  | busy (fork : Option (P × Space)) (c : VmCode (Option Space))
  /-- found by the `allocproc` of a `fork` that has not returned -/
  | used

structure World (P : Type) where
  m : Machine
  slot : P → Slot P

section Machine
variable {P : Type} [DecidableEq P] (ram : Ram) (trampoline : ℕ)

inductive Call : Option Space → VmCode (Option Space) → Prop
  | allocproc : Call none (allocproc trampoline)
  | growproc (p : Space) (n : BitVec 32) : Call (some p) ((growproc p n).bind fun r => pure (some r.2))
  | copyin (p : Space) (srcva len : ℕ) : Call (some p) ((copyin p.pagetable srcva len).bind fun _ => pure (some p))
  | copyinstr (p : Space) (srcva max : ℕ) : Call (some p) ((copyinstr p.pagetable srcva max).bind fun _ => pure (some p))
  | copyout (p : Space) (dstva : ℕ) (src : List Byte) : Call (some p) ((copyout p.pagetable dstva src).bind fun _ => pure (some p))
  | freeproc (p : Space) : Call (some p) ((freeproc (some p.trapframe) (some p.pagetable) p.sz).bind fun _ => pure none)

inductive Step : World P → World P → Prop
  | call {w : World P} {i : P} {p : Option Space} {c : VmCode (Option Space)} (hi : w.slot i = .idle p)
      (hc : Call trampoline p c) : Step w { w with slot := update w.slot i (.busy none c) }
  | fork {w : World P} {i j : P} {p : Space} (hi : w.slot i = .idle (some p)) (hj : w.slot j = .idle none) :
      Step w { w with slot := update (update w.slot j .used) i (.busy (some (j,p)) (fork trampoline p)) }
  | op {w : World P} {i : P} {f : Option (P × Space)} {o : VmOp} {k : o.Res → VmCode (Option Space)} {r : o.Res} {m : Machine}
      (hi : w.slot i = .busy f (.op o k)) (h : exec ram o w.m = .ok (r,m)) :
      Step w ⟨m,update w.slot i (.busy f (k r))⟩
  | ret {w : World P} {i : P} {p : Option Space} (hi : w.slot i = .busy none (.ret p)) :
      Step w { w with slot := update w.slot i (.idle p) }
  | forked {w : World P} {i j : P} {p : Space} {np : Option Space} (hi : w.slot i = .busy (some (j,p)) (.ret np)) :
      Step w { w with slot := update (update w.slot j (.idle np)) i (.idle (some p)) }

/-- After `kinit` all pages are free and no process has any. -/
inductive Reaches : World P → Prop
  | init {m : Machine} (hn : m.freelist.Nodup) (hm : ∀ x, x ∈ m.freelist ↔ ram.Has x) : Reaches ⟨m,fun _ => .idle none⟩
  | step {w w' : World P} : Reaches w → Step ram trampoline w w' → Reaches w'

end Machine

section Pages
variable {P : Type} {ram : Ram} {trampoline : ℕ}

def own (ram : Ram) (trampoline : ℕ) : Option Space → Assert ℕ Page := given (space ram trampoline ∅)

/-- The pages of a slot; those of a call are enough for it to run and leave what it should. -/
def Slot.has (ram : Ram) (trampoline : ℕ) : Slot P → Assert ℕ Page
  | .idle p => own ram trampoline p
  | .busy f c => c.must (vmLocal ram fun _ => False) fun r => own ram trampoline (f.map Prod.snd) * own ram trampoline r
  | .used => 1

theorem given_le {φ : Space → Prop} {r : Option Space} :
    given (fun p => fact (φ p) * space ram trampoline ∅ p) r ≤ own ram trampoline r := by
  cases r with
  | none => exact le_rfl
  | some p => exact fact_mul_le.mpr fun _ => le_rfl

theorem Call.le {p : Option Space} {c : VmCode (Option Space)} (hpages : ram.pages < trapPage) (hc : Call trampoline p c) :
    own ram trampoline p ≤ c.must (vmLocal ram fun _ => False) (own ram trampoline) := by
  cases hc with
  | allocproc => exact Prog.imp allocproc_le fun _ => given_le
  | growproc p n =>
    refine Prog.seq (growproc_le hpages) fun r => ?_
    rw [Set.empty_inter,fact_mul_le]
    exact fun _ => Prog.must_ret_le le_rfl
  | copyin => exact Prog.seq (Prog.frame copyin_image) fun _ => Prog.must_ret_le le_rfl
  | copyinstr =>
    refine Prog.seq (Prog.frame copyinstr_image) fun r => ?_
    rw [mul_assoc,fact_mul_le]
    exact fun _ => Prog.must_ret_le le_rfl
  | copyout => exact Prog.seq (Prog.frame copyout_image) fun _ => Prog.must_ret_le le_rfl
  | freeproc => exact Prog.seq freeproc_le fun _ => Prog.must_ret_le le_rfl

theorem exec_must {α : Type} {o : VmOp} {k : o.Res → VmCode α} {Q : α → Assert ℕ Page} {m : Machine} {f g : Heap ℕ Page}
    (hm : m.Agrees ram (f.join g)) (hfg : f.Apart g) (hf : (Prog.op o k).must (vmLocal ram fun _ => False) Q f) :
    ∃ r m' f', exec ram o m = .ok (r,m') ∧ (k r).must (vmLocal ram fun _ => False) Q f' ∧ f'.Apart g ∧
      m'.Agrees ram (f'.join g) ∧
      ∀ x, f.join g x ≠ none ∨ x ∈ m.freelist → f'.join g x ≠ none ∨ x ∈ m'.freelist := by
  obtain ⟨hsafe,hk⟩ := Prog.must_op_iff.mp hf
  have hself : Kept m (f.join g) m (f.join g) := ⟨fun x h₁ h₂ => ⟨h₁,h₂⟩,fun _ _ _ => rfl⟩
  rcases exec_sim o ⟨hm,hself⟩ ((vmLocal ram fun _ => False).safe_join hsafe hfg) with ⟨r,m',h',he,hs,hm',-⟩ | ⟨-,-,q,-,hq⟩
  · have hall : ∀ x, f.join g x ≠ none ∨ x ∈ m.freelist → h' x ≠ none ∨ x ∈ m'.freelist :=
      fun x => exec_conserves he hs
    obtain ⟨f',hs',hfg',rfl⟩ := (vmLocal ram fun _ => False).step_join hsafe hfg hs
    exact ⟨r,m',f',he,hk r f' hs',hfg',hm',hall⟩
  · exact hq.elim

end Pages

section Invariant
variable {P : Type} [Fintype P] [DecidableEq P] {ram : Ram} {trampoline : ℕ} {w w' : World P}

structure Inv (ram : Ram) (trampoline : ℕ) (w : World P) : Prop where
  pages : ∃ h, w.m.Agrees ram h ∧ (∏ i, (w.slot i).has ram trampoline) h ∧ ∀ x, ram.Has x → h x ≠ none ∨ x ∈ w.m.freelist
  used : ∀ {i j p c}, w.slot i = .busy (some (j,p)) c → w.slot j = .used
  child : ∀ {i i' j p p' c c'}, w.slot i = .busy (some (j,p)) c → w.slot i' = .busy (some (j,p')) c' → i = i'

omit [Fintype P] in
theorem prod_slot (s : P → Slot P) {t : Finset P} {i : P} (hi : i ∈ t) : ∏ k ∈ t, (s k).has ram trampoline =
    (s i).has ram trampoline * ∏ k ∈ t.erase i, (s k).has ram trampoline :=
  (Finset.mul_prod_erase _ _ hi).symm

omit [Fintype P] in
theorem prod_update (s : P → Slot P) {t : Finset P} {i : P} (x : Slot P) (hi : i ∈ t) :
    ∏ k ∈ t, (update s i x k).has ram trampoline =
      x.has ram trampoline * ∏ k ∈ t.erase i, (s k).has ram trampoline := by
  rw [prod_slot _ hi,update_self]
  congr 1
  apply Finset.prod_congr rfl
  intro k hk
  rw [update_of_ne (Finset.ne_of_mem_erase hk)]

omit [DecidableEq P] in
theorem initial_inv {m : Machine} (hn : m.freelist.Nodup) (hm : ∀ x, x ∈ m.freelist ↔ ram.Has x) :
    Inv ram trampoline (⟨m,fun _ => .idle none⟩ : World P) where
  pages := by
    have hone : ∏ i : P, ((⟨m,fun _ => .idle none⟩ : World P).slot i).has ram trampoline = 1 :=
      Finset.prod_eq_one fun _ _ => rfl
    refine ⟨.empty,⟨fun _ _ hx => (by cases hx),hn,fun x hx => ⟨(hm x).mp hx,rfl⟩⟩,?_,fun x hx => .inr ((hm x).mpr hx)⟩
    rw [hone]
    exact one_iff.mpr rfl
  used := fun h => by cases h
  child := fun h => by cases h

theorem Inv.set (h : Inv ram trampoline w) {m : Machine} {i : P} {x : Slot P} (hi : w.slot i ≠ .used)
    (hx : ∀ j p c, x = .busy (some (j,p)) c → ∃ c', w.slot i = .busy (some (j,p)) c')
    (hpages : ∃ h, m.Agrees ram h ∧ (x.has ram trampoline * ∏ k ∈ Finset.univ.erase i, (w.slot k).has ram trampoline) h ∧
      ∀ x, ram.Has x → h x ≠ none ∨ x ∈ m.freelist) : Inv ram trampoline ⟨m,update w.slot i x⟩ := by
  have hback : ∀ {i' j p c}, update w.slot i x i' = .busy (some (j,p)) c → ∃ c', w.slot i' = .busy (some (j,p)) c' := by
    intro i' j p c hb
    rcases eq_or_ne i' i with rfl | hne
    · rw [update_self] at hb
      exact hx j p c hb
    · rw [update_of_ne hne] at hb
      exact ⟨c,hb⟩
  refine ⟨?_,fun {i' j p c} hb => ?_,fun hb hb' => ?_⟩
  · rw [prod_update w.slot x (Finset.mem_univ i)]
    exact hpages
  · obtain ⟨c',hc⟩ := hback hb
    have hj := h.used hc
    have hne : j ≠ i := by
      rintro rfl
      exact hi hj
    exact (update_of_ne hne ..).trans hj
  · obtain ⟨_,hc⟩ := hback hb
    obtain ⟨_,hc'⟩ := hback hb'
    exact h.child hc hc'

theorem Inv.set_le (h : Inv ram trampoline w) {i : P} {x : Slot P} (hi : w.slot i ≠ .used)
    (hx : ∀ j p c, x = .busy (some (j,p)) c → ∃ c', w.slot i = .busy (some (j,p)) c')
    (hle : (w.slot i).has ram trampoline ≤ x.has ram trampoline) :
    Inv ram trampoline { w with slot := update w.slot i x } := by
  obtain ⟨k,hm,hk,hall⟩ := h.pages
  rw [prod_slot w.slot (Finset.mem_univ i)] at hk
  exact h.set hi hx ⟨k,hm,mul_le_mul_left hle _ k hk,hall⟩

theorem Inv.op (h : Inv ram trampoline w) {i : P} {f : Option (P × Space)} {o : VmOp} {k : o.Res → VmCode (Option Space)}
    {r : o.Res} {m : Machine} (hi : w.slot i = .busy f (.op o k)) (he : exec ram o w.m = .ok (r,m)) :
    Inv ram trampoline ⟨m,update w.slot i (.busy f (k r))⟩ := by
  obtain ⟨_,hm,hh,hall⟩ := h.pages
  rw [prod_slot w.slot (Finset.mem_univ i),hi] at hh
  obtain ⟨a,b,ha,hb,hab,rfl⟩ := hh
  obtain ⟨r',m',a',he',ha',hab',hm',hall'⟩ := exec_must hm hab ha
  obtain ⟨rfl,rfl⟩ : r' = r ∧ m' = m := by simpa using he'.symm.trans he
  refine h.set (by simp [hi]) ?_ ⟨a'.join b,hm',⟨a',b,ha',hb,hab',rfl⟩,fun x hx => hall' x (hall x hx)⟩
  intro j p c hx
  cases hx
  exact ⟨_,hi⟩

theorem Inv.set_two (h : Inv ram trampoline w) {i j : P} {x y : Slot P} (hji : j ≠ i) (hi : w.slot i ≠ .used)
    (hy : ∀ f c, y ≠ .busy f c) (hx : ∀ j' p c, x = .busy (some (j',p)) c → j' = j ∧ y = .used)
    (hother : ∀ i' p c, i' ≠ i → w.slot i' ≠ .busy (some (j,p)) c)
    (hle : (w.slot i).has ram trampoline * (w.slot j).has ram trampoline ≤ x.has ram trampoline * y.has ram trampoline) :
    Inv ram trampoline { w with slot := update (update w.slot j y) i x } := by
  have hback : ∀ {i' f c}, update (update w.slot j y) i x i' = .busy f c →
    i' = i ∧ x = .busy f c ∨ i' ≠ i ∧ w.slot i' = .busy f c := by
    intro i' f c hb
    rcases eq_or_ne i' i with rfl | hne
    · rw [update_self] at hb
      exact .inl ⟨rfl,hb⟩
    rw [update_of_ne hne] at hb
    rcases eq_or_ne i' j with rfl | hne'
    · rw [update_self] at hb
      exact absurd hb (hy f c)
    · rw [update_of_ne hne'] at hb
      exact .inr ⟨hne,hb⟩
  refine ⟨?_,fun {i' j' p c} hb => ?_,fun {i₁ i₂ j' p₁ p₂ c₁ c₂} hb hb' => ?_⟩
  · obtain ⟨k,hm,hk,hall⟩ := h.pages
    refine ⟨k,hm,?_,hall⟩
    have hj : j ∈ Finset.univ.erase i := Finset.mem_erase.mpr ⟨hji,Finset.mem_univ j⟩
    rw [prod_slot w.slot (Finset.mem_univ i),prod_slot w.slot hj,← mul_assoc] at hk
    rw [prod_update _ _ (Finset.mem_univ i),prod_update _ _ hj,← mul_assoc]
    exact mul_le_mul_left hle _ k hk
  · show update (update w.slot j y) i x j' = .used
    rcases hback hb with ⟨-,hx'⟩ | ⟨hne,hold⟩
    · obtain ⟨rfl,rfl⟩ := hx j' p c hx'
      rw [update_of_ne hji,update_self]
    · have hu := h.used hold
      have hj'i : j' ≠ i := by
        rintro rfl
        exact hi hu
      have hj'j : j' ≠ j := by
        rintro rfl
        exact hother i' p c hne hold
      rw [update_of_ne hj'i,update_of_ne hj'j]
      exact hu
  · rcases hback hb with ⟨rfl,hx₁⟩ | ⟨hne₁,hold₁⟩ <;> rcases hback hb' with ⟨rfl,hx₂⟩ | ⟨hne₂,hold₂⟩
    · rfl
    · obtain ⟨rfl,-⟩ := hx _ _ _ hx₁
      exact absurd hold₂ (hother _ _ _ hne₂)
    · obtain ⟨rfl,-⟩ := hx _ _ _ hx₂
      exact absurd hold₁ (hother _ _ _ hne₁)
    · exact h.child hold₁ hold₂

theorem Inv.begin_fork (h : Inv ram trampoline w) {i j : P} {p : Space} (hi : w.slot i = .idle (some p))
    (hj : w.slot j = .idle none) : Inv ram trampoline { w with
      slot := update (update w.slot j .used) i (.busy (some (j,p)) (fork trampoline p)) } := by
  refine h.set_two ?_ (by simp [hi]) (fun _ _ => by simp) ?_ (fun i' p' c _ hb => ?_) ?_
  · rintro rfl
    rw [hi] at hj
    cases hj
  · intro j' p' c hx
    cases hx
    exact ⟨rfl,rfl⟩
  · cases hj.symm.trans (h.used hb)
  · rw [hi,hj]
    refine mul_le_mul_left (Prog.imp fork_le fun r => ?_) _
    exact mul_le_mul_right given_le _

theorem Inv.end_fork (h : Inv ram trampoline w) {i j : P} {p : Space} {np : Option Space}
    (hi : w.slot i = .busy (some (j,p)) (.ret np)) :
    Inv ram trampoline { w with slot := update (update w.slot j (.idle np)) i (.idle (some p)) } := by
  have hj := h.used hi
  refine h.set_two ?_ (by simp [hi]) (fun _ _ => by simp) (fun _ _ _ hx => by cases hx)
    (fun i' p' c hne hb => hne (h.child hb hi)) ?_
  · rintro rfl
    rw [hi] at hj
    cases hj
  · simp only [hi,hj,Slot.has,Prog.must_ret,mul_one]
    exact le_rfl

theorem Inv.step (hpages : ram.pages < trapPage) (h : Inv ram trampoline w) (hs : Step ram trampoline w w') :
    Inv ram trampoline w' := by
  cases hs with
  | call hi hc =>
    refine h.set_le (by simp [hi]) (fun _ _ _ hx => by cases hx) ?_
    rw [hi]
    refine Prog.imp (hc.le hpages) fun r => ?_
    exact (one_mul _).ge
  | fork hi hj => exact h.begin_fork hi hj
  | op hi he => exact h.op hi he
  | ret hi =>
    refine h.set_le (by simp [hi]) (fun _ _ _ hx => by cases hx) ?_
    rw [hi,Slot.has,Slot.has,Prog.must_ret]
    exact (one_mul _).le
  | forked hi => exact h.end_fork hi

theorem Reaches.inv (hpages : ram.pages < trapPage) (h : Reaches ram trampoline w) : Inv ram trampoline w := by
  induction h with
  | init hn hm => exact initial_inv hn hm
  | step _ hs ih => exact ih.step hpages hs

theorem Inv.parts (h : Inv ram trampoline w) : ∃ f : P → Heap ℕ Page, (∀ i, (w.slot i).has ram trampoline (f i)) ∧
    (∀ i j, i ≠ j → (f i).Apart (f j)) ∧ (∀ i, w.m.Agrees ram (f i)) ∧
    ∀ x, ram.Has x → (∃ i, f i x ≠ none) ∨ x ∈ w.m.freelist := by
  obtain ⟨k,hm,hk,hall⟩ := h.pages
  obtain ⟨f,hf,hapart,hx⟩ := (prod_iff _ _ _).mp hk
  refine ⟨f,fun i => hf i (Finset.mem_univ i),fun i j => hapart i (Finset.mem_univ i) j (Finset.mem_univ j),fun i => ?_,
    fun x hr => (hall x hr).imp_left fun hne => ?_⟩
  · have hsub : ∀ x q, f i x = some q → k x = some q := fun x q hq => (hx x q).mpr ⟨i,Finset.mem_univ i,hq⟩
    refine ⟨fun x q hq => hm.mem x q (hsub x q hq),hm.nodup,fun x hfree => ⟨(hm.free x hfree).1,?_⟩⟩
    by_contra hne
    obtain ⟨q,hq⟩ := Option.ne_none_iff_exists'.mp hne
    exact absurd ((hsub x q hq).symm.trans (hm.free x hfree).2) (Option.some_ne_none q)
  · obtain ⟨q,hq⟩ := Option.ne_none_iff_exists'.mp hne
    obtain ⟨i,-,hi⟩ := (hx x q).mp hq
    exact ⟨i,by simp [hi]⟩

/-- However the calls interleave, none of them stops the kernel, and the pages of memory are
divided between the free list and the processes. -/
theorem memory_partition (hpages : ram.pages < trapPage) (h : Reaches ram trampoline w) :
    (∀ i f o k, w.slot i = .busy f (.op o k) → ∃ r m, exec ram o w.m = .ok (r,m)) ∧
    (w.m.freelist.Nodup ∧ ∀ x ∈ w.m.freelist, ram.Has x) ∧
    (∀ i p, w.slot i = .idle (some p) → w.m.HasSpace ram trampoline p ∅ ∧ (w.m.spacePages p).Nodup ∧
      (∀ x ∈ w.m.spacePages p, ram.Has x ∧ x ∉ w.m.freelist) ∧
      ∀ j q, w.slot j = .idle (some q) → i ≠ j → (w.m.spacePages p).Disjoint (w.m.spacePages q)) ∧
    ((∀ i, ∃ p, w.slot i = .idle p) → ∀ x, ram.Has x →
      x ∈ w.m.freelist ∨ ∃ i p, w.slot i = .idle (some p) ∧ x ∈ w.m.spacePages p) := by
  have hi := h.inv hpages
  obtain ⟨f,hf,hapart,hm,hall⟩ := hi.parts
  have hspace : ∀ i p, w.slot i = .idle (some p) → space ram trampoline ∅ p (f i) := fun i p hs => by
    have := hf i
    rwa [hs] at this
  refine ⟨fun i g o k hs => ?_,?_,fun i p hs => ?_,fun hidle x hx => ?_⟩
  · have hmust := hf i
    rw [hs] at hmust
    have hag := hm i
    rw [← Heap.join_empty (f := f i)] at hag
    obtain ⟨r,m,-,he,-⟩ := exec_must hag Heap.apart_empty hmust
    exact ⟨r,m,he⟩
  · obtain ⟨k,hag,-⟩ := hi.pages
    exact ⟨hag.nodup,fun x hx => (hag.free x hx).1⟩
  · obtain ⟨hs₁,hn,hhas,hown⟩ := of_space (hm i) (hspace i p hs)
    refine ⟨hs₁,hn,fun x hx => ⟨hhas x hx,fun hfree => (hown x).mpr hx ((hm i).free x hfree).2⟩,fun j q hq hij x hx hx' => ?_⟩
    obtain ⟨-,-,-,hown'⟩ := of_space (hm j) (hspace j q hq)
    exact (hown' x).mpr hx' ((hapart i j hij).none_of_ne ((hown x).mpr hx))
  · rcases hall x hx with ⟨i,hne⟩ | hfree
    · obtain ⟨p,hs⟩ := hidle i
      cases p with
      | none =>
        have := hf i
        rw [hs] at this
        exact absurd (congrFun (one_iff.mp this) x) hne
      | some p =>
        obtain ⟨-,-,-,hown⟩ := of_space (hm i) (hspace i p hs)
        exact .inr ⟨i,p,hs,(hown x).mp hne⟩
    · exact .inl hfree

/-- What the others do leaves the memory of a process alone. -/
theorem memory_isolated (hpages : ram.pages < trapPage) (h : Reaches ram trampoline w) (hs : Step ram trampoline w w')
    {i : P} {p : Space} (hi : w.slot i = .idle (some p)) {x : ℕ} (hx : x ∈ w.m.spacePages p) : w'.m.mem x = w.m.mem x := by
  cases hs with
  | @op j f o k r m hj he =>
    obtain ⟨_,hm,hh,-⟩ := (h.inv hpages).pages
    have hij : i ∈ Finset.univ.erase j := by
      refine Finset.mem_erase.mpr ⟨?_,Finset.mem_univ i⟩
      rintro rfl
      rw [hi] at hj
      cases hj
    rw [prod_slot w.slot (Finset.mem_univ j),prod_slot w.slot hij,hi,hj] at hh
    obtain ⟨a,_,ha,⟨b,c,hb,-,-,rfl⟩,hab,rfl⟩ := hh
    obtain ⟨r',m',a',he',-,hab',hm',-⟩ := exec_must hm hab ha
    obtain ⟨rfl,rfl⟩ : r' = r ∧ m' = m := by simpa using he'.symm.trans he
    have hag := (hm.right hab).sub
    obtain ⟨-,-,-,hown⟩ := of_space hag hb
    obtain ⟨q,hq⟩ := Option.ne_none_iff_exists'.mp ((hown x).mpr hx)
    rw [hag.mem x q hq]
    exact (hm'.right hab').sub.mem x q hq
  | call | fork | ret | forked => rfl

end Invariant

section Runs
variable {P : Type} [DecidableEq P] {ram : Ram} {trampoline : ℕ}

theorem Reaches.run {w : World P} {i : P} {c : VmCode (Option Space)} {p : Option Space} {m : Machine}
    (h : Reaches ram trampoline w) (hi : w.slot i = .busy none c) (hr : c.run (exec ram) w.m = .ok (p,m)) :
    Reaches ram trampoline ⟨m,update w.slot i (.idle p)⟩ := by
  induction c generalizing w with
  | ret a =>
    cases hr
    exact h.step (.ret hi)
  | op o k ih =>
    cases he : exec ram o w.m with
    | error e =>
      simp only [Prog.run,he] at hr
      cases hr
    | ok r =>
      simp only [Prog.run,he] at hr
      have hend := ih r.1 (h.step (.op hi he)) (update_self ..) hr
      rwa [update_idem] at hend

theorem forkMachine_free (x : ℕ) : x ∈ forkMachine.freelist ↔ forkRam.Has x := by
  simp only [forkMachine,forkRam,Ram.Has,List.mem_map,List.mem_range,PGSIZE]
  constructor
  · rintro ⟨i,hi,rfl⟩
    omega
  · intro hx
    exact ⟨(x - 0x3000) / 4096,by omega,by omega⟩

theorem forkMachine_allocproc : ∃ p m, (allocproc 0x2000).run (exec forkRam) forkMachine = .ok (some p,m) := by
  obtain ⟨⟨_ | p,m⟩,hr,hsome⟩ := Prog.ok_of_toOption_map (e := (allocproc 0x2000).run (exec forkRam) forkMachine)
    (f := fun r => r.1.isSome) (q := true) (by decide +kernel)
  · cases hsome
  · exact ⟨p,m,hr⟩

theorem allocproc_reaches : ∃ (w : World (Fin 2)) (p : Space), Reaches forkRam 0x2000 w ∧ w.slot 0 = .idle (some p) ∧
    w.slot 1 = .idle none := by
  have hinit : Reaches forkRam 0x2000 (⟨forkMachine,fun _ => .idle none⟩ : World (Fin 2)) :=
    .init (by decide) forkMachine_free
  obtain ⟨p,m,hr⟩ := forkMachine_allocproc
  exact ⟨_,p,(hinit.step (.call (i := 0) rfl .allocproc)).run (update_self ..) hr,rfl,rfl⟩

theorem memory_partition_allocproc : ∃ (w : World (Fin 2)) (p : Space), w.slot 0 = .idle (some p) ∧
    (w.m.spacePages p).Nodup ∧ ∀ x, forkRam.Has x → x ∈ w.m.freelist ∨ x ∈ w.m.spacePages p := by
  obtain ⟨w,p,h,h₀,h₁⟩ := allocproc_reaches
  obtain ⟨-,-,hspace,hall⟩ := memory_partition (by decide) h
  refine ⟨w,p,h₀,(hspace 0 p h₀).2.1,fun x hx => (hall (fun i => ?_) x hx).imp_right ?_⟩
  · obtain rfl | rfl : i = 0 ∨ i = 1 := by omega
    · exact ⟨_,h₀⟩
    · exact ⟨_,h₁⟩
  · rintro ⟨i,q,hq,hx⟩
    obtain rfl | rfl : i = 0 ∨ i = 1 := by omega
    · cases h₀.symm.trans hq
      exact hx
    · cases h₁.symm.trans hq

/-- Another `allocproc` takes its first page. -/
theorem memory_isolated_kalloc : ∃ (w w' : World (Fin 2)) (p : Space), w.slot 0 = .idle (some p) ∧
    Step forkRam 0x2000 w w' ∧ w'.m.freelist = w.m.freelist.tail ∧ ∀ x ∈ w.m.spacePages p, w'.m.mem x = w.m.mem x := by
  obtain ⟨w,p,h,h₀,h₁⟩ := allocproc_reaches
  obtain ⟨k,hk⟩ : ∃ k, allocproc 0x2000 = .op .kalloc k := ⟨_,rfl⟩
  obtain ⟨v,hv,hv₀,hv₁⟩ : ∃ v : World (Fin 2), Reaches forkRam 0x2000 v ∧ v.slot 0 = .idle (some p) ∧
      v.slot 1 = .busy none (.op .kalloc k) := by
    refine ⟨_,h.step (.call h₁ .allocproc),h₀,?_⟩
    rw [hk]
    rfl
  obtain ⟨r,m,he,hm⟩ : ∃ r m, exec forkRam .kalloc v.m = .ok (r,m) ∧ m.freelist = v.m.freelist.tail := by
    cases hl : v.m.freelist with
    | nil => exact ⟨none,v.m,by simp only [exec,hl],hl⟩
    | cons pa l => exact ⟨some pa,{ v.m.set pa (fill 5) with freelist := l },by simp only [exec,hl],rfl⟩
  have hs : Step forkRam 0x2000 v _ := .op hv₁ he
  exact ⟨v,_,p,hv₀,hs,hm,fun x hx => memory_isolated (by decide) hv hs hv₀ hx⟩

end Runs

end Xv6.Vm.Procs
