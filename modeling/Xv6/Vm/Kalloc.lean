import Xv6.Vm.Machine
import Xv6.Vm.Process

/-! # `kalloc.c`

The free list is linked through the free pages themselves: `r->next` is the first word of the page `r`. The machine on
which page table code was run has a list of addresses instead; here that list is what the pointers spell, as long as
nobody writes to a page that is not theirs.
-/
namespace Xv6.Vm
open Library Library.Assert
open Function (update update_of_ne update_self)

/-- `kmem.freelist`, with 0 for the null pointer, and the memory it points into. -/
structure Kmem where
  mem : ℕ → Page
  freelist : ℕ

namespace Kmem

def set (k : Kmem) (pa : ℕ) (p : Page) : Kmem := { k with mem := update k.mem pa p }

def next (k : Kmem) (r : ℕ) : ℕ := ofLe ((k.mem r).slice 0 8)

def push (k : Kmem) (r : ℕ) : Kmem := { k.set r ((k.mem r).splice 0 (leBytes 8 k.freelist)) with freelist := r }

def pop (k : Kmem) : ℕ × Kmem :=
  if k.freelist ≠ 0 then (k.freelist,{ k with freelist := k.next k.freelist }) else (0,k)

/-- `ram.lo` is the address of `end`, `ram.hi` is `PHYSTOP`. -/
def kfree (ram : Ram) (pa : ℕ) (k : Kmem) : Except Stop Kmem :=
  if pa % PGSIZE ≠ 0 ∨ pa < ram.lo ∨ pa ≥ ram.hi then .error .kfree
  else .ok ((k.set pa (fill 1)).push pa)

def kalloc (k : Kmem) : ℕ × Kmem :=
  let (r,k) := k.pop
  if r ≠ 0 then (r,k.set r (fill 5)) else (r,k)

def freerangeFrom (ram : Ram) : ℕ → ℕ → Kmem → Except Stop Kmem
  | 0, _, k => .ok k
  | n + 1, p, k =>
    if p + PGSIZE ≤ ram.hi then
      match kfree ram p k with
      | .ok k => freerangeFrom ram n (p + PGSIZE) k
      | .error e => .error e
    else .ok k

/-- `freerange(end, PHYSTOP)`; every round advances by a page. -/
def kinit (ram : Ram) (k : Kmem) : Except Stop Kmem :=
  freerangeFrom ram (ram.hi / PGSIZE + 1) (PGROUNDUP ram.lo) { k with freelist := 0 }

def exec (ram : Ram) : Prog.Handler VmOp VmOp.Res Kmem Stop
  | .kalloc, k =>
    let (r,k) := k.kalloc
    .ok (if r = 0 then none else some r,k)
  | .kfree pa, k =>
    match k.kfree ram pa with
    | .ok k => .ok ((),k)
    | .error e => .error e
  | .peek pa off n, k => if off + n ≤ PGSIZE then .ok ((k.mem pa).slice off n,k) else .error .beyond
  | .poke pa off bs, k =>
    if off + bs.length ≤ PGSIZE then .ok ((),k.set pa ((k.mem pa).splice off bs)) else .error .beyond
  | .panic p, _ => .error (.panic p)

/-! ## The list that the pointers spell -/

/-- Following `next` from `p` goes through these pages and ends at the null pointer. -/
def Chain (k : Kmem) : ℕ → List ℕ → Prop
  | p, [] => p = 0
  | p, x :: xs => p = x ∧ x ≠ 0 ∧ x < 2 ^ 64 ∧ k.Chain (k.next x) xs

variable {k k' : Kmem} {xs : List ℕ} {p pa : ℕ}

theorem Chain.congr (h : k.Chain p xs) (hmem : ∀ x ∈ xs, k'.mem x = k.mem x) : k'.Chain p xs := by
  induction xs generalizing p with
  | nil => exact h
  | cons x xs ih =>
    obtain ⟨hp,hne,hlt,hrest⟩ := h
    have hnext : k'.next x = k.next x := by
      unfold next
      rw [hmem x List.mem_cons_self]
    refine ⟨hp,hne,hlt,?_⟩
    rw [hnext]
    exact ih hrest fun y hy => hmem y (List.mem_cons_of_mem x hy)

theorem Chain.set (h : k.Chain p xs) (hpa : pa ∉ xs) (q : Page) : (k.set pa q).Chain p xs := by
  refine h.congr fun x hx => ?_
  have hne : x ≠ pa := by
    rintro rfl
    exact hpa hx
  exact update_of_ne hne _ _

theorem Chain.lt (h : k.Chain p xs) : p < 2 ^ 64 := by
  cases xs with
  | nil =>
    have hp : p = 0 := h
    omega
  | cons x xs =>
    obtain ⟨hp,-,hlt,-⟩ := h
    omega

theorem Chain.push (h : k.Chain k.freelist xs) (hpa : pa ∉ xs) (hne : pa ≠ 0) (hlt : pa < 2 ^ 64) :
    (k.push pa).Chain pa (pa :: xs) := by
  have hnext : (k.push pa).next pa = k.freelist := by
    have hslice : (((k.mem pa).splice 0 (leBytes 8 k.freelist)).slice 0 8) = leBytes 8 k.freelist := by
      have hlen : (leBytes 8 k.freelist).length = 8 := leBytes_length 8 _
      have hroom : 0 + (leBytes 8 k.freelist).length ≤ 4096 := by omega
      have hsame := (k.mem pa).slice_splice_same hroom
      rwa [hlen] at hsame
    simp only [Kmem.next,Kmem.push,Kmem.set,update_self,hslice]
    apply ofLe_leBytes_of_lt
    have := h.lt
    omega
  refine ⟨rfl,hne,hlt,?_⟩
  rw [hnext]
  exact (h.set hpa _).congr fun _ _ => rfl

/-! ## Programs -/

/-- The machine's list is what the pointers spell, and its pages that are not free are the same. -/
structure Rep (k : Kmem) (m : Machine) : Prop where
  chain : k.Chain k.freelist m.freelist
  mem : ∀ x, x ∉ m.freelist → k.mem x = m.mem x

section Programs
variable {ram : Ram} {X : VmPanic → Prop} {m m' : Machine} {h : Heap ℕ Page}

theorem Rep.kalloc_nil (hrep : k.Rep m) (hl : m.freelist = []) : k.kalloc = (0,k) := by
  have hzero : k.freelist = 0 := by
    have hchain := hrep.chain
    rw [hl] at hchain
    exact hchain
  simp [kalloc,pop,hzero]

theorem Rep.kalloc_cons (hrep : k.Rep m) {l : List ℕ} (hl : m.freelist = pa :: l) (hnodup : m.freelist.Nodup) :
    ∃ k', k.kalloc = (pa,k') ∧ pa ≠ 0 ∧ k'.Rep { m.set pa (fill 5) with freelist := l } := by
  obtain ⟨hchain,hmem⟩ := hrep
  rw [hl] at hchain hnodup
  obtain ⟨hhead,hne,hlt,hrest⟩ := hchain
  have hnot : pa ∉ l := (List.nodup_cons.mp hnodup).1
  refine ⟨{ k.set pa (fill 5) with freelist := k.next pa },?_,hne,?_,fun x hx => ?_⟩
  · simp [kalloc,pop,hhead,hne,Kmem.set]
  · exact (hrest.set hnot (fill 5)).congr fun _ _ => rfl
  · by_cases hxp : x = pa
    · simp [Kmem.set,Machine.set,hxp]
    · simp only [Kmem.set,Machine.set,update_of_ne hxp]
      apply hmem
      rw [hl]
      simp only [List.mem_cons,not_or]
      exact ⟨hxp,hx⟩

theorem Rep.set (hrep : k.Rep m) (hpa : pa ∉ m.freelist) (q : Page) : (k.set pa q).Rep (m.set pa q) := by
  refine ⟨hrep.chain.set hpa q,fun x hx => ?_⟩
  by_cases hxp : x = pa
  · simp [Kmem.set,Machine.set,hxp]
  · simp only [Kmem.set,Machine.set,update_of_ne hxp]
    exact hrep.mem x hx

theorem Rep.push (hrep : k.Rep m) (hpa : pa ∉ m.freelist) (hram : ram.Has pa) :
    (k.push pa).Rep { m with freelist := pa :: m.freelist } := by
  have hpos := ram.pos
  have htop := ram.top
  obtain ⟨-,hlo,hhi⟩ := hram
  refine ⟨hrep.chain.push hpa (by omega) (by omega),fun x hx => ?_⟩
  simp only [List.mem_cons,not_or] at hx
  simp only [Kmem.push,Kmem.set,update_of_ne hx.1]
  exact hrep.mem x hx.2

theorem Rep.exec (hrep : k.Rep m) (hm : m.Agrees ram h) {o : VmOp} (hsafe : (vmLocal ram X).safe o h) :
    (∃ r m' k', Machine.exec ram o m = .ok (r,m') ∧ exec ram o k = .ok (r,k') ∧ k'.Rep m') ∨
      ∃ q, Machine.exec ram o m = .error (.panic q) ∧ exec ram o k = .error (.panic q) ∧ X q := by
  have hfree : ∀ x, h x ≠ none → x ∉ m.freelist := fun x hx hmem => hx (hm.free x hmem).2
  cases o with
  | kalloc =>
    refine .inl ?_
    cases hl : m.freelist with
    | nil =>
      refine ⟨none,m,k,?_,?_,hrep⟩
      · simp only [Machine.exec,hl]
      · simp only [Kmem.exec,hrep.kalloc_nil hl,if_pos]
    | cons pa l =>
      obtain ⟨k',hk,hne,hrep'⟩ := hrep.kalloc_cons hl hm.nodup
      refine ⟨some pa,_,k',?_,?_,hrep'⟩
      · simp only [Machine.exec,hl]
      · simp only [Kmem.exec,hk,if_neg hne]
  | kfree pa =>
    obtain ⟨hram,hpa⟩ := hsafe
    have hok : ¬(pa % PGSIZE ≠ 0 ∨ pa < ram.lo ∨ pa ≥ ram.hi) := by
      obtain ⟨halign,hlo,hhi⟩ := hram
      omega
    refine .inl ⟨(),_,_,?_,?_,(hrep.set (hfree pa hpa) (fill 1)).push (hfree pa hpa) hram⟩
    · simp only [Machine.exec,if_neg hok]
      rfl
    · simp only [Kmem.exec,kfree,if_neg hok]
  | peek pa off n =>
    refine .inl ⟨(m.mem pa).slice off n,m,k,?_,?_,hrep⟩
    · simp only [Machine.exec,if_pos hsafe.2]
    · simp only [Kmem.exec,if_pos hsafe.2,hrep.mem pa (hfree pa hsafe.1)]
  | poke pa off bs =>
    refine .inl ⟨(),_,_,?_,?_,hrep.set (hfree pa hsafe.1) ((m.mem pa).splice off bs)⟩
    · simp only [Machine.exec,if_pos hsafe.2]
    · simp only [Kmem.exec,if_pos hsafe.2,hrep.mem pa (hfree pa hsafe.1)]
  | panic q => exact .inr ⟨q,rfl,rfl,hsafe⟩

/-- A program that stays within its pages runs on the linked free list as it runs on the machine. -/
theorem run_linked {α : Type} {c : VmCode α} {Q : α → Assert ℕ Page} (hrep : k.Rep m) (hm : m.Agrees ram h)
    (hc : c.must (vmLocal ram X) Q h) :
    (∃ a m' k', c.run (Machine.exec ram) m = .ok (a,m') ∧ c.run (exec ram) k = .ok (a,k') ∧ k'.Rep m') ∨
      ∃ q, c.run (Machine.exec ram) m = .error (.panic q) ∧ c.run (exec ram) k = .error (.panic q) ∧ X q := by
  induction c generalizing k m h with
  | ret a => exact .inl ⟨a,m,k,rfl,rfl,hrep⟩
  | op o c ih =>
    obtain ⟨hsafe,hnext⟩ := Prog.must_op_iff.mp hc
    have hself : Machine.Kept m h m h := ⟨fun x h₁ h₂ => ⟨h₁,h₂⟩,fun _ _ _ => rfl⟩
    rcases hrep.exec hm hsafe with ⟨r,m₁,k₁,hmach,hkmem,hrep₁⟩ | ⟨q,hmach,hkmem,hX⟩
    · rcases Machine.exec_sim o ⟨hm,hself⟩ hsafe with ⟨r',m₂,h₂,hrun,hstep,hagree,-⟩ | ⟨e,herr,-⟩
      · rw [hmach] at hrun
        cases hrun
        rw [Prog.run,hmach,Prog.run,hkmem]
        exact ih r hrep₁ hagree (hnext r h₂ hstep)
      · rw [hmach] at herr
        cases herr
    · refine .inr ⟨q,?_,?_,hX⟩
      · rw [Prog.run,hmach]
      · rw [Prog.run,hkmem]

end Programs

/-! ## Any number of owners -/

structure World (P : Type) where
  kmem : Kmem
  own : P → ℕ → Prop
  panic : Bool

/-- The sections under `kmem.lock`, and stores to one's own pages: those of `memset` and all others. -/
inductive Step {P : Type} (ram : Ram) : World P → P → World P → Prop
  | store {w : World P} {p : P} {pa : ℕ} (q : Page) : w.own p pa → Step ram w p { w with kmem := w.kmem.set pa q }
  | kalloc {w : World P} {p : P} {r : ℕ} {k : Kmem} : w.kmem.pop = (r,k) → r ≠ 0 →
      Step ram w p { w with kmem := k, own := fun d pa => d = p ∧ pa = r ∨ w.own d pa }
  -- the test comes before the section
  | kfree {w : World P} {p : P} {r : ℕ} : w.own p r → ¬(r % PGSIZE ≠ 0 ∨ r < ram.lo ∨ r ≥ ram.hi) →
      Step ram w p { w with kmem := w.kmem.push r, own := fun d pa => ¬(d = p ∧ pa = r) ∧ w.own d pa }
  | kfreePanic {w : World P} {p : P} {r : ℕ} : w.own p r → r % PGSIZE ≠ 0 ∨ r < ram.lo ∨ r ≥ ram.hi →
      Step ram w p { w with panic := true }

structure Initial {P : Type} (ram : Ram) (w : World P) : Prop where
  kmem : ∃ k, kinit ram k = .ok w.kmem
  own : ∀ p pa, ¬w.own p pa
  panic : w.panic = false

inductive Reaches {P : Type} (ram : Ram) : World P → Prop
  | init {w : World P} : Initial ram w → Reaches ram w
  | step {w w' : World P} {p : P} : Reaches ram w → Step ram w p w' → Reaches ram w'

structure Shared {P : Type} (ram : Ram) (w : World P) (xs : List ℕ) : Prop where
  chain : w.kmem.Chain w.kmem.freelist xs
  nodup : xs.Nodup
  all : ∀ pa, ram.Has pa ↔ pa ∈ xs ∨ ∃ p, w.own p pa
  apart : ∀ pa ∈ xs, ∀ p, ¬w.own p pa
  one : ∀ p q pa, w.own p pa → w.own q pa → p = q
  panic : w.panic = false

section Owners
variable {ram : Ram}

theorem freerangeFrom_chain (hhi : ram.hi % PGSIZE = 0) (n : ℕ) (h : k.Chain k.freelist xs) (hnodup : xs.Nodup)
    (hxs : ∀ pa, pa ∈ xs ↔ ram.Has pa ∧ pa < p) (hp : p % PGSIZE = 0) (hlo : ram.lo ≤ p) (hn : ram.hi < p + n * PGSIZE) :
    ∃ k' ys, freerangeFrom ram n p k = .ok k' ∧ k'.Chain k'.freelist ys ∧ ys.Nodup ∧ ∀ pa, pa ∈ ys ↔ ram.Has pa := by
  induction n generalizing p k xs with
  | zero =>
    refine ⟨k,xs,rfl,h,hnodup,fun pa => (hxs pa).trans ⟨fun h => h.1,fun h => ⟨h,?_⟩⟩⟩
    have := h.2.2
    omega
  | succ n ih =>
    rw [freerangeFrom]
    by_cases hroom : p + PGSIZE ≤ ram.hi
    · have hpos := ram.pos
      have htop := ram.top
      simp only [PGSIZE] at hroom hn hp
      have hok : ¬(p % PGSIZE ≠ 0 ∨ p < ram.lo ∨ p ≥ ram.hi) := by
        simp only [PGSIZE]
        omega
      have hnot : p ∉ xs := fun hmem => absurd ((hxs p).mp hmem).2 (Nat.lt_irrefl p)
      have hpush := (h.set hnot (fill 1)).push hnot (by omega) (by omega)
      rw [if_pos hroom,kfree,if_neg hok]
      apply ih hpush (List.nodup_cons.mpr ⟨hnot,hnodup⟩)
      · intro pa
        rw [List.mem_cons,hxs pa]
        simp only [Ram.Has,PGSIZE]
        omega
      · simp only [PGSIZE]
        omega
      · omega
      · simp only [PGSIZE]
        omega
    · rw [if_neg hroom]
      refine ⟨k,xs,rfl,h,hnodup,fun pa => (hxs pa).trans ⟨fun h => h.1,fun h => ⟨h,?_⟩⟩⟩
      have := h.2.2
      simp only [PGSIZE] at hroom hp hhi
      omega

theorem kinit_chain (hlo : ram.lo ≤ ram.hi) (hhi : ram.hi % PGSIZE = 0) (k : Kmem) :
    ∃ k' ys, kinit ram k = .ok k' ∧ k'.Chain k'.freelist ys ∧ ys.Nodup ∧ ∀ pa, pa ∈ ys ↔ ram.Has pa := by
  have htop := ram.top
  have hup : PGROUNDUP ram.lo % PGSIZE = 0 ∧ ram.lo ≤ PGROUNDUP ram.lo ∧ PGROUNDUP ram.lo < ram.lo + PGSIZE := by
    simp only [PGROUNDUP,PGSIZE]
    omega
  obtain ⟨halign,hge,hlt⟩ := hup
  have hnone : ∀ pa, pa ∈ ([] : List ℕ) ↔ ram.Has pa ∧ pa < PGROUNDUP ram.lo := by
    intro pa
    simp only [List.not_mem_nil,Ram.Has,false_iff]
    rintro ⟨⟨hpa,hpalo,-⟩,hpalt⟩
    simp only [PGSIZE] at hpa halign hlt
    omega
  have hempty : ({ k with freelist := 0 } : Kmem).Chain 0 [] := rfl
  refine freerangeFrom_chain hhi _ hempty List.nodup_nil hnone halign hge ?_
  simp only [PGSIZE]
  omega

variable {P : Type} {w w' : World P}

theorem Shared.init (h : Initial ram w) (hlo : ram.lo ≤ ram.hi) (hhi : ram.hi % PGSIZE = 0) : ∃ xs, Shared ram w xs := by
  obtain ⟨k,hk⟩ := h.kmem
  obtain ⟨k',xs,hk',hchain,hnodup,hxs⟩ := kinit_chain hlo hhi k
  rw [hk] at hk'
  cases hk'
  refine ⟨xs,hchain,hnodup,fun pa => ⟨fun hpa => .inl ((hxs pa).mpr hpa),?_⟩,fun pa _ p => h.own p pa,
    fun p q pa hp => absurd hp (h.own p pa),h.panic⟩
  rintro (hpa | ⟨p,hp⟩)
  · exact (hxs pa).mp hpa
  · exact absurd hp (h.own p pa)

variable {p q : P}

theorem Shared.kalloc (h : Shared ram w xs) {r : ℕ} (hpop : w.kmem.pop = (r,k)) (hne : r ≠ 0) :
    ∃ ys, xs = r :: ys ∧ Shared ram { w with kmem := k, own := fun d pa => d = p ∧ pa = r ∨ w.own d pa } ys := by
  obtain ⟨hchain,hnodup,hall,hapart,hone,hpanic⟩ := h
  unfold pop at hpop
  split at hpop
  · rename_i hhead
    cases hpop
    cases xs with
    | nil => exact absurd hchain hhead
    | cons r ys =>
      obtain ⟨hr,-,-,hrest⟩ := hchain
      obtain ⟨hnot,hys⟩ := List.nodup_cons.mp hnodup
      have hfree : ∀ d, ¬w.own d r := hapart r List.mem_cons_self
      refine ⟨ys,by rw [hr],?_,hys,fun pa => ?_,fun pa hpa d hd => ?_,fun d e pa hd he => ?_,hpanic⟩
      · rw [hr]
        exact hrest.congr fun _ _ => rfl
      · rw [hall pa,List.mem_cons,hr]
        constructor
        · rintro ((rfl | hpa) | ⟨d,hd⟩)
          · exact .inr ⟨p,.inl ⟨rfl,rfl⟩⟩
          · exact .inl hpa
          · exact .inr ⟨d,.inr hd⟩
        · rintro (hpa | ⟨d,⟨-,rfl⟩ | hd⟩)
          · exact .inl (.inr hpa)
          · exact .inl (.inl rfl)
          · exact .inr ⟨d,hd⟩
      · rcases hd with ⟨-,rfl⟩ | hd
        · exact hnot (hr ▸ hpa)
        · exact hapart pa (List.mem_cons_of_mem _ hpa) d hd
      · rw [hr] at hd he
        rcases hd with ⟨rfl,rfl⟩ | hd <;> rcases he with ⟨rfl,he⟩ | he
        · rfl
        · exact absurd he (hfree e)
        · exact absurd (he ▸ hd) (hfree d)
        · exact hone d e pa hd he
  · cases hpop
    exact absurd rfl hne

theorem Shared.kfree (h : Shared ram w xs) {r : ℕ} (hr : w.own p r) :
    Shared ram { w with kmem := w.kmem.push r, own := fun d pa => ¬(d = p ∧ pa = r) ∧ w.own d pa } (r :: xs) := by
  obtain ⟨hchain,hnodup,hall,hapart,hone,hpanic⟩ := h
  have hnot : r ∉ xs := fun hmem => hapart r hmem p hr
  have hpos := ram.pos
  have htop := ram.top
  obtain ⟨-,hlo,hhi⟩ := (hall r).mpr (.inr ⟨p,hr⟩)
  refine ⟨hchain.push hnot (by omega) (by omega),List.nodup_cons.mpr ⟨hnot,hnodup⟩,fun x => ?_,fun x hx d hd => ?_,
    fun d e x hd he => hone d e x hd.2 he.2,hpanic⟩
  · rw [hall x,List.mem_cons]
    constructor
    · rintro (hx | ⟨d,hd⟩)
      · exact .inl (.inr hx)
      · by_cases hxr : x = r
        · exact .inl (.inl hxr)
        · exact .inr ⟨d,fun h => hxr h.2,hd⟩
    · rintro ((rfl | hx) | ⟨d,-,hd⟩)
      · exact .inr ⟨p,hr⟩
      · exact .inl hx
      · exact .inr ⟨d,hd⟩
  · obtain ⟨hne,hd⟩ := hd
    rcases List.mem_cons.mp hx with rfl | hx
    · exact hne ⟨hone d p x hd hr,rfl⟩
    · exact hapart x hx d hd

theorem Shared.step (h : Shared ram w xs) (hs : Step ram w p w') : ∃ ys, Shared ram w' ys := by
  cases hs with
  | @store pa q hpa =>
    have hnot : pa ∉ xs := fun hmem => h.apart pa hmem p hpa
    exact ⟨xs,h.chain.set hnot q,h.nodup,h.all,h.apart,h.one,h.panic⟩
  | kalloc hpop hne =>
    obtain ⟨ys,-,hys⟩ := h.kalloc (p := p) hpop hne
    exact ⟨ys,hys⟩
  | kfree hr => exact ⟨_,h.kfree hr⟩
  | @kfreePanic r hr hbad =>
    obtain ⟨halign,hlo,hhi⟩ := (h.all r).mpr (.inr ⟨p,hr⟩)
    omega

theorem Reaches.shared (h : Reaches ram w) (hlo : ram.lo ≤ ram.hi) (hhi : ram.hi % PGSIZE = 0) : ∃ xs, Shared ram w xs := by
  induction h with
  | init h => exact Shared.init h hlo hhi
  | step _ hs ih =>
    obtain ⟨xs,hxs⟩ := ih
    exact hxs.step hs

theorem Shared.others (h : Shared ram w xs) (hs : Step ram w p w') (hqp : q ≠ p) {pa : ℕ} (hpa : w.own q pa) :
    w'.own q pa ∧ w'.kmem.mem pa = w.kmem.mem pa := by
  have hne : ∀ x, w.own p x → pa ≠ x := by
    rintro x hx rfl
    exact hqp (h.one q p pa hpa hx)
  cases hs with
  | store _ hx => exact ⟨hpa,update_of_ne (hne _ hx) _ _⟩
  | kalloc hpop =>
    refine ⟨.inr hpa,?_⟩
    unfold pop at hpop
    split at hpop <;> cases hpop <;> rfl
  | kfree hx => exact ⟨⟨fun h => hqp h.1,hpa⟩,update_of_ne (hne _ hx) _ _⟩
  | kfreePanic => exact ⟨hpa,rfl⟩

/-- Whatever owners do with their pages: the list stays a list of pages that nobody has, every other page of memory has
one owner, `kalloc` returns 0 only when they all have one, `kfree` does not panic, and no owner disturbs another. -/
theorem kalloc_exclusive (hlo : ram.lo ≤ ram.hi) (hhi : ram.hi % PGSIZE = 0) (h : Reaches ram w) :
    (∃ xs, w.kmem.Chain w.kmem.freelist xs ∧ xs.Nodup ∧ (∀ pa, ram.Has pa ↔ pa ∈ xs ∨ ∃ p, w.own p pa) ∧
      ∀ pa ∈ xs, ∀ p, ¬w.own p pa) ∧
    (∀ p q pa, w.own p pa → w.own q pa → p = q) ∧
    ((w.kmem.kalloc).1 = 0 ↔ ∀ pa, ram.Has pa → ∃ p, w.own p pa) ∧ w.panic = false ∧
    ∀ p w', Step ram w p w' → ∀ q pa, q ≠ p → w.own q pa → w'.own q pa ∧ w'.kmem.mem pa = w.kmem.mem pa := by
  obtain ⟨xs,hxs⟩ := h.shared hlo hhi
  refine ⟨⟨xs,hxs.chain,hxs.nodup,hxs.all,hxs.apart⟩,hxs.one,?_,hxs.panic,fun p w' hs q pa hqp hpa => hxs.others hs hqp hpa⟩
  have hchain := hxs.chain
  cases xs with
  | nil =>
    have hzero : w.kmem.freelist = 0 := hchain
    refine iff_of_true (by simp [Kmem.kalloc,pop,hzero]) fun pa hpa => ?_
    simpa using (hxs.all pa).mp hpa
  | cons r ys =>
    obtain ⟨hr,hne,-,-⟩ := hchain
    refine iff_of_false (by simp [Kmem.kalloc,pop,hr,hne]) fun hall => ?_
    obtain ⟨p,hp⟩ := hall r ((hxs.all r).mpr (.inl List.mem_cons_self))
    exact hxs.apart r List.mem_cons_self p hp

end Owners

/-- The memory of the machine, with a kernel that ends at `0x80022000`. -/
def physRam : Ram := ⟨0x80022000,0x88000000,by decide,by decide⟩

/-- One CPU has allocated a page and written to it. -/
theorem kalloc_exclusive_written :
    ∃ w : World Bool, Reaches physRam w ∧ (∃ pa, w.own true pa ∧ w.kmem.mem pa = fill 7) ∧
      ∀ p q pa, w.own p pa → w.own q pa → p = q := by
  have hlo : physRam.lo ≤ physRam.hi := by decide
  have hhi : physRam.hi % PGSIZE = 0 := by decide
  obtain ⟨k,ys,hk,hchain,-,hys⟩ := kinit_chain hlo hhi ⟨fun _ => fill 0,0⟩
  have hinit : Reaches physRam (⟨k,fun _ _ => False,false⟩ : World Bool) := .init ⟨⟨_,hk⟩,fun _ _ h => h,rfl⟩
  have hmem : (0x80022000 : ℕ) ∈ ys := (hys _).mpr ⟨by decide,by decide,by decide⟩
  cases ys with
  | nil => exact absurd hmem List.not_mem_nil
  | cons r ys =>
    obtain ⟨hr,hne,-,-⟩ := hchain
    have hpop : k.pop = (r,{ k with freelist := k.next r }) := by
      rw [pop,hr,if_pos hne]
    have halloc := hinit.step (.kalloc (p := true) hpop hne)
    have hstored := halloc.step (.store (fill 7) (.inl ⟨rfl,rfl⟩))
    refine ⟨_,hstored,⟨r,.inl ⟨rfl,rfl⟩,?_⟩,(kalloc_exclusive hlo hhi hstored).2.1⟩
    exact update_self ..

/-- `allocproc` on the memory that `kinit` leaves. -/
theorem run_linked_allocproc :
    ∃ (k : Kmem) (m : Machine), k.Rep m ∧ (∀ pa, pa ∈ m.freelist ↔ physRam.Has pa) ∧
      ∃ a m' k', (allocproc 0x80007000).run (Machine.exec physRam) m = .ok (a,m') ∧
        (allocproc 0x80007000).run (exec physRam) k = .ok (a,k') ∧ k'.Rep m' := by
  obtain ⟨k,ys,-,hchain,hnodup,hys⟩ := kinit_chain (by decide : physRam.lo ≤ physRam.hi) (by decide) ⟨fun _ => fill 0,0⟩
  have hrep : k.Rep ⟨k.mem,ys⟩ := ⟨hchain,fun _ _ => rfl⟩
  have hagree : Machine.Agrees physRam ⟨k.mem,ys⟩ .empty :=
    ⟨fun _ _ hx => (by cases hx),hnodup,fun x hx => ⟨(hys x).mp hx,rfl⟩⟩
  have hmust : (allocproc 0x80007000).must (vmLocal physRam fun _ => False) _ .empty := allocproc_le .empty rfl
  rcases run_linked hrep hagree hmust with ⟨a,m',k',hm,hk,hrep'⟩ | ⟨q,-,-,hX⟩
  · exact ⟨k,_,hrep,hys,a,m',k',hm,hk,hrep'⟩
  · exact hX.elim

end Kmem

end Xv6.Vm
