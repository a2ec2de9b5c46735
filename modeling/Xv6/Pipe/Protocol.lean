import Xv6.Pipe.Code
import Xv6.Library.Fifo

/-! # Pipes under any interleaving

Any number of processes read, write and close one pipe while others kill them. `sleep` takes
`p->lock` before it releases `pi->lock`, and keeps it until the process is asleep; `wakeup` and
`kill` take `p->lock` of the process they look at. A recorded history holds every byte stored
and every byte taken.
-/
namespace Xv6.PipeProtocol
open Library
open Function (update update_eq_self update_of_ne update_self)

inductive Pos
  | idle
  /-- before `acquire(&pi->lock)` -/
  | entry (k : Point)
  | locked (k : Point)
  /-- in `wakeup(c)`, about to look at process `j` -/
  | wakeup (c : Chan) (j : ℕ) (k : Point)
  /-- in `sleep(c, &pi->lock)`, with both locks -/
  | presleep (c : Chan) (k : Point)
  /-- in `sleep(c, &pi->lock)`, with `p->lock` only -/
  | released (c : Chan) (k : Point)
  /-- in `sched()`, asleep or made runnable again -/
  | sleeping (c : Chan) (k : Point)

structure World (N : ℕ) where
  pipe : Pipe
  /-- the holder of `pi->lock` -/
  lock : Option (Fin N)
  freed : Bool
  pos : Fin N → Pos
  /-- `p->chan` of a process that is SLEEPING -/
  asleep : Fin N → Option Chan
  killed : Fin N → Bool
  mem : Fin N → UserMem
  stored : List Byte
  taken : List Byte

inductive Act (N : ℕ)
  | call (p : Fin N) (c : Call)
  | acquire (p : Fin N)
  | exec (p : Fin N)
  | ret (p : Fin N) (c : Call) (r : ℤ)
  | wakeup (p : Fin N)
  | sleep (p : Fin N)
  | kill (q : Fin N)
  /-- anything a process does outside the pipe functions -/
  | user (p : Fin N)

/-- `p->lock` is held across a step of its process only inside `sleep`. -/
def Pos.Unlocked : Pos → Prop
  | .presleep _ _ | .released _ _ => False
  | _ => True

def Next.pos : Next → Pos
  | .goto k => .locked k
  | .wakeup c k => .wakeup c 0 k
  | .sleep c k => .presleep c k
  | .done | .free => .idle

def Next.isFree : Next → Bool
  | .free => true
  | _ => false

def Next.lock {P : Type} (p : P) : Next → Option P
  | .done | .free => none
  | _ => some p

section Machine
variable {N : ℕ}

/-- What `wakeup(c)` does to process `q` on behalf of `p`. -/
def World.wake (w : World N) (p q : Fin N) (c : Chan) : World N :=
  { w with asleep := if q ≠ p ∧ w.asleep q = some c then update w.asleep q none else w.asleep }

inductive Step : World N → Act N → World N → Prop
  | call {w : World N} {p : Fin N} (c : Call) : w.pos p = .idle →
      Step w (.call p c) { w with pos := update w.pos p (.entry c.start) }
  | acquire {w : World N} {p : Fin N} {k : Point} : w.pos p = .entry k → w.lock = none → w.freed = false →
      Step w (.acquire p) { w with lock := some p, pos := update w.pos p (.locked k) }
  | exec {w : World N} {p : Fin N} {k : Point} {o : Outcome} : w.pos p = .locked k →
      k.exec w.pipe (w.killed p) (w.mem p) = o → o.next ≠ .done →
      Step w (.exec p) { w with
        pipe := o.pipe
        lock := o.next.lock p
        freed := o.next.isFree
        pos := update w.pos p o.next.pos
        mem := update w.mem p o.mem
        stored := w.stored ++ o.stored
        taken := w.taken ++ o.taken }
  | ret {w : World N} {p : Fin N} {c : Call} {r : ℤ} : w.pos p = .locked (.ret c r) →
      Step w (.ret p c r) { w with lock := none, pos := update w.pos p .idle }
  | wakeup {w : World N} {p q : Fin N} {c : Chan} {k : Point} : w.pos p = .wakeup c q k → (w.pos q).Unlocked →
      Step w (.wakeup p) { w.wake p q c with pos := update w.pos p (.wakeup c (q + 1) k) }
  | wakeupDone {w : World N} {p : Fin N} {c : Chan} {k : Point} : w.pos p = .wakeup c N k →
      Step w (.wakeup p) { w with pos := update w.pos p (.locked k) }
  | sleepRelease {w : World N} {p : Fin N} {c : Chan} {k : Point} : w.pos p = .presleep c k →
      Step w (.sleep p) { w with lock := none, pos := update w.pos p (.released c k) }
  | sleep {w : World N} {p : Fin N} {c : Chan} {k : Point} : w.pos p = .released c k →
      Step w (.sleep p) { w with
        asleep := update w.asleep p (some c)
        pos := update w.pos p (.sleeping c k) }
  | resume {w : World N} {p : Fin N} {c : Chan} {k : Point} : w.pos p = .sleeping c k → w.asleep p = none →
      Step w (.sleep p) { w with pos := update w.pos p (.entry k) }
  | kill {w : World N} {q : Fin N} : (w.pos q).Unlocked →
      Step w (.kill q) { w with
        asleep := update w.asleep q none
        killed := update w.killed q true }
  -- a process computes, or exits and leaves its slot to another one
  | user {w : World N} {p : Fin N} (u : UserMem) (b : Bool) : w.pos p = .idle →
      Step w (.user p) { w with mem := update w.mem p u, killed := update w.killed p b }

structure Initial (w : World N) : Prop where
  nread : w.pipe.nread = 0
  nwrite : w.pipe.nwrite = 0
  readopen : w.pipe.readopen = true
  writeopen : w.pipe.writeopen = true
  lock : w.lock = none
  freed : w.freed = false
  pos : ∀ p, w.pos p = .idle
  asleep : ∀ p, w.asleep p = none
  stored : w.stored = []
  taken : w.taken = []

/-- The worlds reached from an initial one by steps that all satisfy `A`. -/
inductive Reaches (A : World N → Act N → Prop) : World N → Prop
  | init {w : World N} : Initial w → Reaches A w
  | step {w w' : World N} {a : Act N} : Reaches A w → A w a → Step w a w' → Reaches A w'

end Machine

/-! ## What each point does -/

section Points
variable {k : Point} {pi : Pipe} {b : Bool} {u : UserMem} {stored taken : List Byte}

/-- What a process that sleeps on the channel waits for has not happened. -/
def Chan.Waits (pi : Pipe) : Chan → Prop
  | .nread => pi.nread = pi.nwrite ∧ pi.writeopen = true
  | .nwrite => pi.Full ∧ pi.readopen = true

def Drained (pi : Pipe) (u : UserMem) (addr : ℕ) (n : ℤ) : Prop :=
  0 < n → UserMem.Accessible u.writable addr n.toNat → pi.nread = pi.nwrite ∧ pi.writeopen = false

def Point.Know (pi : Pipe) (u : UserMem) : Point → Prop
  | .writeLoop _ _ since i => since ≤ i ∧ (since < i → pi.readopen = true)
  | .writeSleep _ _ _ => Chan.nwrite.Waits pi
  | .readCopy _ _ i => i = 0 → pi.nread = pi.nwrite → pi.writeopen = false
  | .readDone addr n i => i = 0 → Drained pi u addr n
  | .ret (.piperead addr n) r => r = 0 → Drained pi u addr n
  | _ => True

/-- A point that needs no knowledge, so that the lock can be acquired there. -/
def Point.Fresh (k : Point) : Prop := ∀ pi u, k.Know pi u

def Next.Know (pi : Pipe) (u : UserMem) : Next → Prop
  | .goto k | .wakeup _ k => k.Know pi u
  | .sleep c k => c.Waits pi ∧ k.Fresh
  | .done | .free => True

def Point.Owes (c : Chan) : Point → Prop
  | .writeLoop _ _ since i => c = .nread ∧ since < i
  | .writeDone _ _ _ => c = .nread
  | .readCopy _ _ i => c = .nwrite ∧ 0 < i
  | .readDone _ _ _ => c = .nwrite
  | _ => False

def Next.Owes (c : Chan) : Next → Prop
  | .goto k => k.Owes c
  | .wakeup c' k => c' = c ∨ k.Owes c
  | .sleep _ _ | .done | .free => False

/-- The loop of `pipewrite` is not about to find its process killed with bytes stored. -/
def Point.Spared (killed : Bool) : Point → Prop
  | .writeLoop _ n since i => since < i → (i : ℤ) < n → killed = false
  | _ => True

def Next.Spared (killed : Bool) : Next → Prop
  | .goto k => k.Spared killed
  | .wakeup _ k => ∀ b, k.Spared b
  | .sleep _ _ | .done | .free => True

theorem Point.Fresh.spared (h : k.Fresh) (b : Bool) : k.Spared b := by
  cases k with
  | writeLoop addr n since i =>
    intro hlt _
    have := (h ⟨fun _ => 0,0,0,false,false⟩ ⟨fun _ => 0,fun _ => false,fun _ => false⟩).2 hlt
    cases this
  | _ => trivial

theorem Call.start_fresh (c : Call) : c.start.Fresh := by
  intro pi u
  cases c with
  | pipewrite => exact ⟨Nat.le_refl _,fun h => absurd h (Nat.lt_irrefl _)⟩
  | piperead | pipeclose => trivial

theorem userAddr_of_accessible {page : ℕ → Bool} {addr : ℕ} {n : ℤ} (h : UserMem.Accessible page addr n.toNat)
    (hn : 0 < n) : userAddr addr 0 = addr := by
  have := (h addr (Nat.le_refl _) (by omega)).1
  simp only [MAXVA] at this
  exact Nat.mod_eq_of_lt (by omega)

theorem Point.exec_know (h : k.Know pi u) : (k.exec pi b u).next.Know (k.exec pi b u).pipe (k.exec pi b u).mem := by
  cases k with
  | writeLoop addr n since i =>
    simp only [Point.exec]
    split_ifs with h₁ h₂ h₃ h₄
    · trivial
    · simp only [not_or,Bool.not_eq_false] at h₂
      exact ⟨h₃,h₂.1⟩
    · simp only [not_or,Bool.not_eq_false] at h₂
      exact ⟨Nat.le_succ_of_le h.1,fun _ => h₂.1⟩
    · trivial
    · trivial
  | writeSleep addr n i => exact ⟨h,fun _ _ => ⟨Nat.le_refl _,fun h => absurd h (Nat.lt_irrefl _)⟩⟩
  | readWait addr n =>
    simp only [Point.exec]
    split_ifs with h₁ h₂
    · exact fun h => absurd h (by decide)
    · exact ⟨h₁,fun _ _ => trivial⟩
    · intro _ he
      rw [not_and,Bool.not_eq_true] at h₁
      exact h₁ he
  | readCopy addr n i =>
    simp only [Point.exec]
    split_ifs with h₁ h₂ h₃
    · exact fun hi _ _ => ⟨h₂,h hi h₂⟩
    · exact fun hi => absurd hi (Nat.succ_ne_zero i)
    · -- the copy fails only if the buffer is not valid
      rintro rfl hn ha
      have hw : UserMem.Accessible u.writable addr n.toNat := by
        rwa [UserMem.copyout,UserMem.copyoutFrom_writable] at ha
      refine absurd ?_ h₃
      rw [userAddr_of_accessible hw hn,UserMem.copyout,UserMem.copyoutFrom_eq _ _ _ _ (Nat.le_refl _)]
      exact hw.sub (Nat.le_refl _) (by simp only [List.length_singleton]; omega)
    · exact fun _ hn => absurd hn (by omega)
  | readDone addr n i => exact fun hr => h (by exact_mod_cast hr)
  | writeDone addr n i => trivial
  | closeTest writable =>
    simp only [Point.exec]
    split_ifs <;> trivial
  | close writable => cases writable <;> trivial
  | ret c r => trivial

theorem Point.exec_fifo (h : Fifo pi.data pi.nread pi.nwrite stored taken) :
    Fifo (k.exec pi b u).pipe.data (k.exec pi b u).pipe.nread (k.exec pi b u).pipe.nwrite
      (stored ++ (k.exec pi b u).stored) (taken ++ (k.exec pi b u).taken) := by
  have hdvd : PIPESIZE ∣ 2 ^ 32 := by decide
  have hsame : Fifo pi.data pi.nread pi.nwrite (stored ++ []) (taken ++ []) := by simpa using h
  cases k with
  | writeLoop addr n since i =>
    simp only [Point.exec]
    split_ifs with h₁ h₂ h₃ h₄
    · exact hsame
    · exact hsame
    · rw [List.append_nil]
      refine h.store hdvd ?_ _
      have hne := (not_congr (h.full_iff (by decide))).mp h₃
      have := h.room
      omega
    · exact hsame
    · exact hsame
  | readCopy addr n i =>
    have htake : pi.nread ≠ pi.nwrite → Fifo pi.data (pi.nread + 1) pi.nwrite (stored ++ []) (taken ++ [pi.first]) := by
      intro hne
      have hne := (not_congr (h.empty_iff (by decide))).mp hne
      have hlen : taken.length ≠ stored.length := fun he => hne (h.order.eq_of_length he)
      have := h.le
      rw [List.append_nil]
      exact h.take hdvd (by omega)
    simp only [Point.exec]
    split_ifs with h₁ h₂
    · exact hsame
    · exact htake h₂
    · exact htake h₂
    · exact hsame
  | readWait | closeTest =>
    simp only [Point.exec]
    split_ifs <;> exact hsame
  | close writable => cases writable <;> exact hsame
  | writeSleep | writeDone | readDone | ret => exact hsame

theorem Point.exec_spared (h : k.Spared b) : (k.exec pi b u).next.Spared b := by
  cases k with
  | writeLoop addr n since i =>
    simp only [Point.exec]
    split_ifs with h₁ h₂ h₃ h₄
    · trivial
    · exact fun _ => trivial
    · simp only [not_or,Bool.not_eq_true] at h₂
      exact fun _ _ => h₂.2
    · trivial
    · trivial
  | readWait | readCopy | closeTest =>
    simp only [Point.exec]
    split_ifs <;> trivial
  | close writable => cases writable <;> exact fun _ => trivial
  | writeDone | readDone => exact fun _ => trivial
  | writeSleep | ret => trivial

theorem Point.exec_owes {c : Chan} (hk : k.Know pi u) (hs : k.Spared b) (h : c.Waits pi ∨ k.Owes c) :
    c.Waits (k.exec pi b u).pipe ∨ (k.exec pi b u).next.Owes c := by
  cases k with
  | writeLoop addr n since i =>
    simp only [Point.exec]
    split_ifs with h₁ h₂ h₃ h₄
    · -- the early return has stored nothing since the lock was acquired
      refine h.imp id ?_
      rintro ⟨-,hlt⟩
      rw [hk.2 hlt,hs hlt h₁] at h₂
      simp at h₂
    · refine h.imp id ?_
      rintro ⟨rfl,-⟩
      exact .inl rfl
    · cases c with
      | nread => exact .inr ⟨rfl,Nat.lt_succ_of_le hk.1⟩
      | nwrite =>
        rcases h with h | ⟨h,-⟩
        · exact absurd h.1 h₃
        · cases h
    · exact h.imp id fun h => h.1
    · exact h.imp id fun h => h.1
  | writeSleep addr n i => exact h
  | writeDone addr n i => exact h.imp id fun h => .inl h.symm
  | readWait addr n =>
    simp only [Point.exec]
    split_ifs <;> exact .inl (h.resolve_right id)
  | readCopy addr n i =>
    simp only [Point.exec]
    split_ifs with h₁ h₂ h₃
    · exact h.imp id fun h => h.1
    · cases c with
      | nwrite => exact .inr ⟨rfl,Nat.succ_pos i⟩
      | nread =>
        rcases h with h | ⟨h,-⟩
        · exact absurd h.1 h₂
        · cases h
    · cases c with
      | nwrite => exact .inr rfl
      | nread =>
        rcases h with h | ⟨h,-⟩
        · exact absurd h.1 h₂
        · cases h
    · exact h.imp id fun h => h.1
  | readDone addr n i => exact h.imp id fun h => .inl h.symm
  | close writable =>
    have hw := h.resolve_right id
    clear h
    cases writable <;> cases c
    · exact .inl hw
    · exact .inr (.inl rfl)
    · exact .inr (.inl rfl)
    · exact .inl hw
  | closeTest writable =>
    simp only [Point.exec]
    split_ifs <;> exact .inl (h.resolve_right id)
  | ret c' r => exact .inl (h.resolve_right id)

end Points

/-! ## The invariants -/

section Invariant
variable {N : ℕ} {w w' : World N} {p q : Fin N} {c : Chan} {k : Point} {a : Act N}

def Pos.Holds : Pos → Prop
  | .locked _ | .wakeup _ _ _ | .presleep _ _ => True
  | _ => False

def Pos.Know (pi : Pipe) (u : UserMem) : Pos → Prop
  | .locked k | .wakeup _ _ k => k.Know pi u
  | .presleep c k => c.Waits pi ∧ k.Fresh
  | .entry k | .released _ k | .sleeping _ k => k.Fresh
  | .idle => True

structure Inv (w : World N) : Prop where
  fifo : Fifo w.pipe.data w.pipe.nread w.pipe.nwrite w.stored w.taken
  lock : ∀ q, w.lock = some q ↔ (w.pos q).Holds
  know : ∀ q, (w.pos q).Know w.pipe (w.mem q)

theorem Next.pos_holds (n : Next) : n.pos.Holds ↔ n.lock p = some p := by
  cases n <;> simp [Next.pos,Next.lock,Pos.Holds]

theorem Next.pos_know {n : Next} {pi : Pipe} {u : UserMem} (h : n.Know pi u) : n.pos.Know pi u := by
  cases n with
  | goto k => exact h
  | wakeup c k => exact h
  | sleep c k => exact h
  | done => trivial
  | free => trivial

theorem Pos.Know.other {x : Pos} {pi pi' : Pipe} {u : UserMem} (h : x.Know pi u) (hx : ¬x.Holds) : x.Know pi' u := by
  cases x with
  | locked | wakeup | presleep => exact absurd trivial hx
  | entry | released | sleeping => exact h
  | idle => trivial

theorem Inv.move (hi : Inv w) {x : Pos} {l : Option (Fin N)} {pi : Pipe} {u : UserMem} {stored taken : List Byte}
    (hfifo : Fifo pi.data pi.nread pi.nwrite stored taken) (hx : x.Know pi u) (hl : x.Holds ↔ l = some p)
    (hother : ∀ q, q ≠ p → (l = some q ↔ w.lock = some q))
    (hpipe : pi = w.pipe ∨ (w.pos p).Holds) (hw : w'.pipe = pi) (hw' : w'.lock = l)
    (hpos : w'.pos = update w.pos p x) (hmem : w'.mem = update w.mem p u)
    (hst : w'.stored = stored) (htk : w'.taken = taken) : Inv w' := by
  refine ⟨?_,?_,?_⟩
  · rw [hw,hst,htk]
    exact hfifo
  · intro q
    rw [hw',hpos]
    by_cases hq : q = p
    · subst hq
      rw [update_self]
      exact hl.symm
    · rw [update_of_ne hq,hother q hq]
      exact hi.lock q
  · intro q
    rw [hw,hpos,hmem]
    by_cases hq : q = p
    · subst hq
      rw [update_self,update_self]
      exact hx
    · rw [update_of_ne hq,update_of_ne hq]
      rcases hpipe with rfl | hp
      · exact hi.know q
      · -- only the holder of the lock can have changed the pipe
        refine (hi.know q).other fun hq' => hq ?_
        have h := (hi.lock p).mpr hp
        rw [(hi.lock q).mpr hq'] at h
        exact Option.some.inj h

theorem Inv.not_locked (hi : Inv w) (hp : ¬(w.pos p).Holds) : w.lock ≠ some p := fun h => hp ((hi.lock p).mp h)

theorem Inv.holder (hi : Inv w) (hp : (w.pos p).Holds) (hq : q ≠ p) : w.lock ≠ some q := by
  rw [(hi.lock p).mpr hp]
  exact fun h => hq (Option.some.inj h).symm

theorem Step.inv (h : Step w a w') (hi : Inv w) : Inv w' := by
  cases h with
  | @call p c hp =>
    exact hi.move (p := p) hi.fifo (x := .entry c.start) c.start_fresh (iff_of_false id (hi.not_locked (by rw [hp]; exact id)))
      (fun _ _ => Iff.rfl) (.inl rfl) rfl rfl rfl (update_eq_self ..).symm rfl rfl
  | @acquire p k hp hl hf =>
    have hk := hi.know p
    rw [hp] at hk
    refine hi.move (p := p) hi.fifo (x := .locked k) (hk w.pipe (w.mem p)) (iff_of_true trivial rfl) (fun q hq => ?_)
      (.inl rfl) rfl rfl rfl (update_eq_self ..).symm rfl rfl
    rw [hl]
    exact iff_of_false (fun h => hq (Option.some.inj h).symm) (by simp)
  | @exec p k o hp ho hd =>
    have hk := hi.know p
    rw [hp] at hk
    subst ho
    refine hi.move (p := p) (Point.exec_fifo hi.fifo) (Next.pos_know (Point.exec_know hk)) (Next.pos_holds _)
      (fun q hq => ?_) (.inr (by rw [hp]; trivial)) rfl rfl rfl rfl rfl rfl
    refine iff_of_false ?_ (hi.holder (p := p) (by rw [hp]; trivial) hq)
    cases (k.exec w.pipe (w.killed p) (w.mem p)).next <;> simp [Next.lock,Ne.symm hq]
  | @ret p c r hp =>
    exact hi.move (p := p) hi.fifo (x := .idle) trivial (iff_of_false id (by simp))
      (fun q hq => iff_of_false (by simp) (hi.holder (p := p) (by rw [hp]; trivial) hq)) (.inl rfl) rfl rfl rfl
      (update_eq_self ..).symm rfl rfl
  | @wakeup p q c k hp _ =>
    have hk := hi.know p
    rw [hp] at hk
    exact hi.move (p := p) hi.fifo (x := .wakeup c (q + 1) k) hk (iff_of_true trivial ((hi.lock p).mpr (by rw [hp]; trivial)))
      (fun _ _ => Iff.rfl) (.inl rfl) rfl rfl rfl (update_eq_self ..).symm rfl rfl
  | @wakeupDone p c k hp =>
    have hk := hi.know p
    rw [hp] at hk
    exact hi.move (p := p) hi.fifo (x := .locked k) hk (iff_of_true trivial ((hi.lock p).mpr (by rw [hp]; trivial)))
      (fun _ _ => Iff.rfl) (.inl rfl) rfl rfl rfl (update_eq_self ..).symm rfl rfl
  | @sleepRelease p c k hp =>
    have hk := hi.know p
    rw [hp] at hk
    exact hi.move (p := p) hi.fifo (x := .released c k) hk.2 (iff_of_false id (by simp))
      (fun q hq => iff_of_false (by simp) (hi.holder (p := p) (by rw [hp]; trivial) hq)) (.inl rfl) rfl rfl rfl
      (update_eq_self ..).symm rfl rfl
  | @sleep p c k hp =>
    have hk := hi.know p
    rw [hp] at hk
    exact hi.move (p := p) hi.fifo (x := .sleeping c k) hk (iff_of_false id (hi.not_locked (by rw [hp]; exact id)))
      (fun _ _ => Iff.rfl) (.inl rfl) rfl rfl rfl (update_eq_self ..).symm rfl rfl
  | @resume p c k hp _ =>
    have hk := hi.know p
    rw [hp] at hk
    exact hi.move (p := p) hi.fifo (x := .entry k) hk (iff_of_false id (hi.not_locked (by rw [hp]; exact id)))
      (fun _ _ => Iff.rfl) (.inl rfl) rfl rfl rfl (update_eq_self ..).symm rfl rfl
  | kill _ => exact ⟨hi.fifo,hi.lock,hi.know⟩
  | @user p u b hp =>
    exact hi.move (p := p) hi.fifo (x := .idle) trivial (iff_of_false id (hi.not_locked (by rw [hp]; exact id)))
      (fun _ _ => Iff.rfl) (.inl rfl) rfl rfl (by rw [← hp]; exact (update_eq_self ..).symm) rfl rfl rfl

theorem Initial.inv (h : Initial w) : Inv w where
  fifo := by
    rw [h.nread,h.nwrite,h.stored,h.taken]
    exact ⟨rfl,rfl,List.prefix_refl _,Nat.zero_le _,fun k x _ hx => by simp at hx⟩
  lock := fun q => by
    rw [h.lock,h.pos]
    exact iff_of_false (by simp) id
  know := fun q => by
    rw [h.pos]
    trivial

theorem Reaches.inv {A : World N → Act N → Prop} (h : Reaches A w) : Inv w := by
  induction h with
  | init h => exact h.inv
  | step _ _ h ih => exact h.inv ih

/-! ## Data -/

abbrev Reachable : World N → Prop := Reaches fun _ _ => True

/-- The counters move with the record: a byte stored is the one put into its slot, a byte taken
the one found there. -/
theorem Point.exec_record (k : Point) (pi : Pipe) (b : Bool) (u : UserMem) :
    ((k.exec pi b u).pipe.nwrite = pi.nwrite ∧ (k.exec pi b u).stored = [] ∨
      ∃ x, (k.exec pi b u).pipe = pi.store x ∧ (k.exec pi b u).stored = [x]) ∧
    ((k.exec pi b u).pipe.nread = pi.nread ∧ (k.exec pi b u).taken = [] ∨
      (k.exec pi b u).pipe = pi.take ∧ (k.exec pi b u).taken = [pi.first]) := by
  cases k with
  | writeLoop addr n since i =>
    simp only [Point.exec]
    split_ifs
    · exact ⟨.inl ⟨rfl,rfl⟩,.inl ⟨rfl,rfl⟩⟩
    · exact ⟨.inl ⟨rfl,rfl⟩,.inl ⟨rfl,rfl⟩⟩
    · exact ⟨.inr ⟨_,rfl,rfl⟩,.inl ⟨rfl,rfl⟩⟩
    · exact ⟨.inl ⟨rfl,rfl⟩,.inl ⟨rfl,rfl⟩⟩
    · exact ⟨.inl ⟨rfl,rfl⟩,.inl ⟨rfl,rfl⟩⟩
  | readCopy addr n i =>
    simp only [Point.exec]
    split_ifs
    · exact ⟨.inl ⟨rfl,rfl⟩,.inl ⟨rfl,rfl⟩⟩
    · exact ⟨.inl ⟨rfl,rfl⟩,.inr ⟨rfl,rfl⟩⟩
    · exact ⟨.inl ⟨rfl,rfl⟩,.inr ⟨rfl,rfl⟩⟩
    · exact ⟨.inl ⟨rfl,rfl⟩,.inl ⟨rfl,rfl⟩⟩
  | readWait | closeTest =>
    simp only [Point.exec]
    split_ifs <;> exact ⟨.inl ⟨rfl,rfl⟩,.inl ⟨rfl,rfl⟩⟩
  | close writable => cases writable <;> exact ⟨.inl ⟨rfl,rfl⟩,.inl ⟨rfl,rfl⟩⟩
  | writeSleep | writeDone | readDone | ret => exact ⟨.inl ⟨rfl,rfl⟩,.inl ⟨rfl,rfl⟩⟩

theorem Step.record (h : Step w a w') :
    (w'.pipe.nwrite = w.pipe.nwrite ∧ w'.stored = w.stored ∨
      ∃ x, w'.pipe = w.pipe.store x ∧ w'.stored = w.stored ++ [x]) ∧
    (w'.pipe.nread = w.pipe.nread ∧ w'.taken = w.taken ∨
      w'.pipe = w.pipe.take ∧ w'.taken = w.taken ++ [w.pipe.first]) := by
  cases h with
  | @exec p k o _ ho _ =>
    subst ho
    obtain ⟨hs,ht⟩ := k.exec_record w.pipe (w.killed p) (w.mem p)
    constructor
    · rcases hs with ⟨h₁,h₂⟩ | ⟨x,h₁,h₂⟩
      · exact .inl ⟨h₁,by simp [h₂]⟩
      · exact .inr ⟨x,h₁,by simp [h₂]⟩
    · rcases ht with ⟨h₁,h₂⟩ | ⟨h₁,h₂⟩
      · exact .inl ⟨h₁,by simp [h₂]⟩
      · exact .inr ⟨h₁,by simp [h₂]⟩
  | _ => exact ⟨.inl ⟨rfl,rfl⟩,.inl ⟨rfl,rfl⟩⟩

/-- Nothing is lost, duplicated or reordered, however long the run, and a read of 0 bytes into a
valid buffer means the end of the data. -/
theorem pipe_lossless (h : Reachable w) :
    (w.pipe.nwrite - w.pipe.nread).toNat ≤ PIPESIZE ∧
    (w.pipe.nwrite - w.pipe.nread).toNat = w.stored.length - w.taken.length ∧
    w.taken <+: w.stored ∧
    (∀ a w', Step w a w' →
      (w'.pipe.nwrite = w.pipe.nwrite ∧ w'.stored = w.stored ∨
        ∃ x, w'.pipe = w.pipe.store x ∧ w'.stored = w.stored ++ [x]) ∧
      (w'.pipe.nread = w.pipe.nread ∧ w'.taken = w.taken ∨
        w'.pipe = w.pipe.take ∧ w'.taken = w.taken ++ [w.pipe.first])) ∧
    ∀ p addr n w', Step w (.ret p (.piperead addr n) 0) w' → 0 < n →
      UserMem.Accessible (w.mem p).writable addr n.toNat → w.pipe.writeopen = false ∧ w.taken = w.stored := by
  have hi := h.inv
  have hcount := hi.fifo.count (by decide)
  have hroom := hi.fifo.room
  refine ⟨by omega,hcount,hi.fifo.order,fun a w' hs => hs.record,?_⟩
  intro p addr n w' hs hn ha
  cases hs with
  | ret hp =>
    have hk := hi.know p
    rw [hp] at hk
    obtain ⟨he,ho⟩ := hk rfl hn ha
    exact ⟨ho,(hi.fifo.empty_iff (by decide)).mp he⟩

/-! ## Sleepers -/

/-- Asleep on the channel, or past the point of no return in `sleep`. -/
def World.Dozes (w : World N) (q : Fin N) (c : Chan) : Prop := w.asleep q = some c ∨ ∃ k, w.pos q = .released c k

/-- The process is going to wake `q` if it sleeps on `c`. -/
def Pos.Owes (c : Chan) (q : Fin N) : Pos → Prop
  | .locked k => k.Owes c
  | .wakeup c' j k => c' = c ∧ j ≤ q ∨ k.Owes c
  | _ => False

def Pos.Spared (killed : Bool) : Pos → Prop
  | .locked k => k.Spared killed
  | .wakeup _ _ k => ∀ b, k.Spared b
  | _ => True

structure Awake (w : World N) : Prop where
  spared : ∀ q, (w.pos q).Spared (w.killed q)
  asleep : ∀ q c, w.asleep q = some c → ∃ k, w.pos q = .sleeping c k
  owed : ∀ q c, w.Dozes q c → c.Waits w.pipe ∨ ∃ p, w.lock = some p ∧ (w.pos p).Owes c q

/-- No `kill` hits a process that is in the loop of `pipewrite`, has stored bytes since it last
acquired the lock and has more to store. -/
def Gentle (w : World N) : Act N → Prop
  | .kill q => ∀ addr n since i, w.pos q = .locked (.writeLoop addr n since i) → since < i → n ≤ i
  | _ => True

/-- Whoever sleeps on `c` still waits for something, or is going to be woken. -/
def World.Owed (w : World N) (q : Fin N) (c : Chan) : Prop :=
  c.Waits w.pipe ∨ ∃ p, w.lock = some p ∧ (w.pos p).Owes c q

theorem Awake.move (ha : Awake w) {x : Pos} (hpos : w'.pos = update w.pos p x)
    (hspared : x.Spared (w'.killed p)) (hkilled : ∀ q, q ≠ p → w'.killed q = w.killed q)
    (hasleep : ∀ q c, q ≠ p → w'.asleep q = some c → w.asleep q = some c)
    (hself : ∀ c, w'.asleep p = some c → ∃ k, x = .sleeping c k)
    (hdoze : ∀ c, w'.Dozes p c → w'.Owed p c)
    (howed : ∀ q c, q ≠ p → w'.Dozes q c → w.Owed q c → w'.Owed q c) : Awake w' := by
  refine ⟨?_,?_,?_⟩
  · intro q
    by_cases hq : q = p
    · subst hq
      rw [hpos,update_self]
      exact hspared
    · rw [hpos,update_of_ne hq,hkilled q hq]
      exact ha.spared q
  · intro q c hc
    rw [hpos]
    by_cases hq : q = p
    · subst hq
      rw [update_self]
      exact hself c hc
    · rw [update_of_ne hq]
      exact ha.asleep q c (hasleep q c hq hc)
  · intro q c hd
    by_cases hq : q = p
    · subst hq
      exact hdoze c hd
    · refine howed q c hq hd (ha.owed q c ?_)
      rw [World.Dozes,hpos,update_of_ne hq] at hd
      exact hd.imp_left (hasleep q c hq)

theorem World.Owed.other (hp : w.lock ≠ some p) {x : Pos} (hpos : w'.pos = update w.pos p x)
    (hpipe : w'.pipe = w.pipe) (hlock : w'.lock = w.lock) (h : w.Owed q c) : w'.Owed q c := by
  rcases h with h | ⟨r,hr,h⟩
  · exact .inl (hpipe ▸ h)
  · refine .inr ⟨r,hlock.trans hr,?_⟩
    rw [hpos,update_of_ne]
    · exact h
    · rintro rfl
      exact hp hr

theorem Awake.not_dozes (ha : Awake w) (hs : ∀ c k, w.pos p ≠ .sleeping c k) : w.asleep p = none := by
  cases h : w.asleep p with
  | none => rfl
  | some c =>
    obtain ⟨k,hk⟩ := ha.asleep p c h
    exact absurd hk (hs c k)

theorem Awake.moveAwake (ha : Awake w) {x : Pos} (hp : ∀ c k, w.pos p ≠ .sleeping c k) (hx : ∀ c k, x ≠ .released c k)
    (hpos : w'.pos = update w.pos p x) (hspared : x.Spared (w'.killed p))
    (hkilled : ∀ q, q ≠ p → w'.killed q = w.killed q)
    (hasleep : ∀ q c, w'.asleep q = some c → w.asleep q = some c)
    (howed : ∀ q c, q ≠ p → w'.Dozes q c → w.Owed q c → w'.Owed q c) : Awake w' := by
  have hnone : ∀ c, w'.asleep p ≠ some c := by
    intro c hc
    have h := hasleep p c hc
    rw [ha.not_dozes hp] at h
    cases h
  refine ha.move hpos hspared hkilled (fun q c _ => hasleep q c) (fun c hc => absurd hc (hnone c)) ?_ howed
  rintro c (hc | ⟨k,hk⟩)
  · exact absurd hc (hnone c)
  · rw [hpos,update_self] at hk
    exact absurd hk (hx c k)

theorem Awake.exec {o : Outcome} (ha : Awake w) (hi : Inv w) (hp : w.pos p = .locked k)
    (ho : k.exec w.pipe (w.killed p) (w.mem p) = o) :
    Awake { w with
      pipe := o.pipe
      lock := o.next.lock p
      freed := o.next.isFree
      pos := update w.pos p o.next.pos
      mem := update w.mem p o.mem
      stored := w.stored ++ o.stored
      taken := w.taken ++ o.taken } := by
  subst ho
  have hk := hi.know p
  have hs := ha.spared p
  have hl := (hi.lock p).mpr (by rw [hp]; trivial)
  rw [hp] at hk hs
  have hspared : (k.exec w.pipe (w.killed p) (w.mem p)).next.Spared (w.killed p) := Point.exec_spared hs
  have howes := fun c => Point.exec_owes (c := c) hk hs
  generalize hn : k.exec w.pipe (w.killed p) (w.mem p) = o at hspared howes ⊢
  refine ha.moveAwake (by simp [hp]) ?_ rfl ?_ (fun _ _ => rfl) (fun _ _ h => h) ?_
  · intro c k'
    cases o.next <;> simp [Next.pos]
  · change o.next.pos.Spared (w.killed p)
    cases hnext : o.next <;> simp only [hnext,Next.Spared] at hspared <;> exact hspared
  · intro q c hq _ h
    have hold : c.Waits w.pipe ∨ k.Owes c := by
      refine h.imp id ?_
      rintro ⟨r,hr,hr'⟩
      obtain rfl : p = r := Option.some.inj (hl.symm.trans hr)
      rw [hp] at hr'
      exact hr'
    refine (howes c hold).imp id fun hnext => ⟨p,?_,?_⟩
    · change o.next.lock p = some p
      cases hcase : o.next <;> simp only [hcase,Next.Owes] at hnext <;> rfl
    · change (update w.pos p o.next.pos p).Owes c q
      rw [update_self]
      cases hcase : o.next with
      | goto k' =>
        simp only [hcase,Next.Owes] at hnext
        exact hnext
      | wakeup c' k' =>
        simp only [hcase,Next.Owes] at hnext
        exact hnext.imp (fun h => ⟨h,Nat.zero_le _⟩) id
      | sleep | done | free => simp only [hcase,Next.Owes] at hnext

theorem Awake.wakeup (ha : Awake w) (hi : Inv w) (hp : w.pos p = .wakeup c q k) (hq : (w.pos q).Unlocked) :
    Awake { w.wake p q c with pos := update w.pos p (.wakeup c (q + 1) k) } := by
  have hl := (hi.lock p).mpr (by rw [hp]; trivial)
  have hs := ha.spared p
  rw [hp] at hs
  have hnone := ha.not_dozes (p := p) (by simp [hp])
  have hless : ∀ r c', (w.wake p q c).asleep r = some c' → w.asleep r = some c' ∧ (r = q → c' ≠ c) := by
    intro r c' h
    simp only [World.wake] at h
    split_ifs at h with hcase
    · by_cases hr : r = q
      · subst hr
        simp at h
      · rw [update_of_ne hr] at h
        exact ⟨h,fun hr' => absurd hr' hr⟩
    · refine ⟨h,?_⟩
      rintro rfl rfl
      refine hcase ⟨?_,h⟩
      rintro rfl
      rw [hnone] at h
      cases h
  refine ha.moveAwake (by simp [hp]) (by simp) rfl hs (fun _ _ => rfl) (fun r c' h => (hless r c' h).1) ?_
  intro r c' hr hd h
  refine h.imp id ?_
  rintro ⟨p',hp',howes⟩
  obtain rfl : p = p' := Option.some.inj (hl.symm.trans hp')
  refine ⟨p,hl,?_⟩
  change (update w.pos p _ p).Owes c' r
  rw [update_self]
  rw [hp] at howes
  refine howes.imp (fun ⟨hcc,hle⟩ => ⟨hcc,?_⟩) id
  -- the process that has just been looked at does not sleep on the channel any more
  have hne : r ≠ q := by
    rintro rfl
    rcases hd with hd | ⟨k',hk'⟩
    · exact (hless r c' hd).2 rfl hcc.symm
    · change update w.pos p _ r = _ at hk'
      rw [update_of_ne hr] at hk'
      rw [hk'] at hq
      exact hq
  have : (q : ℕ) ≠ r := fun h => hne (Fin.ext h.symm)
  omega

theorem Step.awake (h : Step w a w') (hi : Inv w) (hg : Gentle w a) (ha : Awake w) : Awake w' := by
  -- a process that neither held the lock nor takes it
  have hmove : ∀ {p : Fin N} {x : Pos}, ¬(w.pos p).Holds → w'.pos = update w.pos p x → w'.pipe = w.pipe →
      w'.lock = w.lock → ∀ q c, q ≠ p → w'.Dozes q c → w.Owed q c → w'.Owed q c :=
    fun hp hpos hpipe hlock q c _ _ h => h.other (hi.not_locked hp) hpos hpipe hlock
  -- the holder of the lock owes nothing
  have hheld : ∀ {p : Fin N}, (w.pos p).Holds → (∀ (q : Fin N) c, ¬(w.pos p).Owes c q) → w'.pipe = w.pipe →
      ∀ q c, w.Owed q c → w'.Owed q c := by
    intro p hp hno hpipe q c h
    rcases h with h | ⟨r,hr,h⟩
    · exact .inl (hpipe ▸ h)
    · obtain rfl : p = r := Option.some.inj (((hi.lock p).mpr hp).symm.trans hr)
      exact absurd h (hno q c)
  cases h with
  | @call p c hp =>
    exact ha.moveAwake (p := p) (by simp [hp]) (by simp) rfl trivial (fun _ _ => rfl) (fun _ _ h => h)
      (hmove (by rw [hp]; exact id) rfl rfl rfl)
  | @acquire p k hp hl hf =>
    have hk := hi.know p
    rw [hp] at hk
    refine ha.moveAwake (p := p) (by simp [hp]) (by simp) rfl (hk.spared _) (fun _ _ => rfl) (fun _ _ h => h)
      (fun q c _ _ h => ?_)
    rcases h with h | ⟨r,hr,-⟩
    · exact .inl h
    · rw [hl] at hr
      cases hr
  | exec hp ho _ => exact ha.exec hi hp ho
  | @ret p c r hp =>
    exact ha.moveAwake (p := p) (by simp [hp]) (by simp) rfl trivial (fun _ _ => rfl) (fun _ _ h => h)
      (fun q c _ _ => hheld (p := p) (by rw [hp]; trivial) (by rw [hp]; exact fun _ _ => id) rfl q c)
  | wakeup hp hq => exact ha.wakeup hi hp hq
  | @wakeupDone p c k hp =>
    have hl := (hi.lock p).mpr (by rw [hp]; trivial)
    have hs := ha.spared p
    rw [hp] at hs
    refine ha.moveAwake (p := p) (by simp [hp]) (by simp) rfl (hs _) (fun _ _ => rfl) (fun _ _ h => h)
      (fun q c _ _ h => ?_)
    refine h.imp id ?_
    rintro ⟨r,hr,h⟩
    obtain rfl : p = r := Option.some.inj (hl.symm.trans hr)
    refine ⟨p,hl,?_⟩
    change (update w.pos p _ p).Owes c q
    rw [update_self]
    rw [hp] at h
    rcases h with ⟨-,hle⟩ | h
    · exact absurd q.isLt (by omega)
    · exact h
  | @sleepRelease p c k hp =>
    have hk := hi.know p
    rw [hp] at hk
    refine ha.move (p := p) rfl trivial (fun _ _ => rfl) (fun _ _ _ h => h) (fun c' h => ?_) (fun c' h => ?_)
      (fun q c _ _ => hheld (p := p) (by rw [hp]; trivial) (by rw [hp]; exact fun _ _ => id) rfl q c)
    · exact absurd ((ha.not_dozes (p := p) (by simp [hp])).symm.trans h) (by simp)
    · have hnone := ha.not_dozes (p := p) (by simp [hp])
      simp only [World.Dozes,hnone,reduceCtorEq,update_self,Pos.released.injEq,false_or] at h
      obtain ⟨k',rfl,-⟩ := h
      exact .inl hk.1
  | @sleep p c k hp =>
    have hother : ∀ q c', w.Owed q c' → World.Owed { w with
        asleep := update w.asleep p (some c)
        pos := update w.pos p (.sleeping c k) } q c' :=
      fun q c' h => h.other (p := p) (hi.not_locked (by rw [hp]; exact id)) rfl rfl rfl
    refine ha.move (p := p) rfl trivial (fun _ _ => rfl) (fun q c' hq h => ?_) (fun c' h => ?_) (fun c' h => ?_)
      (fun q c' _ _ => hother q c')
    · dsimp only at h
      rwa [update_of_ne hq] at h
    · dsimp only at h
      rw [update_self] at h
      cases h
      exact ⟨k,rfl⟩
    · simp only [World.Dozes,update_self,Option.some.injEq,reduceCtorEq,exists_false,or_false] at h
      subst h
      exact hother p c (ha.owed p c (.inr ⟨k,hp⟩))
  | @resume p c k hp hn =>
    refine ha.move (p := p) rfl trivial (fun _ _ => rfl) (fun _ _ _ h => h) (fun c h => ?_) (fun c h => ?_)
      (hmove (by rw [hp]; exact id) rfl rfl rfl)
    · exact absurd (hn.symm.trans h) (by simp)
    · simp [World.Dozes,hn] at h
  | @kill q hq =>
    have hless : ∀ r c, update w.asleep q none r = some c → w.asleep r = some c := by
      intro r c h
      by_cases hr : r = q
      · subst hr
        simp at h
      · rwa [update_of_ne hr] at h
    refine ⟨fun r => ?_,fun r c h => ha.asleep r c (hless r c h),fun r c h => ha.owed r c (h.imp_left (hless r c))⟩
    by_cases hr : r = q
    · subst hr
      have hs := ha.spared r
      change (w.pos r).Spared (update w.killed r true r)
      rw [update_self]
      cases hpos : w.pos r with
      | locked k =>
        cases k with
        | writeLoop addr n since i =>
          intro hlt hn
          have := hg addr n since i hpos hlt
          omega
        | _ => trivial
      | wakeup c j k =>
        rw [hpos] at hs
        exact hs
      | _ => trivial
    · change (w.pos r).Spared (update w.killed q true r)
      rw [update_of_ne hr]
      exact ha.spared r
  | @user p u b hp =>
    have hpos : w.pos = update w.pos p .idle := by
      rw [← hp]
      exact (update_eq_self ..).symm
    exact ha.moveAwake (p := p) (x := .idle) (by simp [hp]) (by simp) hpos trivial
      (fun q hq => update_of_ne hq _ _) (fun _ _ h => h)
      (hmove (p := p) (x := .idle) (by rw [hp]; exact id) hpos rfl rfl)

theorem Initial.awake (h : Initial w) : Awake w where
  spared := fun q => by
    rw [h.pos]
    trivial
  asleep := fun q c hc => by simp [h.asleep] at hc
  owed := fun q c hd => by simp [World.Dozes,h.asleep,h.pos] at hd

theorem Reaches.awake (h : Reaches Gentle w) : Awake w := by
  induction h with
  | init h => exact h.awake
  | step hr hg h ih => exact h.awake hr.inv hg ih

/-- No wakeup is missed as long as no `kill` interrupts a `pipewrite` between two bytes. -/
theorem pipe_no_missed_wakeup (h : Reaches Gentle w) (hl : w.lock = none) :
    (∀ q, w.asleep q = some .nread → w.pipe.nread = w.pipe.nwrite ∧ w.pipe.writeopen = true) ∧
    ∀ q, w.asleep q = some .nwrite →
      w.pipe.nwrite = w.pipe.nread + BitVec.ofNat 32 PIPESIZE ∧ w.pipe.readopen = true := by
  have howed : ∀ q c, w.asleep q = some c → c.Waits w.pipe := by
    intro q c hc
    rcases h.awake.owed q c (.inl hc) with h | ⟨p,hp,-⟩
    · exact h
    · rw [hl] at hp
      cases hp
  exact ⟨fun q => howed q .nread,fun q => howed q .nwrite⟩

end Invariant

section Runs

def fresh : World 2 where
  pipe := ⟨fun _ => 0,0,0,true,true⟩
  lock := none
  freed := false
  pos := fun _ => .idle
  asleep := fun _ => none
  killed := fun _ => false
  mem := fun _ => ⟨fun _ => 0,fun _ => true,fun _ => true⟩
  stored := []
  taken := []

theorem fresh_initial : Initial fresh := ⟨rfl,rfl,rfl,rfl,rfl,rfl,fun _ => rfl,fun _ => rfl,rfl,rfl⟩

theorem reader_sleeps {A : World 2 → Act 2 → Prop} (hA : ∀ w a, (∀ q, a ≠ .kill q) → A w a) :
    ∃ w, Reaches A w ∧ w.lock = none ∧ w.freed = false ∧ w.asleep 0 = some .nread ∧ w.pos 1 = .idle ∧
      w.killed 1 = false ∧ w.mem 1 = fresh.mem 1 ∧ w.pipe = fresh.pipe ∧ w.stored = [] ∧ w.taken = [] := by
  have h₁ := Reaches.step (Reaches.init fresh_initial) (hA _ _ (by simp)) (.call (p := 0) (.piperead 0 1) rfl)
  have h₂ := Reaches.step h₁ (hA _ _ (by simp)) (.acquire (p := 0) rfl rfl rfl)
  have h₃ := Reaches.step h₂ (hA _ _ (by simp)) (.exec (p := 0) rfl rfl (by simp [Point.exec,Call.start,fresh]))
  have h₄ := Reaches.step h₃ (hA _ _ (by simp)) (.sleepRelease (p := 0) (c := .nread) (k := .readWait 0 1) rfl)
  have h₅ := Reaches.step h₄ (hA _ _ (by simp)) (.sleep (p := 0) (c := .nread) (k := .readWait 0 1) rfl)
  exact ⟨_,h₅,rfl,rfl,rfl,rfl,rfl,rfl,rfl,rfl,rfl⟩

theorem pipe_no_missed_wakeup_reader : ∃ w : World 2, Reaches Gentle w ∧ w.lock = none ∧ w.asleep 0 = some .nread ∧
    w.pipe.nread = w.pipe.nwrite ∧ w.pipe.writeopen = true := by
  obtain ⟨w,h,hl,-,ha,-⟩ := reader_sleeps (A := Gentle) fun w a ha => by
    cases a with
    | kill q => exact absurd rfl (ha q)
    | _ => trivial
  exact ⟨w,h,hl,ha,(pipe_no_missed_wakeup h hl).1 0 ha⟩

theorem writer_stores : ∃ w : World 2, Reachable w ∧ w.asleep 0 = some .nread ∧
    w.pos 1 = .locked (.writeLoop 0 2 0 1) ∧ w.pipe = fresh.pipe.store 0 ∧ w.stored = [0] ∧ w.taken = [] := by
  obtain ⟨w,h,hl,hf,ha,hp,hk,hm,hpi,hs,ht⟩ := reader_sleeps (A := fun _ _ => True) fun _ _ _ => trivial
  have h₁ := Reaches.step h trivial (.call (p := 1) (.pipewrite 0 2) hp)
  have h₂ := Reaches.step h₁ trivial (.acquire (p := 1) (k := .writeLoop 0 2 0 0) (by simp [Call.start]) hl hf)
  have hstore : (Point.writeLoop 0 2 0 0).exec w.pipe (w.killed 1) (w.mem 1) =
      ⟨.goto (.writeLoop 0 2 0 1),w.pipe.store 0,w.mem 1,[0],[]⟩ := by
    rw [hpi,hk,hm]
    rfl
  have h₃ := Reaches.step h₂ trivial (.exec (p := 1) (k := .writeLoop 0 2 0 0) (by simp) hstore (by simp))
  exact ⟨_,h₃,ha,by simp [Next.pos],by rw [hpi],by simp [hs],by simp [ht]⟩

/-- Killed between the two bytes, its `pipewrite` returns without waking the reader. -/
theorem missed_wakeup : ∃ w : World 2, Reachable w ∧ w.lock = none ∧ w.asleep 0 = some .nread ∧
    w.pipe.nread ≠ w.pipe.nwrite := by
  obtain ⟨w,h,ha,hp,hpi,-⟩ := writer_stores
  have h₁ := Reaches.step h trivial (.kill (q := 1) (by rw [hp]; trivial))
  have hexec : (Point.writeLoop 0 2 0 1).exec w.pipe true (w.mem 1) =
      ⟨.goto (.ret (.pipewrite 0 2) (-1)),w.pipe,w.mem 1,[],[]⟩ := by
    simp [Point.exec]
  have h₂ := Reaches.step h₁ trivial (.exec (p := 1) hp hexec (by simp))
  have h₃ := Reaches.step h₂ trivial (.ret (p := 1) (c := .pipewrite 0 2) (r := -1) (by simp [Next.pos]))
  refine ⟨_,h₃,rfl,?_,?_⟩
  · simpa using ha
  · change w.pipe.nread ≠ w.pipe.nwrite
    rw [hpi]
    decide

theorem pipe_lossless_stored : ∃ w : World 2, Reachable w ∧ w.stored = [0] ∧ w.taken <+: [0] ∧
    (w.pipe.nwrite - w.pipe.nread).toNat = 1 := by
  obtain ⟨w,h,-,-,-,hs,ht⟩ := writer_stores
  obtain ⟨-,hcount,horder,-⟩ := pipe_lossless h
  rw [hs] at horder
  rw [hs,ht] at hcount
  exact ⟨w,h,hs,horder,hcount⟩

end Runs

end Xv6.PipeProtocol
