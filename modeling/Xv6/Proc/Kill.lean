import Xv6.Kernel.State
import Xv6.Proc.Sched

/-! # `kill` and the recycling of slots

`kill` looks at one slot after another, each under its own lock, and compares only the pid. Who is
whose parent plays no part here: any process may reap any zombie.
-/
namespace Xv6.KillProtocol
open SchedProtocol (ProcState)
open Function (update)

inductive Pos (N : ℕ)
  | run
  /-- in `fork`, the child not yet RUNNABLE -/
  | forked (np : Fin N)
  /-- in `kill(pid)`, before the slot is locked -/
  | kill (pid : BitVec 32) (j : ℕ)

structure World (N : ℕ) where
  state : Fin N → ProcState
  pid : Fin N → BitVec 32
  killed : Fin N → Bool
  pos : Fin N → Pos N
  nextpid : BitVec 32

inductive Event (N : ℕ)
  | born (q : Fin N) (pid : BitVec 32)
  | freed (q : Fin N)
  /-- a call of `kill` -/
  | kill (pid : BitVec 32)
  | hit (q : Fin N) (pid : BitVec 32)
  /-- `setkilled` in `usertrap` -/
  | trap (q : Fin N)
  | other

variable {N : ℕ}

def World.freeproc (w : World N) (q : Fin N) : World N :=
  { w with
    pid := update w.pid q 0
    killed := update w.killed q false
    state := update w.state q .unused }

inductive Step (init : Fin N) : World N → Event N → World N → Prop
  | dispatch {w : World N} {x : Fin N} : w.state x = .runnable →
      Step init w .other { w with state := update w.state x .running }
  | yield {w : World N} {x : Fin N} : w.state x = .running →
      Step init w .other { w with state := update w.state x .runnable }
  | sleep {w : World N} {x : Fin N} : w.state x = .running → w.pos x = .run →
      Step init w .other { w with state := update w.state x .sleeping }
  | wakeup {w : World N} {q : Fin N} : w.state q = .sleeping →
      Step init w .other { w with state := update w.state q .runnable }
  -- `allocproc` sets neither `killed` nor anything else of the old process
  | forkAlloc {w : World N} {x q : Fin N} : w.state x = .running → w.pos x = .run → w.state q = .unused →
      Step init w (.born q w.nextpid) { w with
        state := update w.state q .used
        pid := update w.pid q w.nextpid
        nextpid := w.nextpid + 1
        pos := update w.pos x (.forked q) }
  -- no memory: the slot is given back before its lock is released
  | forkFails {w : World N} {x q : Fin N} : w.state x = .running → w.pos x = .run → w.state q = .unused →
      Step init w (.freed q) { w.freeproc q with nextpid := w.nextpid + 1 }
  | forkDone {w : World N} {x q : Fin N} : w.state x = .running → w.pos x = .forked q →
      Step init w .other { w with
        state := update w.state q .runnable
        pos := update w.pos x .run }
  -- panics in init
  | exit {w : World N} {x : Fin N} : w.state x = .running → w.pos x = .run → x ≠ init →
      Step init w .other { w with state := update w.state x .zombie }
  | reap {w : World N} {x q : Fin N} : w.state x = .running → w.pos x = .run → w.state q = .zombie →
      Step init w (.freed q) (w.freeproc q)
  | kill {w : World N} {x : Fin N} {pid : BitVec 32} : w.state x = .running → w.pos x = .run →
      Step init w (.kill pid) { w with pos := update w.pos x (.kill pid 0) }
  | killSkip {w : World N} {x q : Fin N} {pid : BitVec 32} : w.state x = .running → w.pos x = .kill pid q.val →
      w.pid q ≠ pid →
      Step init w .other { w with pos := update w.pos x (.kill pid (q.val + 1)) }
  | killHit {w : World N} {x q : Fin N} {pid : BitVec 32} : w.state x = .running → w.pos x = .kill pid q.val →
      w.pid q = pid →
      Step init w (.hit q pid) { w with
        killed := update w.killed q true
        state := update w.state q (if w.state q = .sleeping then .runnable else w.state q)
        pos := update w.pos x .run }
  | killNone {w : World N} {x : Fin N} {pid : BitVec 32} : w.state x = .running → w.pos x = .kill pid N →
      Step init w .other { w with pos := update w.pos x .run }
  | setkilled {w : World N} {x : Fin N} : w.state x = .running → w.pos x = .run →
      Step init w (.trap x) { w with killed := update w.killed x true }

/-- After `userinit`; `proc[]` starts out as zeros. -/
structure Initial (init : Fin N) (w : World N) : Prop where
  runnable : w.state init = .runnable
  pid : w.pid init = 1
  unused : ∀ q, q ≠ init → w.state q = .unused ∧ w.pid q = 0
  killed : ∀ q, w.killed q = false
  pos : ∀ q, w.pos q = .run
  nextpid : w.nextpid = 2

inductive Run (init : Fin N) : World N → List (Event N) → Prop
  | init {w : World N} : Initial init w → Run init w [.born init 1]
  | step {w w' : World N} {e : Event N} {t : List (Event N)} : Run init w t → Step init w e w' →
      Run init w' (e :: t)

/-! ## What a history says -/

def pidOf (q : Fin N) : List (Event N) → Option (BitVec 32)
  | [] => none
  | .born p pid :: t => if p = q then some pid else pidOf q t
  | .freed p :: t => if p = q then none else pidOf q t
  | _ :: t => pidOf q t

/-- The process in the slot was the target of a `kill` with its own pid or took a fatal trap. -/
def Doomed (q : Fin N) : List (Event N) → Prop
  | [] => False
  | .born p _ :: t => p ≠ q ∧ Doomed q t
  | .freed p :: t => p ≠ q ∧ Doomed q t
  | .hit p pid :: t => p = q ∧ pidOf q t = some pid ∧ Event.kill pid ∈ t ∨ Doomed q t
  | .trap p :: t => p = q ∨ Doomed q t
  | _ :: t => Doomed q t

/-! ## What a step does -/

/-- A child that `fork` is about to make RUNNABLE is its own. -/
structure Places (w : World N) : Prop where
  child : ∀ x q, w.pos x = .forked q → w.state q = .used
  own : ∀ x x' q, w.pos x = .forked q → w.pos x' = .forked q → x = x'

variable {init : Fin N} {w w' : World N} {e : Event N} {t : List (Event N)}

theorem Places.step (h : Places w) (hs : Step init w e w') : Places w' := by
  obtain ⟨hchild,hown⟩ := h
  constructor
  · cases hs <;> simp only [World.freeproc] <;> grind -ring -linarith
  · cases hs <;> simp only [World.freeproc] <;> grind -ring -linarith

def Effect (w w' : World N) : Event N → Prop
  | .born q pid => w.state q = .unused ∧ ∀ p, w'.pid p = (if p = q then pid else w.pid p) ∧
      w'.killed p = w.killed p ∧ (w'.state p = .unused ↔ p ≠ q ∧ w.state p = .unused)
  | .freed q => ∀ p, w'.pid p = (if p = q then 0 else w.pid p) ∧
      w'.killed p = (if p = q then false else w.killed p) ∧ (w'.state p = .unused ↔ p = q ∨ w.state p = .unused)
  | .hit q pid => w.pid q = pid ∧ (∃ x j, w.pos x = .kill pid j) ∧ ∀ p, w'.pid p = w.pid p ∧
      w'.killed p = (if p = q then true else w.killed p) ∧ (w'.state p = .unused ↔ w.state p = .unused)
  | .trap q => w.state q = .running ∧ ∀ p, w'.pid p = w.pid p ∧
      w'.killed p = (if p = q then true else w.killed p) ∧ (w'.state p = .unused ↔ w.state p = .unused)
  | .kill _ | .other => ∀ p, w'.pid p = w.pid p ∧ w'.killed p = w.killed p ∧
      (w'.state p = .unused ↔ w.state p = .unused)

theorem Step.effect (h : Places w) (hs : Step init w e w') : Effect w w' e := by
  have hchild := h.child
  cases hs <;> simp only [Effect,World.freeproc] <;> grind -ring -linarith

theorem Step.call (hs : Step init w e w') {x : Fin N} {pid : BitVec 32} {j : ℕ} (hx : w'.pos x = .kill pid j) :
    (∃ j, w.pos x = .kill pid j) ∨ e = .kill pid := by
  cases hs <;> simp only [World.freeproc] at hx <;> grind -ring -linarith

/-! ## Without `kill(0)` -/

structure Inv (w : World N) (t : List (Event N)) : Prop where
  places : Places w
  free : ∀ q, w.state q = .unused → w.pid q = 0 ∧ w.killed q = false
  live : ∀ q, w.state q ≠ .unused → pidOf q t = some (w.pid q)
  killed : ∀ q, w.killed q = true → Doomed q t
  call : ∀ x pid j, w.pos x = .kill pid j → pid ≠ 0 ∧ Event.kill pid ∈ t

theorem Inv.initial (h : Initial init w) : Inv w [.born init 1] := by
  obtain ⟨hrun,hpid,hunused,hkilled,hpos,-⟩ := h
  have hfree : ∀ q, w.state q = .unused → q ≠ init := by
    rintro q hq rfl
    rw [hrun] at hq
    cases hq
  constructor
  · exact ⟨fun x q hx => (by rw [hpos] at hx; cases hx),fun x x' q hx => (by rw [hpos] at hx; cases hx)⟩
  · exact fun q hq => ⟨(hunused q (hfree q hq)).2,hkilled q⟩
  · intro q hq
    obtain rfl : q = init := by
      by_contra hne
      exact hq (hunused q hne).1
    rw [hpid]
    exact if_pos rfl
  · intro q hq
    rw [hkilled] at hq
    cases hq
  · intro x pid j hx
    rw [hpos] at hx
    cases hx

theorem Inv.step (h : Inv w t) (hs : Step init w e w') (he : e ≠ .kill 0) : Inv w' (e :: t) := by
  obtain ⟨hplaces,hfree,hlive,hkilled,hcall⟩ := h
  have heff := hs.effect hplaces
  have hstepcall : ∀ x pid j, w'.pos x = .kill pid j → pid ≠ 0 ∧ Event.kill pid ∈ e :: t := by
    intro x pid j hx
    rcases hs.call hx with ⟨i,hi⟩ | rfl
    · exact ⟨(hcall x pid i hi).1,List.mem_cons_of_mem _ (hcall x pid i hi).2⟩
    · exact ⟨fun h0 => he (by rw [h0]),List.mem_cons_self⟩
  refine ⟨hplaces.step hs,?_,?_,?_,hstepcall⟩
  all_goals clear hs hstepcall hplaces
  · cases e <;> simp only [Effect] at heff <;> grind -ring -linarith
  · cases e <;> simp only [Effect,pidOf] at heff ⊢ <;> grind -ring -linarith
  · cases e <;> simp only [Effect,Doomed] at heff ⊢ <;> grind -ring -linarith

theorem Run.inv (h : Run init w t) (hne : Event.kill 0 ∉ t) : Inv w t := by
  induction h with
  | init h => exact .initial h
  | step _ hs ih =>
    rw [List.mem_cons,not_or] at hne
    exact (ih hne.2).step hs (Ne.symm hne.1)

/-- As long as nobody calls `kill(0)`, only the target of a `kill` and a process with a fatal trap
are marked, and no process is born marked. -/
theorem kill_marks_target (h : Run init w t) (hne : Event.kill 0 ∉ t) :
    (∀ q, w.killed q = true → (∃ pid, pidOf q t = some pid) ∧ Doomed q t) ∧
      (∀ q, w.state q = .unused → w.killed q = false) ∧
      ∀ q pid w', Step init w (.born q pid) w' → w'.killed q = false := by
  obtain ⟨-,hfree,hlive,hkilled,-⟩ := h.inv hne
  refine ⟨fun q hq => ⟨?_,hkilled q hq⟩,fun q hq => (hfree q hq).2,fun q pid w' hs => ?_⟩
  · refine ⟨w.pid q,hlive q fun hu => ?_⟩
    rw [(hfree q hu).2] at hq
    cases hq
  · cases hs with
    | forkAlloc _ _ hu => exact (hfree q hu).2

def boot : World NPROC where
  state := fun q => if q = 0 then .runnable else .unused
  pid := fun q => if q = 0 then 1 else 0
  killed := fun _ => false
  pos := fun _ => .run
  nextpid := 2

theorem boot_initial : Initial 0 boot where
  runnable := rfl
  pid := rfl
  unused := fun _ hq => ⟨if_neg hq,if_neg hq⟩
  killed := fun _ => rfl
  pos := fun _ => rfl
  nextpid := rfl

/-- init forks and kills its child by its pid. -/
theorem kill_marks_target_child : ∃ (w : World NPROC) (t : List (Event NPROC)), Run 0 w t ∧ Event.kill 0 ∉ t ∧
    w.killed 1 = true ∧ Doomed 1 t := by
  have h := Run.init boot_initial
  have h := h.step (.dispatch (x := 0) rfl)
  have h := h.step (.forkAlloc (x := 0) (q := 1) rfl rfl rfl)
  have h := h.step (.forkDone (x := 0) (q := 1) rfl rfl)
  have h := h.step (@Step.kill _ _ _ 0 2 rfl rfl)
  have h := h.step (.killSkip (x := 0) (q := 0) rfl rfl (show (1 : BitVec 32) ≠ 2 by decide))
  have h := h.step (.killHit (x := 0) (q := 1) rfl rfl rfl)
  have hne : Event.kill 0 ∉ ([.hit 1 2,.other,.kill 2,.other,.born 1 2,.other,.born 0 1] : List (Event NPROC)) := by simp
  exact ⟨_,_,h,hne,rfl,((kill_marks_target h hne).1 1 rfl).2⟩

/-- init calls `kill(0)`, which marks the first free slot, and then forks: the child is born marked,
and nobody has called `kill` with its pid. -/
theorem born_killed : ∃ (w : World NPROC) (t : List (Event NPROC)), Run 0 w t ∧ w.state 1 = .unused ∧ w.killed 1 = true ∧
    ∃ (w' : World NPROC) (pid : BitVec 32), Step 0 w (.born 1 pid) w' ∧ w'.killed 1 = true ∧
      ¬Doomed 1 (.born 1 pid :: t) ∧ ∀ pid', Event.kill pid' ∈ t → pid' ≠ pid := by
  have h := Run.init boot_initial
  have h := h.step (.dispatch (x := 0) rfl)
  have h := h.step (@Step.kill _ _ _ 0 0 rfl rfl)
  have h := h.step (.killSkip (x := 0) (q := 0) rfl rfl (show (1 : BitVec 32) ≠ 0 by decide))
  have h := h.step (.killHit (x := 0) (q := 1) rfl rfl rfl)
  refine ⟨_,_,h,rfl,rfl,_,2,.forkAlloc (x := 0) (q := 1) rfl rfl rfl,rfl,fun hd => hd.1 rfl,fun pid' hp => ?_⟩
  obtain rfl : pid' = 0 := by simpa using hp
  decide

end Xv6.KillProtocol
