import Xv6.Kernel.State
import Xv6.Proc.Sched

/-! # `fork`, `exit`, `wait` and `kill`

Every section under a `p->lock` is one step; `wait_lock` is held over many. The loops of `wait`,
`reparent` and `wakeup` over the process table take one step for each slot.
-/
namespace Xv6.WaitProtocol
open SchedProtocol (ProcState)
open Library
open Function (update update_of_ne update_self)

inductive Chan (N : ℕ)
  /-- the address of a `struct proc`, on which only `wait` sleeps -/
  | proc (p : Fin N)
  | other (k : ℕ)
  deriving DecidableEq

inductive After
  | reparent (status : BitVec 32) (j : ℕ)
  | zombify (status : BitVec 32)

inductive Pos (N : ℕ)
  | run
  /-- in `fork`, before `acquire(&wait_lock)` -/
  | forked (np : Fin N)
  /-- in `fork`, after `release(&wait_lock)` -/
  | parented (np : Fin N)
  /-- in `wait`, at `acquire(&wait_lock)`, the one in `sleep` included -/
  | wait (addr : ℕ)
  | scan (addr j : ℕ) (havekids : Bool)
  /-- in `wait`, before `sleep` -/
  | nap (addr : ℕ)
  /-- in `exit`, before `acquire(&wait_lock)` -/
  | exit (status : BitVec 32)
  | reparent (status : BitVec 32) (j : ℕ)
  /-- in `wakeup(chan)` at slot `r` -/
  | wakeup (chan : Option (Chan N)) (r : ℕ) (after : After)
  /-- in `exit`, before `acquire(&p->lock)` -/
  | zombify (status : BitVec 32)
  | dead

def After.pos {N : ℕ} : After → Pos N
  | .reparent st j => .reparent st j
  | .zombify st => .zombify st

structure World (N : ℕ) where
  state : Fin N → ProcState
  chan : Fin N → Option (Chan N)
  killed : Fin N → Bool
  xstate : Fin N → BitVec 32
  pid : Fin N → BitVec 32
  parent : Fin N → Option (Fin N)
  mem : Fin N → UserMem
  pos : Fin N → Pos N
  wait_lock : Option (Fin N)
  nextpid : BitVec 32

/-- What a run is judged by: who became whose parent, who exited, and what `wait` returned. -/
inductive Event (N : ℕ)
  | fork (p np : Fin N)
  | reparent (pp : Fin N)
  | exit (p : Fin N) (pid xstate : BitVec 32)
  /-- `wait` of `p` returned the pid; `got` is the `int` at `addr` then, if `addr` is not 0 -/
  | reap (p pp : Fin N) (pid : BitVec 32) (got : Option (BitVec 32))
  | copyFails (p pp : Fin N)
  | other

variable {N : ℕ}

def World.freeproc (w : World N) (q : Fin N) : World N :=
  { w with
    state := update w.state q .unused
    chan := update w.chan q none
    killed := update w.killed q false
    xstate := update w.xstate q 0
    pid := update w.pid q 0
    parent := update w.parent q none }

section Freeproc
variable (w : World N) (q p : Fin N)

@[grind =] theorem World.freeproc_state : (w.freeproc q).state p = update w.state q .unused p := rfl
@[grind =] theorem World.freeproc_chan : (w.freeproc q).chan p = update w.chan q none p := rfl
@[grind =] theorem World.freeproc_xstate : (w.freeproc q).xstate p = update w.xstate q 0 p := rfl
@[grind =] theorem World.freeproc_pid : (w.freeproc q).pid p = update w.pid q 0 p := rfl
@[grind =] theorem World.freeproc_parent : (w.freeproc q).parent p = update w.parent q none p := rfl
@[grind =] theorem World.freeproc_pos : (w.freeproc q).pos p = w.pos p := rfl
@[grind =] theorem World.freeproc_wait_lock : (w.freeproc q).wait_lock = w.wait_lock := rfl

end Freeproc

def readInt (u : UserMem) (addr : ℕ) : BitVec 32 :=
  BitVec.ofNat 32 (ofLe ((List.range 4).map fun i => u.byte (addr + i)))

/-- `copyout(p->pagetable, addr, (char *)&pp->xstate, sizeof(pp->xstate))` -/
def copyXstate (u : UserMem) (addr : ℕ) (xstate : BitVec 32) : UserMem × Bool :=
  u.copyout addr (leBytes 4 xstate.toNat)

/-- The moves of a process that change nothing but its place in the code. -/
inductive Move (init : Fin N) (w : World N) (x : Fin N) : Pos N → Pos N → Prop
  | wait {addr : ℕ} : w.state x = .running → Move init w x .run (.wait addr)
  | scanSkip {q : Fin N} {addr : ℕ} {havekids : Bool} : w.parent q ≠ some x →
      Move init w x (.scan addr q.val havekids) (.scan addr (q.val + 1) havekids)
  | scanAlive {q : Fin N} {addr : ℕ} {havekids : Bool} : w.parent q = some x → w.state q ≠ .zombie →
      Move init w x (.scan addr q.val havekids) (.scan addr (q.val + 1) true)
  | scanDone {addr : ℕ} : w.killed x = false → Move init w x (.scan addr N true) (.nap addr)
  -- panics in init
  | exit {st : BitVec 32} : w.state x = .running → x ≠ init → Move init w x .run (.exit st)
  | reparentSkip {q : Fin N} {st : BitVec 32} : w.parent q ≠ some x →
      Move init w x (.reparent st q.val) (.reparent st (q.val + 1))
  | reparentDone {st : BitVec 32} :
      Move init w x (.reparent st N) (.wakeup ((w.parent x).map .proc) 0 (.zombify st))
  | wakeupSkip {q : Fin N} {c : Option (Chan N)} {after : After} :
      ¬(q ≠ x ∧ w.state q = .sleeping ∧ w.chan q = c) →
      Move init w x (.wakeup c q.val after) (.wakeup c (q.val + 1) after)
  | wakeupDone {c : Option (Chan N)} {after : After} : Move init w x (.wakeup c N after) after.pos

inductive Step (init : Fin N) : World N → Event N → World N → Prop
  | move {w : World N} {x : Fin N} {p : Pos N} : Move init w x (w.pos x) p →
      Step init w .other { w with pos := update w.pos x p }
  -- the scheduler; `p->chan = 0` after a sleep is under the lock that `scheduler` acquired
  | dispatch {w : World N} {x : Fin N} : w.state x = .runnable →
      Step init w .other { w with
        state := update w.state x .running
        chan := update w.chan x none }
  | yield {w : World N} {x : Fin N} : w.state x = .running → w.wait_lock ≠ some x →
      Step init w .other { w with state := update w.state x .runnable }
  | sleepOther {w : World N} {x : Fin N} {k : ℕ} : w.state x = .running →
      w.pos x = .run ∨ (∃ st, w.pos x = .exit st) →
      Step init w .other { w with
        state := update w.state x .sleeping
        chan := update w.chan x (some (.other k)) }
  | wakeOther {w : World N} {q : Fin N} {k : ℕ} : w.state q = .sleeping → w.chan q = some (.other k) →
      Step init w .other { w with state := update w.state q .runnable }
  | user {w : World N} {x : Fin N} {u : UserMem} : w.state x = .running → w.pos x = .run →
      Step init w .other { w with mem := update w.mem x u }
  -- `kill(0)` finds a slot that is not in use
  | kill {w : World N} {x q : Fin N} : w.state x = .running → w.pos x = .run →
      Step init w .other { w with
        killed := update w.killed q true
        state := update w.state q (if w.state q = .sleeping then .runnable else w.state q) }
  | setkilled {w : World N} {x : Fin N} : w.state x = .running → w.pos x = .run →
      Step init w .other { w with killed := update w.killed x true }
  | forkAlloc {w : World N} {x q : Fin N} : w.state x = .running → w.pos x = .run → w.state q = .unused →
      Step init w .other { w with
        state := update w.state q .used
        pid := update w.pid q w.nextpid
        mem := update w.mem q (w.mem x)
        nextpid := w.nextpid + 1
        pos := update w.pos x (.forked q) }
  | forkFails {w : World N} {x q : Fin N} : w.state x = .running → w.pos x = .run → w.state q = .unused →
      Step init w .other { w.freeproc q with nextpid := w.nextpid + 1 }
  | setParent {w : World N} {x q : Fin N} : w.state x = .running → w.pos x = .forked q → w.wait_lock = none →
      Step init w (.fork x q) { w with
        parent := update w.parent q (some x)
        pos := update w.pos x (.parented q) }
  | setRunnable {w : World N} {x q : Fin N} : w.state x = .running → w.pos x = .parented q →
      Step init w .other { w with
        state := update w.state q .runnable
        pos := update w.pos x .run }
  | waitAcquire {w : World N} {x : Fin N} {addr : ℕ} : w.state x = .running → w.pos x = .wait addr →
      w.wait_lock = none →
      Step init w .other { w with
        wait_lock := some x
        pos := update w.pos x (.scan addr 0 false) }
  | scanReap {w : World N} {x q : Fin N} {addr : ℕ} {havekids : Bool} {u : UserMem} :
      w.pos x = .scan addr q.val havekids → w.parent q = some x → w.state q = .zombie →
      (if addr = 0 then u = w.mem x else copyXstate (w.mem x) addr (w.xstate q) = (u,true)) →
      Step init w (.reap x q (w.pid q) (if addr = 0 then none else some (readInt u addr))) { w.freeproc q with
        mem := update w.mem x u
        wait_lock := none
        pos := update (update w.pos q .run) x .run }
  | scanCopyFails {w : World N} {x q : Fin N} {addr : ℕ} {havekids : Bool} {u : UserMem} :
      w.pos x = .scan addr q.val havekids → w.parent q = some x → w.state q = .zombie →
      addr ≠ 0 → copyXstate (w.mem x) addr (w.xstate q) = (u,false) →
      Step init w (.copyFails x q) { w with
        mem := update w.mem x u
        wait_lock := none
        pos := update w.pos x .run }
  | scanFails {w : World N} {x : Fin N} {addr : ℕ} {havekids : Bool} : w.pos x = .scan addr N havekids →
      havekids = false ∨ w.killed x = true →
      Step init w .other { w with
        wait_lock := none
        pos := update w.pos x .run }
  | waitSleep {w : World N} {x : Fin N} {addr : ℕ} : w.pos x = .nap addr →
      Step init w .other { w with
        state := update w.state x .sleeping
        chan := update w.chan x (some (.proc x))
        wait_lock := none
        pos := update w.pos x (.wait addr) }
  | exitAcquire {w : World N} {x : Fin N} {st : BitVec 32} : w.state x = .running → w.pos x = .exit st →
      w.wait_lock = none →
      Step init w .other { w with
        wait_lock := some x
        pos := update w.pos x (.reparent st 0) }
  | reparent {w : World N} {x q : Fin N} {st : BitVec 32} : w.pos x = .reparent st q.val → w.parent q = some x →
      Step init w (.reparent q) { w with
        parent := update w.parent q (some init)
        pos := update w.pos x (.wakeup (some (.proc init)) 0 (.reparent st (q.val + 1))) }
  | exitZombie {w : World N} {x : Fin N} {st : BitVec 32} : w.pos x = .zombify st →
      Step init w (.exit x (w.pid x) st) { w with
        xstate := update w.xstate x st
        state := update w.state x .zombie
        wait_lock := none
        pos := update w.pos x .dead }
  | wakeup {w : World N} {x q : Fin N} {c : Option (Chan N)} {after : After} : w.pos x = .wakeup c q.val after →
      q ≠ x → w.state q = .sleeping → w.chan q = c →
      Step init w .other { w with
        state := update w.state q .runnable
        pos := update w.pos x (.wakeup c (q.val + 1) after) }

structure Initial (init : Fin N) (w : World N) : Prop where
  runnable : w.state init = .runnable
  unused : ∀ p, p ≠ init → w.state p = .unused
  parent : ∀ p, w.parent p = none
  pos : ∀ p, w.pos p = .run
  wait_lock : w.wait_lock = none

inductive Run (init : Fin N) : World N → List (Event N) → Prop
  | init {w : World N} : Initial init w → Run init w []
  | step {w w' : World N} {e : Event N} {t : List (Event N)} : Run init w t → Step init w e w' →
      Run init w' (e :: t)

/-! ## What a history says -/

/-- Pid and exit status of the process in the slot, if it has exited and is not reaped. -/
def exited (q : Fin N) : List (Event N) → Option (BitVec 32 × BitVec 32)
  | [] => none
  | .exit p pid st :: t => if p = q then some (pid,st) else exited q t
  | .reap _ pp _ _ :: t => if pp = q then none else exited q t
  | _ :: t => exited q t

def parentOf (init q : Fin N) : List (Event N) → Option (Fin N)
  | [] => none
  | .fork p np :: t => if np = q then some p else parentOf init q t
  | .reparent pp :: t => if pp = q then some init else parentOf init q t
  | .reap _ pp _ _ :: t => if pp = q then none else parentOf init q t
  | _ :: t => parentOf init q t

/-- No slot's exit is followed by another before it is reaped, and each `wait` that returns a pid
does so to the parent of a process that has exited and is not reaped, with its pid and status. -/
def Orderly (init : Fin N) : List (Event N) → Prop
  | [] => True
  | .exit p _ _ :: t => exited p t = none ∧ Orderly init t
  | .reap p pp pid got :: t =>
    (∃ st, exited pp t = some (pid,st) ∧ ∀ v, got = some v → v = st) ∧
      parentOf init pp t = some p ∧ Orderly init t
  | _ :: t => Orderly init t

/-! ## The invariant -/

def ProcState.Live (st : ProcState) : Prop := st = .runnable ∨ st = .running ∨ st = .sleeping

def Pos.Holds : Pos N → Prop
  | .scan _ _ _ | .nap _ | .reparent _ _ | .wakeup _ _ _ | .zombify _ => True
  | _ => False

def Pos.Exits : Pos N → Prop
  | .exit _ | .reparent _ _ | .wakeup _ _ _ | .zombify _ | .dead => True
  | _ => False

def Pos.passed : Pos N → ℕ
  | .reparent _ j | .wakeup _ _ (.reparent _ j) => j
  | .wakeup _ _ (.zombify _) | .zombify _ | .dead => N
  | _ => 0

def World.Dozes (w : World N) (x : Fin N) : Prop := w.state x = .sleeping ∧ ∃ addr, w.pos x = .wait addr

structure Places (init : Fin N) (w : World N) : Prop where
  lock : ∀ x, w.wait_lock = some x ↔ (w.pos x).Holds
  dead : ∀ x, w.state x = .zombie ↔ w.pos x = .dead
  fresh : ∀ x, w.state x = .unused ∨ w.state x = .used → w.pos x = .run
  exits : ∀ x, (w.pos x).Exits → x ≠ init
  child : ∀ x q, w.pos x = .forked q ∨ w.pos x = .parented q → w.state q = .used
  own : ∀ x x' q, w.pos x = .forked q ∨ w.pos x = .parented q →
    w.pos x' = .forked q ∨ w.pos x' = .parented q → x = x'

structure Parents (init : Fin N) (w : World N) : Prop where
  orphan : ∀ q, w.state q = .unused → w.parent q = none
  live : ∀ q x, w.parent q = some x → ProcState.Live (w.state x)
  passed : ∀ q x, w.parent q = some x → (w.pos x).passed ≤ q.val
  init : ProcState.Live (w.state init)

def World.Alarm (w : World N) (init : Fin N) : Prop :=
  ∃ y r st j, w.pos y = .wakeup (some (.proc init)) r (.reparent st j) ∧ r ≤ init.val

structure Wakes (init : Fin N) (w : World N) : Prop where
  chan : ∀ x, w.Dozes x → w.chan x = some (.proc x)
  scan : ∀ x addr j havekids q, w.pos x = .scan addr j havekids → w.parent q = some x → q.val < j →
    w.state q ≠ .zombie
  nap : ∀ x addr q, w.pos x = .nap addr → w.parent q = some x → w.state q ≠ .zombie
  zombie : ∀ q x, w.parent q = some x → w.Dozes x → w.state q = .zombie → x = init ∧ w.Alarm init
  zombify : ∀ q x st, w.parent q = some x → w.Dozes x → w.pos q ≠ .zombify st
  wakeup : ∀ q x c r st, w.parent q = some x → w.Dozes x → w.pos q = .wakeup c r (.zombify st) →
    c = some (.proc x) ∧ r ≤ x.val

variable {init x : Fin N} {w w' : World N} {e : Event N} {t : List (Event N)} {p p' : Pos N}

theorem Move.holds_iff (h : Move init w x p p') : p'.Holds ↔ p.Holds := by
  cases h with
  | @wakeupDone c after => cases after <;> simp [Pos.Holds,After.pos]
  | _ => simp [Pos.Holds]

theorem Move.exits (h : Move init w x p p') (hp : p'.Exits) : p.Exits ∨ x ≠ init := by
  cases h with
  | exit _ hx => exact .inr hx
  | _ => simp_all [Pos.Exits]

theorem Move.plain (h : Move init w x p p') :
    (p ≠ .dead ∧ ∀ q, p ≠ .forked q ∧ p ≠ .parented q) ∧
      p' ≠ .run ∧ p' ≠ .dead ∧ ∀ q, p' ≠ .forked q ∧ p' ≠ .parented q := by
  cases h with
  | @wakeupDone c after => cases after <;> simp [After.pos]
  | _ => simp

theorem Move.busy (h : Move init w x p p') (hp : p = .run) : w.state x = .running := by
  cases h with
  | wait h | exit h => exact h
  | _ => cases hp

theorem Step.places (h : Step init w e w') (hi : Places init w) : Places init w' := by
  obtain ⟨hlock,hdead,hfresh,hexits,hchild,hown⟩ := hi
  constructor
  case lock =>
    -- a step that takes or releases `wait_lock` moves its process in or out of the section; a `Move` does neither
    intro x
    have hx := hlock x
    clear hown hchild hexits hfresh hdead
    cases h with
    | @move y p hy =>
      have hsection := hy.holds_iff
      grind
    | _ => grind [Pos.Holds]
  case dead =>
    -- `exit` turns zombie and dead at once, and a slot that is reaped leaves both at once
    clear hown hexits hlock
    intro x
    have hx := hdead x
    cases h with
    | @move y p hy =>
      have hplain := hy.plain
      grind
    | _ => grind
  case fresh =>
    -- what moves is running, so it is no slot that is unused or being set up
    clear hown hexits hlock
    intro x
    have hx := hfresh x
    cases h with
    | @move y p hy =>
      have hrunning := hy.busy
      grind
    | _ => grind
  case exits =>
    -- init never enters `exit`
    clear hown hlock hchild hfresh
    intro x
    have hx := hexits x
    cases h with
    | @move y p hy =>
      have hstays := hy.exits
      grind
    | _ => grind [Pos.Exits]
  case child =>
    -- the slot stays `used` until its own parent makes it runnable
    clear hlock hexits hdead
    intro x q
    have hxq := hchild x q
    cases h with
    | @move y p hy =>
      have hplain := hy.plain
      grind
    | _ => grind
  case own =>
    -- `allocproc` hands out an unused slot, which no other fork has
    clear hlock hexits hdead
    intro x x' q
    have hxq := hown x x' q
    cases h with
    | @move y p hy =>
      have hplain := hy.plain
      grind
    | _ => grind

theorem Move.passed {q : Fin N} (h : Move init w x p p') (hq : w.parent q = some x) (hp : p.passed ≤ q.val) :
    p'.passed ≤ q.val := by
  cases h with
  | @reparentSkip q' st hq' =>
    have : q.val ≠ q'.val := fun h => hq' (Fin.ext h ▸ hq)
    simp only [Pos.passed] at hp ⊢
    omega
  | @wakeupSkip _ _ after | @wakeupDone _ after => cases after <;> exact hp
  | reparentDone => exact hp
  | _ => exact Nat.zero_le _

theorem Pos.passed_eq_zero (h : ¬p.Exits) : p.passed = 0 := by
  cases p with
  | reparent | wakeup | zombify | dead => exact absurd trivial h
  | _ => rfl

theorem Step.parents (h : Step init w e w') (hp : Places init w) (hi : Parents init w) : Parents init w' := by
  obtain ⟨horphan,hlive,hpassed,hinit⟩ := hi
  constructor
  case orphan =>
    -- `fork` gives a parent to a slot that is `used`, and `freeproc` takes it away
    intro q
    have hq := horphan q
    have hused := hp.child
    cases h with
    | _ => grind
  case live =>
    -- a process turns into a zombie when `reparent` has passed the whole table, so nobody has it as a parent then
    intro q x
    have hqx := hlive q x
    have hbehind := hpassed q x
    cases h with
    | @forkAlloc _ q' | @scanReap _ q' | @forkFails _ q' =>
      have hslot := hlive q q'
      grind [ProcState.Live]
    | _ => grind [ProcState.Live,Pos.passed]
  case passed =>
    intro q x
    have hqx := hpassed q x
    cases h with
    | @move y p hy =>
      have hskipped := fun hq => hy.passed (q := q) hq
      grind
    | @reparent y q' st hy hq' =>
      -- the child goes to init, which is not exiting, and `y` is past it
      have hzero : (w.pos init).passed = 0 := Pos.passed_eq_zero fun h => hp.exits init h rfl
      have hne := hp.exits y (by rw [hy]; trivial)
      grind [Pos.passed]
    | @wakeup _ _ _ after => cases after <;> grind [Pos.passed]
    | _ => grind [Pos.passed]
  case init =>
    have hnever := hp.exits init
    cases h with
    | _ => grind [ProcState.Live,Pos.Exits]

theorem Places.holder (hp : Places init w) {x y : Fin N} (hx : (w.pos x).Holds) (hy : (w.pos y).Holds) : x = y := by
  have h := (hp.lock x).mpr hx
  rw [(hp.lock y).mpr hy] at h
  exact (Option.some.inj h).symm

theorem Places.free (hp : Places init w) (h : w.wait_lock = none) (x : Fin N) : ¬(w.pos x).Holds := by
  intro hx
  have := (hp.lock x).mpr hx
  simp [h] at this

/-- While a process is in its scan, nobody gets or changes a parent and nobody turns into a zombie. -/
theorem Step.frozen (h : Step init w e w') (hp : Places init w) {q : Fin N}
    (hx : (∃ addr j havekids, w.pos x = .scan addr j havekids) ∨ ∃ addr, w.pos x = .nap addr) :
    (w'.parent q = some x → w.parent q = some x) ∧ (w'.state q = .zombie → w.state q = .zombie) := by
  have hholds : (w.pos x).Holds := by
    rcases hx with ⟨_,_,_,hx⟩ | ⟨_,hx⟩ <;> rw [hx] <;> trivial
  cases h with
  | setParent _ _ hfree => exact absurd hholds (hp.free hfree x)
  | @reparent y q' st hy hq' =>
    obtain rfl := hp.holder hholds (y := y) (by rw [hy]; trivial)
    simp [hy] at hx
  | @exitZombie y st hy =>
    obtain rfl := hp.holder hholds (y := y) (by rw [hy]; trivial)
    simp [hy] at hx
  | _ => grind

theorem Step.alarm (h : Step init w e w') (hp : Places init w) (hi : Wakes init w) (hx : w'.Dozes init)
    (ha : w.Alarm init) : w'.Alarm init := by
  obtain ⟨y,r,st,j,hy,hr⟩ := ha
  have hne : y ≠ init := hp.exits y (by rw [hy]; trivial)
  cases h with
  | @move z p hz =>
    by_cases hzy : z = y
    · subst hzy
      have hdoze : w.Dozes init := by grind [World.Dozes]
      rw [hy] at hz
      cases hz with
      | @wakeupSkip q _ _ hq =>
        have hq' : q ≠ init := by
          rintro rfl
          exact hq ⟨Ne.symm hne,hdoze.1,hi.chan q hdoze⟩
        refine ⟨z,q.val + 1,st,j,update_self ..,?_⟩
        have : q.val ≠ init.val := fun h => hq' (Fin.ext h)
        omega
      | wakeupDone => exact absurd init.isLt (by omega)
    · exact ⟨y,r,st,j,by rw [← hy]; exact update_of_ne (Ne.symm hzy) .. ,hr⟩
  | @wakeup z q c after hz hqz hq hc =>
    by_cases hzy : z = y
    · subst hzy
      have hq' : q.val ≠ init.val := by
        intro h
        obtain rfl := Fin.ext h
        have := hx.1
        simp at this
      obtain ⟨rfl,rfl,rfl⟩ : c = some (.proc init) ∧ q.val = r ∧ after = .reparent st j := by grind
      exact ⟨z,q.val + 1,st,j,update_self ..,by omega⟩
    · exact ⟨y,r,st,j,by rw [← hy]; exact update_of_ne (Ne.symm hzy) .. ,hr⟩
  | @scanReap z q =>
    have := hp.dead q
    exact ⟨y,r,st,j,by grind,hr⟩
  | _ => exact ⟨y,r,st,j,by grind,hr⟩

theorem Step.new_zombie (h : Step init w e w') (hp : Places init w) (hi : Wakes init w) {q x : Fin N}
    (hq : w'.parent q = some x) (hx : w'.Dozes x) (hz : w'.state q = .zombie) :
    (w.parent q = some x ∧ w.Dozes x ∧ w.state q = .zombie) ∨ (x = init ∧ w'.Alarm init) := by
  cases h with
  | @reparent y q' st hy hq' =>
    by_cases hqq : q = q'
    · subst hqq
      exact .inr ⟨by grind,y,0,st,q.val + 1,update_self ..,Nat.zero_le _⟩
    · exact .inl (by grind [World.Dozes])
  | @exitZombie y st hy =>
    have := hi.zombify q x st
    exact .inl (by grind [World.Dozes])
  | @waitSleep y addr hy =>
    have := hi.nap y addr q hy
    exact .inl (by grind [World.Dozes])
  | @setParent y q' _ hy =>
    have := hp.child y q'
    exact .inl (by grind [World.Dozes])
  | @move y p hy =>
    have := hy.plain
    have hrun := hy.busy
    generalize hpos : w.pos y = p at hy
    refine .inl ⟨hq,?_,hz⟩
    cases hy with
    | @wakeupDone _ after => cases after <;> grind [World.Dozes,After.pos]
    | _ => grind [World.Dozes]
  | _ => exact .inl (by grind [World.Dozes])

theorem Step.wakes (h : Step init w e w') (hp : Places init w) (hpar : Parents init w) (hi : Wakes init w) :
    Wakes init w' := by
  constructor
  case chan =>
    -- only `wait` itself goes to sleep at this position, on the channel of its own process
    intro x
    have hx := hi.chan x
    cases h with
    | @move y p hy =>
      generalize hpos : w.pos y = p at hy
      cases hy with
      | @wakeupDone _ after => cases after <;> grind [World.Dozes,After.pos]
      | _ => grind [World.Dozes]
    | _ => grind [World.Dozes]
  case scan =>
    -- the scan moves on over a child that is no zombie, and meanwhile nothing before it changes
    intro x addr j havekids q hx hq hqj
    have hfrozen := fun hx => h.frozen hp (x := x) (q := q) hx
    have hbefore := hi.scan x addr
    clear hi hp hpar
    cases h with
    | @move y p hy =>
      generalize hpos : w.pos y = p at hy
      cases hy with
      | @wakeupDone _ after => cases after <;> grind [After.pos]
      | _ => grind
    | _ => grind
  case nap =>
    -- a scan that has come to the end of the table has passed every child
    intro x addr q hx hq
    have hfrozen := fun hx => h.frozen hp (x := x) (q := q) hx
    have hwhole := hi.scan x addr N true q
    have hbefore := hi.nap x addr q
    clear hi hp hpar
    cases h with
    | @move y p hy =>
      generalize hpos : w.pos y = p at hy
      cases hy with
      | @wakeupDone _ after => cases after <;> grind [After.pos]
      | _ => grind
    | _ => grind
  case zombie =>
    intro q x hq hx hz
    rcases h.new_zombie hp hi hq hx hz with ⟨hq',hx',hz'⟩ | hnew
    · obtain ⟨rfl,ha⟩ := hi.zombie q x hq' hx' hz'
      exact ⟨rfl,h.alarm hp hi hx ha⟩
    · exact hnew
  case zombify =>
    -- before it, `exit` has gone over the whole table with `wakeup` and found the parent in it
    intro q x st hq hx hz
    have hold := hi.zombify q x st
    have hone := fun y y' => hp.holder (x := y) (y := y')
    have hfree := hp.free
    cases h with
    | @move y p hy =>
      have hlast := fun c => hi.wakeup q x c N st
      have hfar := x.isLt
      generalize hpos : w.pos y = p at hy
      clear hone hfree hi hp hpar
      cases hy with
      | @wakeupDone c after => cases after <;> grind [World.Dozes,After.pos]
      | _ => grind [World.Dozes]
    | @setParent y q' _ hy =>
      -- the child of a fork has not run yet
      have hfresh := hp.fresh q'
      have hused := hp.child y q'
      clear hi hp hpar
      grind [World.Dozes,Pos.Holds]
    | _ =>
      clear hi hp hpar
      grind [World.Dozes,Pos.Holds]
  case wakeup =>
    -- `wakeup` does not skip a parent that sleeps on its own channel
    intro q x c r st hq hx hz
    have hold := hi.wakeup q x
    have hone := fun y y' => hp.holder (x := y) (y := y')
    have hfree := hp.free
    cases h with
    | @move y p hy =>
      have hchan := hi.chan x
      generalize hpos : w.pos y = p at hy
      clear hone hfree hi hp hpar
      cases hy with
      | @wakeupDone c after => cases after <;> grind [World.Dozes,After.pos]
      | _ => grind [World.Dozes]
    | @setParent y q' _ hy =>
      have hfresh := hp.fresh q'
      have hused := hp.child y q'
      clear hi hp hpar
      grind [World.Dozes,Pos.Holds]
    | _ =>
      clear hi hp hpar
      grind [World.Dozes,Pos.Holds]

/-! ## Runs -/

theorem readInt_copyXstate {u u' : UserMem} {addr : ℕ} {v : BitVec 32} (h : copyXstate u addr v = (u',true)) :
    readInt u' addr = v := by
  rw [UserMem.copyout_ok h]
  have hbytes : ((List.range 4).map fun i => (u.put addr (leBytes 4 v.toNat)).byte (addr + i)) =
      leBytes 4 v.toNat := by
    apply List.ext_getElem
    · simp
    · intro i hi hi'
      simp only [leBytes_length] at hi'
      simp [UserMem.put,hi']
  rw [readInt,hbytes,ofLe_leBytes_of_lt (v.isLt.trans_le (by norm_num)),BitVec.ofNat_toNat,BitVec.setWidth_eq]

structure History (init : Fin N) (w : World N) (t : List (Event N)) : Prop where
  exited : ∀ q, exited q t = if w.state q = .zombie then some (w.pid q,w.xstate q) else none
  parent : ∀ q, parentOf init q t = w.parent q
  orderly : Orderly init t

theorem Step.history (h : Step init w e w') (hp : Places init w) (hpar : Parents init w) (hi : History init w t) :
    History init w' (e :: t) := by
  constructor
  case exited =>
    -- only `exit` makes a zombie and only a reap ends one: what becomes runnable or sleeps was none
    intro q
    have hq := hi.exited q
    cases h with
    | @setRunnable x q' =>
      have hused := hp.child x q'
      grind [exited]
    | @waitSleep x =>
      have halive := hp.dead x
      grind [exited]
    | _ => grind [exited]
  case parent =>
    intro q
    have hq := hi.parent q
    have horphan := hpar.orphan q
    cases h with
    | _ => grind [parentOf]
  case orderly =>
    have hbefore := hi.orderly
    cases h with
    | @scanReap x q addr _ u hx hq hz hu =>
      refine ⟨⟨w.xstate q,by rw [hi.exited q,if_pos hz],fun v hv => ?_⟩,(hi.parent q).trans hq,hbefore⟩
      split at hu
      · simp_all
      · simp_all [readInt_copyXstate hu]
    | @exitZombie x st hx =>
      have hz : w.state x ≠ .zombie := by
        rw [Ne,hp.dead x,hx]
        exact fun h => nomatch h
      exact ⟨by rw [hi.exited x,if_neg hz],hbefore⟩
    | _ => exact hbefore

theorem Initial.quiet (h : Initial init w) (x : Fin N) : w.state x = .unused ∨ w.state x = .runnable := by
  by_cases hx : x = init
  · exact .inr (hx ▸ h.runnable)
  · exact .inl (h.unused x hx)

theorem Initial.places (h : Initial init w) : Places init w := by
  constructor <;> intro x
  · simp [h.wait_lock,h.pos x,Pos.Holds]
  · rcases h.quiet x with hx | hx <;> simp [hx,h.pos x]
  · exact fun _ => h.pos x
  · simp [h.pos x,Pos.Exits]
  · simp [h.pos x]
  · simp [h.pos x]

theorem Initial.parents (h : Initial init w) : Parents init w := by
  constructor
  · exact fun q _ => h.parent q
  · simp [h.parent]
  · simp [h.parent]
  · exact .inl h.runnable

theorem Initial.wakes (h : Initial init w) : Wakes init w := by
  constructor <;> intro x <;> simp [World.Dozes,h.pos,h.parent]

theorem Initial.history (h : Initial init w) : History init w [] := by
  constructor
  · intro q
    rcases h.quiet q with hq | hq <;> simp [hq,exited]
  · exact fun q => (h.parent q).symm
  · trivial

theorem Run.inv (h : Run init w t) : Places init w ∧ Parents init w ∧ Wakes init w ∧ History init w t := by
  induction h with
  | init h => exact ⟨h.places,h.parents,h.wakes,h.history⟩
  | step _ h ih =>
    obtain ⟨hp,hpar,hw,hh⟩ := ih
    exact ⟨h.places hp,h.parents hp hpar,h.wakes hp hpar hw,h.history hp hpar hh⟩

/-- In every run of `fork`, `exit`, `wait`, `reparent` and `kill` by any number of processes: nobody sleeps in `wait` while
it has a zombie, every process in use but init has a living parent, and `wait` reaps each child that has exited once, with
its pid and status, or leaves it as it was when the copy of the status fails. -/
theorem wait_loses_no_child (h : Run init w t) :
    (w.wait_lock = none → ∀ x q, w.Dozes x → w.parent q = some x → w.state q ≠ .zombie) ∧
    (∀ q x, w.state q ≠ .unused → q ≠ init → w.parent q = some x → w.state x ≠ .unused ∧ w.state x ≠ .zombie) ∧
    (∀ q, w.state q = .unused → w.parent q = none) ∧
    (Orderly init t ∧
      (∀ q, exited q t = if w.state q = .zombie then some (w.pid q,w.xstate q) else none) ∧
      ∀ q, parentOf init q t = w.parent q) ∧
    (∀ x q w', Step init w (.copyFails x q) w' →
      w'.state q = .zombie ∧ w'.pid q = w.pid q ∧ w'.xstate q = w.xstate q ∧ w'.parent q = some x ∧
      w'.wait_lock = none) := by
  obtain ⟨hp,hpar,hw,hh⟩ := h.inv
  refine ⟨fun hfree x q hx hq hz => ?_,fun q x _ _ hq => ?_,hpar.orphan,⟨hh.orderly,hh.exited,hh.parent⟩,
    fun x q w' hstep => ?_⟩
  · obtain ⟨_,y,r,st,j,hy,_⟩ := hw.zombie q x hq hx hz
    exact hp.free hfree y (by rw [hy]; trivial)
  · rcases hpar.live q x hq with hx | hx | hx <;> simp [hx]
  · cases hstep with
    | scanCopyFails _ hq hz => exact ⟨hz,rfl,rfl,hq,rfl⟩

def boot : World 2 where
  state := fun p => if p = 0 then .runnable else .unused
  chan := fun _ => none
  killed := fun _ => false
  xstate := fun _ => 0
  pid := fun p => if p = 0 then 1 else 0
  parent := fun _ => none
  mem := fun _ => ⟨fun _ => 0,fun _ => true,fun _ => true⟩
  pos := fun _ => .run
  wait_lock := none
  nextpid := 2

theorem boot_initial : Initial 0 boot :=
  ⟨rfl,fun _ hp => if_neg hp,fun _ => rfl,fun _ => rfl,rfl⟩

/-- init forks and sleeps in `wait`; the child exits; init is woken and reaps it. -/
theorem wait_loses_no_child_woken : ∃ (w : World 2) (t : List (Event 2)),
    Run 0 w t ∧ Event.reap 0 1 2 none ∈ t ∧ Orderly 0 t := by
  have h := Run.init boot_initial
  have h := h.step (.dispatch (x := 0) rfl)
  have h := h.step (.forkAlloc (x := 0) (q := 1) rfl rfl rfl)
  have h := h.step (.setParent (x := 0) (q := 1) rfl rfl rfl)
  have h := h.step (.setRunnable (x := 0) (q := 1) rfl rfl)
  have h := h.step (.move (x := 0) (p := .wait 0) (.wait rfl))
  have h := h.step (.waitAcquire (x := 0) rfl rfl rfl)
  have h := h.step (.move (x := 0) (p := .scan 0 1 false) (.scanSkip (q := 0) (fun h => nomatch h)))
  have h := h.step (.move (x := 0) (p := .scan 0 2 true) (.scanAlive (q := 1) rfl (fun h => nomatch h)))
  have h := h.step (.move (x := 0) (p := .nap 0) (.scanDone rfl))
  have h := h.step (.waitSleep (x := 0) rfl)
  have h := h.step (.dispatch (x := 1) rfl)
  have h := h.step (.move (x := 1) (p := .exit 7) (.exit rfl (by decide)))
  have h := h.step (.exitAcquire (x := 1) rfl rfl rfl)
  have h := h.step (.move (x := 1) (p := .reparent 7 1) (.reparentSkip (q := 0) (fun h => nomatch h)))
  have h := h.step (.move (x := 1) (p := .reparent 7 2) (.reparentSkip (q := 1) (fun h => nomatch h)))
  have h := h.step (.move (x := 1) (p := .wakeup (some (.proc 0)) 0 (.zombify 7)) .reparentDone)
  have h := h.step (.wakeup (x := 1) (q := 0) rfl (by decide) rfl rfl)
  have h := h.step (.move (x := 1) (p := .wakeup (some (.proc 0)) 2 (.zombify 7))
    (.wakeupSkip (q := 1) (fun h => h.1 rfl)))
  have h := h.step (.move (x := 1) (p := .zombify 7) (@Move.wakeupDone 2 0 _ 1 _ (.zombify 7)))
  have h := h.step (.exitZombie (x := 1) rfl)
  have h := h.step (.dispatch (x := 0) rfl)
  have h := h.step (.waitAcquire (x := 0) rfl rfl rfl)
  have h := h.step (.move (x := 0) (p := .scan 0 1 false) (.scanSkip (q := 0) (fun h => nomatch h)))
  have h := h.step (.scanReap (x := 0) (q := 1) (u := boot.mem 0) rfl rfl rfl rfl)
  exact ⟨_,_,h,.head _,(wait_loses_no_child h).2.2.2.1.1⟩

end Xv6.WaitProtocol
