import Mathlib

/-! # `scheduler`, `sched` and the locks of processes

Any number of CPUs run any number of processes. A CPU runs its scheduler or is on the kernel
stack of a process; `p->lock` is acquired on one side of `swtch` and released on the other.
Every change of `p->state` is a step of its own between `acquire` and `release`, and `swtch`
out of a process is two steps: its context is complete before its stack is left.
-/
namespace Xv6.SchedProtocol
open Function (update)

inductive ProcState
  | unused | used | sleeping | runnable | running | zombie
  deriving DecidableEq

inductive Stage
  /-- `p->lock` not held for the process itself -/
  | run
  /-- in `yield`, `sleep` or `exit` after `acquire(&p->lock)` -/
  | locked
  /-- in `sched`, before `swtch` -/
  | sched
  /-- in `swtch`, once `p->context` is written -/
  | saved
  /-- back from `swtch`, or at the start of `forkret` -/
  | resumed
  deriving DecidableEq

inductive Core (P : Type)
  /-- in `scheduler`, without a lock -/
  | idle
  /-- in `scheduler`, after `acquire(&p->lock)` -/
  | looking (p : P)
  /-- in `scheduler`, before `swtch(&c->context, &p->context)` -/
  | chosen (p : P)
  /-- on the kernel stack of `p` -/
  | on (p : P) (s : Stage)
  /-- in `scheduler`, after `swtch` -/
  | back (p : P)

/-- The process whose lock a CPU holds in `wakeup`, `kill`, `wait`, `allocproc` or `fork`. -/
inductive Visit (P : Type)
  | look (q : P)
  /-- found unused by `allocproc`; the lock has been held since -/
  | alloc (q : P)

structure World (C P : Type) where
  state : P → ProcState
  /-- the CPU that holds `p->lock` -/
  lock : P → Option C
  /-- `p->context` can be switched to -/
  saved : P → Bool
  /-- what `fork` has allocated and not yet made runnable -/
  child : P → Option P
  /-- `c->proc` -/
  proc : C → Option P
  core : C → Core P
  visit : C → Option (Visit P)

inductive Act (C P : Type)
  | swtch (c : C) (p : P)
  | freeproc (c : C) (q : P)
  | other

section Machine
variable {C P : Type} [DecidableEq C] [DecidableEq P]

inductive Step : World C P → Act C P → World C P → Prop
  -- scheduler
  | acquire {w : World C P} {c : C} {p : P} : w.core c = .idle → w.visit c = none → w.lock p = none →
      Step w .other { w with
        lock := update w.lock p (some c)
        core := update w.core c (.looking p) }
  | skip {w : World C P} {c : C} {p : P} : w.core c = .looking p → w.state p ≠ .runnable →
      Step w .other { w with
        lock := update w.lock p none
        core := update w.core c .idle }
  | choose {w : World C P} {c : C} {p : P} : w.core c = .looking p → w.state p = .runnable →
      Step w .other { w with
        state := update w.state p .running
        proc := update w.proc c (some p)
        core := update w.core c (.chosen p) }
  | swtch {w : World C P} {c : C} {p : P} : w.core c = .chosen p →
      Step w (.swtch c p) { w with
        saved := update w.saved p false
        core := update w.core c (.on p .resumed) }
  | back {w : World C P} {c : C} {p : P} : w.core c = .back p →
      Step w .other { w with
        lock := update w.lock p none
        proc := update w.proc c none
        core := update w.core c .idle }
  -- a process and its own lock
  | resume {w : World C P} {c : C} {p : P} : w.core c = .on p .resumed →
      Step w .other { w with
        lock := update w.lock p none
        core := update w.core c (.on p .run) }
  | lock {w : World C P} {c : C} {p : P} : w.core c = .on p .run → w.visit c = none → w.lock p = none →
      Step w .other { w with
        lock := update w.lock p (some c)
        core := update w.core c (.on p .locked) }
  | yield {w : World C P} {c : C} {p : P} : w.core c = .on p .locked →
      Step w .other { w with
        state := update w.state p .runnable
        core := update w.core c (.on p .sched) }
  | sleep {w : World C P} {c : C} {p : P} : w.core c = .on p .locked →
      Step w .other { w with
        state := update w.state p .sleeping
        core := update w.core c (.on p .sched) }
  | exit {w : World C P} {c : C} {p : P} : w.core c = .on p .locked → w.child p = none →
      Step w .other { w with
        state := update w.state p .zombie
        core := update w.core c (.on p .sched) }
  | save {w : World C P} {c : C} {p : P} : w.core c = .on p .sched →
      Step w .other { w with
        saved := update w.saved p true
        core := update w.core c (.on p .saved) }
  | leave {w : World C P} {c : C} {p : P} : w.core c = .on p .saved →
      Step w .other { w with core := update w.core c (.back p) }
  -- the lock of another process, or of the same one in `kill`
  | visit {w : World C P} {c : C} {q : P} : w.core c = .idle ∨ (∃ p, w.core c = .on p .run) → w.visit c = none →
      w.lock q = none →
      Step w .other { w with
        lock := update w.lock q (some c)
        visit := update w.visit c (some (.look q)) }
  | wakeup {w : World C P} {c : C} {q : P} : w.visit c = some (.look q) → w.state q = .sleeping →
      Step w .other { w with state := update w.state q .runnable }
  | allocproc {w : World C P} {c : C} {p q : P} : w.core c = .on p .run → w.visit c = some (.look q) →
      w.child p = none → w.state q = .unused →
      Step w .other { w with
        state := update w.state q .used
        saved := update w.saved q true
        visit := update w.visit c (some (.alloc q)) }
  | allocFails {w : World C P} {c : C} {q : P} : w.visit c = some (.alloc q) →
      Step w (.freeproc c q) { w with
        state := update w.state q .unused
        visit := update w.visit c (some (.look q)) }
  | forked {w : World C P} {c : C} {p q : P} : w.core c = .on p .run → w.visit c = some (.alloc q) →
      Step w .other { w with
        lock := update w.lock q none
        child := update w.child p (some q)
        visit := update w.visit c none }
  | makeRunnable {w : World C P} {c : C} {p q : P} : w.core c = .on p .run → w.visit c = some (.look q) →
      w.child p = some q →
      Step w .other { w with
        state := update w.state q .runnable
        child := update w.child p none }
  | reap {w : World C P} {c : C} {q : P} : w.visit c = some (.look q) → w.state q = .zombie →
      Step w (.freeproc c q) { w with state := update w.state q .unused }
  | unlock {w : World C P} {c : C} {q : P} : w.visit c = some (.look q) →
      Step w .other { w with
        lock := update w.lock q none
        visit := update w.visit c none }

structure Initial (w : World C P) : Prop where
  state : ∀ p, w.state p = .unused ∨ w.state p = .runnable ∧ w.saved p = true
  lock : ∀ p, w.lock p = none
  child : ∀ p, w.child p = none
  proc : ∀ c, w.proc c = none
  core : ∀ c, w.core c = .idle
  visit : ∀ c, w.visit c = none

inductive Reachable : World C P → Prop
  | init {w : World C P} : Initial w → Reachable w
  | step {w w' : World C P} {a : Act C P} : Reachable w → Step w a w' → Reachable w'

end Machine

/-! ## The invariant -/

section Invariant
variable {C P : Type}

/-- The process a CPU has in `c->proc`. -/
def Core.proc : Core P → Option P
  | .idle | .looking _ => none
  | .chosen p | .on p _ | .back p => some p

/-- The process whose lock the CPU holds in `scheduler`, or around `swtch`. -/
def Core.locks : Core P → Option P
  | .idle | .on _ .run => none
  | .looking p | .chosen p | .on p _ | .back p => some p

def Visit.proc : Visit P → P
  | .look q | .alloc q => q

def ProcState.Away (st : ProcState) : Prop := st = .runnable ∨ st = .sleeping ∨ st = .zombie

/-- What holds of a process that a CPU has in `c->proc`. -/
def Core.Fits (st : ProcState) (saved : Bool) : Core P → Prop
  | .idle | .looking _ => True
  | .chosen _ => st = .running ∧ saved = true
  | .on _ .run | .on _ .locked | .on _ .resumed => st = .running
  | .on _ .sched => st.Away
  | .on _ .saved | .back _ => st.Away ∧ saved = true

def World.Holds (w : World C P) (c : C) (p : P) : Prop :=
  (w.core c).locks = some p ∨ ∃ v, w.visit c = some v ∧ v.proc = p

structure Locks (w : World C P) : Prop where
  lock : ∀ c p, w.lock p = some c ↔ w.Holds c p
  apart : ∀ c v, w.visit c = some v → (w.core c).locks = none

structure Cpus (w : World C P) : Prop where
  proc : ∀ c, w.proc c = (w.core c).proc
  single : ∀ c c' p, (w.core c).proc = some p → (w.core c').proc = some p → c = c'

structure States (w : World C P) : Prop where
  on : ∀ c p, (w.core c).proc = some p → (w.core c).Fits (w.state p) (w.saved p)
  off : ∀ p, (∀ c, (w.core c).proc ≠ some p) → w.state p ≠ .running ∧ (w.state p ≠ .unused → w.saved p = true)
  alloc : ∀ c q, w.visit c = some (.alloc q) → w.state q = .used
  child : ∀ p q, w.child p = some q → w.state q = .used ∧ ∀ c, w.visit c ≠ some (.alloc q)
  own : ∀ p p' q, w.child p = some q → w.child p' = some q → p = p'

variable [DecidableEq C] [DecidableEq P] {w w' : World C P} {a : Act C P}

theorem Step.locks (h : Step w a w') (hi : Locks w) : Locks w' := by
  obtain ⟨hlock,hapart⟩ := hi
  constructor
  case lock =>
    intro c p
    have hcp := hlock c p
    cases h with
    | @acquire c' p' | @lock c' p' | @visit c' p' =>
      -- a lock is taken when nobody holds it
      have hnobody := hlock c' p'
      grind [World.Holds,Core.locks,Visit.proc]
    | @skip c' p' | @back c' p' | @resume c' p' | @unlock c' p' | @forked c' _ p' =>
      -- and released by the one CPU that does
      have howner := hlock c' p'
      have hother := hlock c p'
      grind [World.Holds,Core.locks,Visit.proc]
    | _ => grind [World.Holds,Core.locks,Visit.proc]
  case apart =>
    intro c v
    have hcv := hapart c
    cases h with
    | _ => grind [Core.locks]

omit [DecidableEq C] [DecidableEq P] in
/-- A process whose lock is held by someone who only looks at it is on no CPU, unless it runs. -/
theorem States.not_on (hs : States w) (hl : Locks w) {c : C} {p : P} (hh : w.Holds c p)
    (hc : (w.core c).proc = some p → (w.core c).locks = none) (hst : w.state p ≠ .running) (c' : C) :
    (w.core c').proc ≠ some p := by
  intro hp
  have hfit := hs.on c' p hp
  by_cases hlocks : (w.core c').locks = some p
  · have h := (hl.lock c p).mpr hh
    rw [(hl.lock c' p).mpr (.inl hlocks)] at h
    obtain rfl := Option.some.inj h
    rw [hc hp] at hlocks
    cases hlocks
  · cases hcore : w.core c' with
    | on p' s => cases s <;> simp_all [Core.proc,Core.locks,Core.Fits]
    | _ => simp_all [Core.proc,Core.locks]

omit [DecidableEq C] [DecidableEq P] in
theorem States.not_on_looking (hs : States w) (hl : Locks w) {c : C} {p : P} (hc : w.core c = .looking p)
    (hst : w.state p ≠ .running) : ∀ c', (w.core c').proc ≠ some p :=
  hs.not_on hl (c := c) (.inl (by rw [hc]; rfl)) (by rw [hc]; exact fun h => nomatch h) hst

omit [DecidableEq C] [DecidableEq P] in
theorem States.not_on_visit (hs : States w) (hl : Locks w) {c : C} {v : Visit P} (hv : w.visit c = some v)
    (hst : w.state v.proc ≠ .running) : ∀ c', (w.core c').proc ≠ some v.proc :=
  hs.not_on hl (c := c) (.inr ⟨v,hv,rfl⟩) (fun _ => hl.apart c v hv) hst

theorem Step.cpus (h : Step w a w') (hl : Locks w) (hs : States w) (hi : Cpus w) : Cpus w' := by
  obtain ⟨hproc,hsingle⟩ := hi
  constructor
  case proc =>
    intro c
    have hc := hproc c
    cases h with
    | _ => grind [Core.proc]
  case single =>
    intro c c' p
    have hcp := hsingle c c' p
    cases h with
    | @choose d q hd hq =>
      -- the scheduler chooses a runnable process under its lock, so no other CPU has it
      have hnone := hs.not_on_looking hl hd (by simp [hq])
      grind [Core.proc]
    | _ => grind [Core.proc]

theorem Step.states (h : Step w a w') (hl : Locks w) (hc : Cpus w) (hi : States w) : States w' := by
  have hon := hi.on
  have hoff := hi.off
  have halloc := hi.alloc
  have hchild := hi.child
  constructor
  case on =>
    intro c p
    have hcp := hon c p
    cases h with
    -- a state is changed from outside only when the process is on no CPU
    | @choose d q hd hq =>
      have hnone := hi.not_on_looking hl hd (by simp [hq])
      grind [Core.proc,Core.Fits]
    | @wakeup d q hv hq | @allocproc d _ q _ hv _ hq | @reap d q hv hq =>
      have hnone := hi.not_on_visit hl hv (by simp [Visit.proc,hq])
      grind [Core.proc,Core.Fits,Visit.proc]
    | @allocFails d q hv =>
      have hnone := hi.not_on_visit hl hv (by simp [Visit.proc,halloc d q hv])
      grind [Core.proc,Core.Fits,Visit.proc]
    | @makeRunnable d r q _ hv hq =>
      have hnone := hi.not_on_visit hl hv (by simp [Visit.proc,(hchild r q hq).1])
      grind [Core.proc,Core.Fits,Visit.proc]
    -- a process that changes its own is on this CPU only
    | @swtch d q hd | @yield d q hd | @sleep d q hd | @exit d q hd | @save d q hd | @leave d q hd | @resume d q hd
    | @lock d q hd | @back d q hd | @skip d q hd =>
      have hself := hon d q
      have honly := hc.single c d q
      grind [Core.proc,Core.Fits,ProcState.Away]
    | _ => grind [Core.proc,Core.Fits]
  case off =>
    intro p hp
    -- a process that is on no CPU now was on none before, unless its CPU has just gone back
    cases h with
    | @back d q hd =>
      have hleft := hon d q
      have hold := hoff p
      by_cases hpq : p = q
      · grind [Core.proc,Core.Fits,ProcState.Away]
      · refine hold fun c hcp => ?_
        have hpc := hp c
        grind [Core.proc]
    | @choose d q hd hq | @swtch d q hd | @yield d q hd | @sleep d q hd | @exit d q hd | @save d q hd | @leave d q hd
    | @resume d q hd | @lock d q hd | @skip d q hd | @acquire d q hd =>
      have hpd := hp d
      have hold := hoff p fun c hcp => by
        have hpc := hp c
        grind [Core.proc]
      grind [Core.proc]
    | _ => grind
  case alloc =>
    intro c q hv
    cases h with
    | @yield d p hd | @sleep d p hd | @exit d p hd =>
      -- `p` was running, so it is not the slot being set up
      have hrunning := hon d p
      grind [Core.proc,Core.Fits]
    | @allocFails d p hd =>
      -- both CPUs would hold the lock of the slot
      have hone := (hl.lock c q).mpr
      have hother := (hl.lock d p).mpr (.inr ⟨_,hd,rfl⟩)
      grind [World.Holds,Visit.proc]
    | _ => grind
  case child =>
    intro p q hp
    have hown := hi.own
    cases h with
    | @yield d r hd | @sleep d r hd | @exit d r hd =>
      have hrunning := hon d r
      grind [Core.proc,Core.Fits]
    | @forked d r q' hd hv =>
      have hd' := (hl.lock d q').mpr (.inr ⟨_,hv,rfl⟩)
      have hone : ∀ c, w.visit c = some (.alloc q') → c = d := fun c hc' => by
        have hheld := (hl.lock c q').mpr (.inr ⟨_,hc',rfl⟩)
        grind
      clear hl hc hon hoff
      grind
    | _ => grind
  case own =>
    have hown := hi.own
    intro p p' q hp hp'
    cases h with
    | _ => grind

omit [DecidableEq C] [DecidableEq P] in
theorem Initial.locks (h : Initial w) : Locks w := by
  constructor
  · intro c p
    simp [World.Holds,h.lock p,h.core c,h.visit c,Core.locks]
  · intro c v hv
    simp [h.visit c] at hv

omit [DecidableEq C] [DecidableEq P] in
theorem Initial.cpus (h : Initial w) : Cpus w := by
  constructor
  · intro c
    rw [h.proc c,h.core c]
    rfl
  · intro c c' p hc
    simp [h.core c,Core.proc] at hc

omit [DecidableEq C] [DecidableEq P] in
theorem Initial.states (h : Initial w) : States w := by
  constructor
  · intro c p hc
    simp [h.core c,Core.proc] at hc
  · intro p _
    rcases h.state p with hp | ⟨hp,hsaved⟩
    · simp [hp]
    · simp [hp,hsaved]
  · intro c q hv
    simp [h.visit c] at hv
  · intro p q hp
    simp [h.child p] at hp
  · intro p p' q hp
    simp [h.child p] at hp

theorem Reachable.inv (h : Reachable w) : Locks w ∧ Cpus w ∧ States w := by
  induction h with
  | init h => exact ⟨h.locks,h.cpus,h.states⟩
  | step _ h ih =>
    obtain ⟨hl,hc,hs⟩ := ih
    exact ⟨h.locks hl,h.cpus hl hs hc,h.states hl hc hs⟩

omit [DecidableEq C] [DecidableEq P] in
theorem States.running_of_free (hs : States w) (hl : Locks w) {c : C} {p : P} (hfree : w.lock p = none)
    (hp : (w.core c).proc = some p) : w.state p = .running := by
  have hfit := hs.on c p hp
  have hnot : (w.core c).locks ≠ some p := by
    intro h
    have := (hl.lock c p).mpr (.inl h)
    simp [hfree] at this
  cases hcore : w.core c with
  | on p' s => cases s <;> simp_all [Core.proc,Core.locks,Core.Fits]
  | _ => simp_all [Core.proc,Core.locks]

omit [DecidableEq C] [DecidableEq P] in
theorem States.running_iff (hs : States w) (hl : Locks w) (hc : Cpus w) {p : P} (hfree : w.lock p = none) :
    w.state p = .running ↔ ∃! c, w.proc c = some p := by
  simp only [hc.proc]
  constructor
  · intro hrun
    by_contra hnone
    have hoff : ∀ c, (w.core c).proc ≠ some p := fun c hp =>
      hnone ⟨c,hp,fun c' hp' => hc.single c' c p hp' hp⟩
    exact (hs.off p hoff).1 hrun
  · rintro ⟨c,hp,_⟩
    exact hs.running_of_free hl hfree hp

/-- In every interleaving of the CPUs: a process whose lock is free is on exactly one CPU when it is running and on none
otherwise, `swtch` goes only to a context that has been saved, and no CPU is on the stack of a process that is freed. -/
theorem process_on_one_cpu (h : Reachable w) :
    (∀ p, w.lock p = none →
      (w.state p = .running ↔ ∃! c, w.proc c = some p) ∧
      (w.state p ≠ .running → ∀ c, w.proc c ≠ some p)) ∧
    (∀ c p w', Step w (.swtch c p) w' → w.saved p = true) ∧
    (∀ c q w', Step w (.freeproc c q) w' → ∀ c' s, w.core c' ≠ .on q s) := by
  obtain ⟨hl,hc,hs⟩ := h.inv
  refine ⟨fun p hfree => ⟨hs.running_iff hl hc hfree,fun hst c hp => ?_⟩,fun c p w' hstep => ?_,
    fun c q w' hstep c' s hcore => ?_⟩
  · rw [hc.proc] at hp
    exact hst (hs.running_of_free hl hfree hp)
  · cases hstep with
    | swtch hcore =>
      have := hs.on c p (by rw [hcore]; rfl)
      rw [hcore] at this
      exact this.2
  · have hproc : (w.core c').proc = some q := by rw [hcore]; rfl
    cases hstep with
    | allocFails hv => exact hs.not_on_visit hl hv (by simp [Visit.proc,hs.alloc c q hv]) c' hproc
    | reap hv hst => exact hs.not_on_visit hl hv (by simp [Visit.proc,hst]) c' hproc

end Invariant

/-- Two CPUs and one process, which `userinit` has made runnable. -/
def boot : World Bool Unit where
  state := fun _ => .runnable
  lock := fun _ => none
  saved := fun _ => true
  child := fun _ => none
  proc := fun _ => none
  core := fun _ => .idle
  visit := fun _ => none

theorem boot_initial : Initial boot := by
  constructor <;> intro <;> simp [boot]

theorem process_on_one_cpu_first : ∃ w : World Bool Unit, Reachable w ∧ w.lock () = none ∧ w.state () = .running ∧
    ∃! c, w.proc c = some () := by
  have h₁ := (Reachable.init boot_initial).step (.acquire (c := true) (p := ()) rfl rfl rfl)
  have h₂ := h₁.step (.choose (c := true) (p := ()) rfl rfl)
  have h₃ := h₂.step (.swtch (c := true) (p := ()) rfl)
  have h₄ := h₃.step (.resume (c := true) (p := ()) rfl)
  exact ⟨_,h₄,rfl,rfl,(((process_on_one_cpu h₄).1 () rfl).1).mp rfl⟩

end Xv6.SchedProtocol
