import Mathlib

/-! # `push_off`, `pop_off` and `sched`

`noff` and `intena` belong to a CPU, the nesting of `push_off` to a kernel thread. A thread runs on one CPU
at a time; `sched` gives the CPU back to its scheduler, and any CPU's scheduler may run the thread again. At depth 0
a thread may turn interrupts on or off, and traps do so too.
-/
namespace Xv6.Interrupts
open Function (update update_eq_self update_of_ne update_self)

structure Cpu where
  noff : ℕ
  intena : Bool
  /-- what `intr_get()` returns -/
  intr : Bool

inductive Panic
  | popOffInterruptible
  | popOff
  | schedLocks
  | schedInterruptible
deriving DecidableEq

namespace Cpu

def pushOff (c : Cpu) : Cpu :=
  { noff := c.noff + 1, intena := if c.noff = 0 then c.intr else c.intena, intr := false }

def popOff (c : Cpu) : Except Panic Cpu :=
  if c.intr then .error .popOffInterruptible
  else if c.noff < 1 then .error .popOff
  else .ok { c with noff := c.noff - 1, intr := if c.noff - 1 = 0 ∧ c.intena then true else c.intr }

/-- The tests of `sched`, and the `intena` that it saves. -/
def sched (c : Cpu) : Except Panic Bool :=
  if c.noff ≠ 1 then .error .schedLocks
  else if c.intr then .error .schedInterruptible
  else .ok c.intena

end Cpu

/-- A thread of a process that is not on a CPU has called `sched`, or has not run yet. -/
inductive Status
  | unused
  | fresh
  | out (intena : Bool)
  | running
deriving DecidableEq

/-- The nesting of a thread, and whether interrupts were enabled just before the `push_off` that began it. -/
structure Nest where
  depth : ℕ
  base : Bool

def Nest.push (n : Nest) (intr : Bool) : Nest := ⟨n.depth + 1,if n.depth = 0 then intr else n.base⟩

def Nest.pop (n : Nest) : Nest := { n with depth := n.depth - 1 }

structure World (C : Type) (N : ℕ) where
  cpu : C → Cpu
  /-- `c->proc`, none in the scheduler -/
  proc : C → Option (Fin N)
  nest : Fin N → Nest
  status : Fin N → Status
  sched : C → Nest
  /-- the scheduler has not run a process since it acquired the lock -/
  ready : C → Bool
  panic : Option Panic

inductive Act (C : Type)
  | push (c : C)
  | pop (c : C)
  | other

variable {C : Type} [DecidableEq C] {N : ℕ}

namespace World

def setCpu (w : World C N) (c : C) (x : Cpu) : World C N := { w with cpu := update w.cpu c x }

def after (w : World C N) (c : C) : Except Panic Cpu → World C N
  | .ok x => w.setCpu c x
  | .error e => { w with panic := some e }

def setNest (w : World C N) (p : Fin N) (n : Nest) : World C N := { w with nest := update w.nest p n }

def switch (w : World C N) (c : C) (p : Fin N) : Except Panic Bool → World C N
  | .ok intena => { w with
      status := update w.status p (.out intena)
      proc := update w.proc c none
      ready := update w.ready c false }
  | .error e => { w with panic := some e }

def run (w : World C N) (c : C) (p : Fin N) : World C N :=
  { w with
    proc := update w.proc c (some p)
    status := update w.status p .running }

end World

inductive Step : World C N → Act C → World C N → Prop
  | pushOff {w : World C N} {c : C} {p : Fin N} : w.proc c = some p →
      Step w (.push c) ((w.setCpu c (w.cpu c).pushOff).setNest p ((w.nest p).push (w.cpu c).intr))
  | popOff {w : World C N} {c : C} {p : Fin N} : w.proc c = some p → 0 < (w.nest p).depth →
      Step w (.pop c) ((w.after c (w.cpu c).popOff).setNest p (w.nest p).pop)
  | intr {w : World C N} {c : C} {p : Fin N} (b : Bool) : w.proc c = some p → (w.nest p).depth = 0 →
      Step w .other (w.setCpu c { w.cpu c with intr := b })
  | sched {w : World C N} {c : C} {p : Fin N} : w.proc c = some p → (w.nest p).depth = 1 →
      Step w .other (w.switch c p (w.cpu c).sched)
  -- `sched` ends with `mycpu()->intena = intena`
  | resume {w : World C N} {c : C} {p : Fin N} {intena : Bool} : w.proc c = none → (w.sched c).depth = 1 →
      w.ready c = true → w.status p = .out intena →
      Step w .other ((w.run c p).setCpu c { w.cpu c with intena := intena })
  -- a new thread begins with the lock that the scheduler acquired
  | start {w : World C N} {c : C} {p : Fin N} : w.proc c = none → (w.sched c).depth = 1 → w.ready c = true →
      w.status p = .fresh → Step w .other ((w.run c p).setNest p (w.sched c))
  -- a slot is free, or its thread has called `sched` for the last time
  | fork {w : World C N} {p : Fin N} : w.status p ≠ .running →
      Step w .other { w with status := update w.status p .fresh }
  | schedPushOff {w : World C N} {c : C} : w.proc c = none →
      Step w (.push c) { w.setCpu c (w.cpu c).pushOff with
        sched := update w.sched c ((w.sched c).push (w.cpu c).intr)
        ready := update w.ready c (w.ready c || (w.sched c).depth = 0) }
  | schedPopOff {w : World C N} {c : C} : w.proc c = none → 0 < (w.sched c).depth →
      Step w (.pop c) { w.after c (w.cpu c).popOff with sched := update w.sched c (w.sched c).pop }
  | schedIntr {w : World C N} {c : C} (b : Bool) : w.proc c = none → (w.sched c).depth = 0 →
      Step w .other (w.setCpu c { w.cpu c with intr := b })

structure Initial (w : World C N) : Prop where
  noff : ∀ c, (w.cpu c).noff = 0
  proc : ∀ c, w.proc c = none
  sched : ∀ c, (w.sched c).depth = 0
  status : ∀ p, w.status p = .unused
  panic : w.panic = none

inductive Reaches : World C N → Prop
  | init {w : World C N} : Initial w → Reaches w
  | step {w w' : World C N} {a : Act C} : Reaches w → Step w a w' → Reaches w'

/-! ## The invariant -/

structure Fits (c : Cpu) (n : Nest) : Prop where
  noff : c.noff = n.depth
  off : 0 < n.depth → c.intr = false

structure Holds (c : Cpu) (n : Nest) : Prop extends Fits c n where
  intena : 0 < n.depth → c.intena = n.base

theorem Fits.pushOff {c : Cpu} {n : Nest} (h : Fits c n) : Fits c.pushOff (n.push c.intr) :=
  ⟨congrArg (· + 1) h.noff,fun _ => rfl⟩

theorem Holds.pushOff {c : Cpu} {n : Nest} (h : Holds c n) : Holds c.pushOff (n.push c.intr) := by
  refine ⟨h.toFits.pushOff,fun _ => ?_⟩
  simp only [Cpu.pushOff,Nest.push,h.noff]
  split
  · rfl
  · exact h.intena (by omega)

theorem Fits.popOff {c : Cpu} {n : Nest} (h : Fits c n) (hn : 0 < n.depth) :
    ∃ c', c.popOff = .ok c' ∧ Fits c' n.pop ∧ c'.intena = c.intena ∧ (n.pop.depth = 0 → c'.intr = c.intena) := by
  have hnoff := h.noff
  have hoff := h.off hn
  rw [Cpu.popOff,hoff,if_neg (by decide),if_neg (by omega)]
  refine ⟨_,rfl,⟨by simp only [Nest.pop]; omega,fun hpos => ?_⟩,rfl,fun hzero => ?_⟩
  · simp only [Nest.pop] at hpos
    rw [if_neg (by omega)]
  · simp only [Nest.pop] at hzero
    cases hi : c.intena with
    | false => simp
    | true => simp [show c.noff - 1 = 0 by omega]

theorem Holds.popOff {c : Cpu} {n : Nest} (h : Holds c n) (hn : 0 < n.depth) :
    ∃ c', c.popOff = .ok c' ∧ Holds c' n.pop ∧ (n.pop.depth = 0 → c'.intr = n.base) := by
  obtain ⟨c',hc,hfits,hintena,hintr⟩ := h.toFits.popOff hn
  have hbase := h.intena hn
  exact ⟨c',hc,⟨hfits,fun _ => hintena.trans hbase⟩,fun hz => (hintr hz).trans hbase⟩

theorem Fits.sched {c : Cpu} {n : Nest} (h : Fits c n) (hn : n.depth = 1) : c.sched = .ok c.intena := by
  rw [Cpu.sched,if_neg (by rw [h.noff,hn]; simp),h.off (by omega)]
  rfl

/-- Every CPU fits the thread on it; a scheduler that is not running is at depth 1, and so is a thread that is not
running, with its `intena` saved. -/
structure Inv (w : World C N) : Prop where
  proc : ∀ c p, w.proc c = some p → Holds (w.cpu c) (w.nest p) ∧ (w.sched c).depth = 1 ∧ w.status p = .running
  sched : ∀ c, w.proc c = none → Fits (w.cpu c) (w.sched c) ∧ (w.ready c = true → Holds (w.cpu c) (w.sched c))
  out : ∀ p intena, w.status p = .out intena → (w.nest p).depth = 1 ∧ (w.nest p).base = intena
  one : ∀ c c' p, w.proc c = some p → w.proc c' = some p → c = c'
  panic : w.panic = none

section
variable {w w' : World C N} {a : Act C}

omit [DecidableEq C] in
theorem Inv.ne (h : Inv w) {c d : C} {p q : Fin N} (hc : w.proc c = some p) (hd : w.proc d = some q) (hne : d ≠ c) : q ≠ p := by
  rintro rfl
  exact hne (h.one d c q hd hc)

theorem Inv.local (h : Inv w) {c : C} {p : Fin N} (hc : w.proc c = some p) {x : Cpu} {n : Nest} (hx : Holds x n) :
    Inv ((w.setCpu c x).setNest p n) := by
  obtain ⟨-,hsched,hstatus⟩ := h.proc c p hc
  refine ⟨fun d q hd => ?_,fun d hd => ?_,fun q i hq => ?_,h.one,h.panic⟩
  · by_cases hdc : d = c
    · subst hdc
      obtain rfl : p = q := Option.some.inj (hc.symm.trans hd)
      simp only [World.setCpu,World.setNest,update_self]
      exact ⟨hx,hsched,hstatus⟩
    · simp only [World.setCpu,World.setNest,update_of_ne hdc,update_of_ne (h.ne hc hd hdc)]
      exact h.proc d q hd
  · have hdc : d ≠ c := by
      rintro rfl
      exact Option.some_ne_none p (hc.symm.trans hd)
    simp only [World.setCpu,World.setNest,update_of_ne hdc]
    exact h.sched d hd
  · have hqp : q ≠ p := by
      rintro rfl
      exact Status.noConfusion (hstatus.symm.trans hq)
    simp only [World.setCpu,World.setNest,update_of_ne hqp]
    exact h.out q i hq

theorem Inv.scheduler (h : Inv w) {c : C} (hc : w.proc c = none) {x : Cpu} {n : Nest} {r : Bool} (hx : Fits x n)
    (hr : r = true → Holds x n) :
    Inv ({ w.setCpu c x with sched := update w.sched c n, ready := update w.ready c r } : World C N) := by
  refine ⟨fun d q hd => ?_,fun d hd => ?_,h.out,h.one,h.panic⟩
  · have hdc : d ≠ c := by
      rintro rfl
      exact Option.some_ne_none q (hd.symm.trans hc)
    simp only [World.setCpu,update_of_ne hdc]
    exact h.proc d q hd
  · by_cases hdc : d = c
    · subst hdc
      simp only [World.setCpu,update_self]
      exact ⟨hx,hr⟩
    · simp only [World.setCpu,update_of_ne hdc]
      exact h.sched d hd

theorem Inv.switch (h : Inv w) {c : C} {p : Fin N} (hc : w.proc c = some p) (hn : (w.nest p).depth = 1) :
    Inv (w.switch c p (w.cpu c).sched) := by
  obtain ⟨hx,hsched,hstatus⟩ := h.proc c p hc
  rw [hx.toFits.sched hn]
  refine ⟨fun d q hd => ?_,fun d hd => ?_,fun q i hq => ?_,fun d e q hd he => ?_,h.panic⟩
  · have hdc : d ≠ c := by
      rintro rfl
      simp [World.switch] at hd
    simp only [World.switch,update_of_ne hdc] at hd ⊢
    rw [update_of_ne (h.ne hc hd hdc)]
    exact h.proc d q hd
  · by_cases hdc : d = c
    · subst hdc
      simp only [World.switch,update_self]
      refine ⟨⟨?_,fun _ => hx.off (by omega)⟩,nofun⟩
      rw [hx.noff,hn,hsched]
    · simp only [World.switch,update_of_ne hdc] at hd ⊢
      exact h.sched d hd
  · by_cases hqp : q = p
    · subst hqp
      simp only [World.switch,update_self] at hq ⊢
      cases hq
      exact ⟨hn,(hx.intena (by omega)).symm⟩
    · simp only [World.switch,update_of_ne hqp] at hq
      exact h.out q i hq
  · have hne : ∀ d, update w.proc c none d = some q → w.proc d = some q := fun d hd => by
      by_cases hdc : d = c
      · simp [hdc] at hd
      · rwa [update_of_ne hdc] at hd
    exact h.one d e q (hne d hd) (hne e he)

theorem Inv.run (h : Inv w) {c : C} {p : Fin N} (hc : w.proc c = none) (hs : (w.sched c).depth = 1)
    (hp : w.status p ≠ .running) {x : Cpu} {n : Nest} (hx : Holds x n) :
    Inv (((w.run c p).setCpu c x).setNest p n) := by
  have hnot : ∀ d q, w.proc d = some q → d ≠ c ∧ q ≠ p := fun d q hd => by
    refine ⟨?_,?_⟩
    · rintro rfl
      exact Option.some_ne_none q (hd.symm.trans hc)
    · rintro rfl
      exact hp (h.proc d q hd).2.2
  refine ⟨fun d q hd => ?_,fun d hd => ?_,fun q i hq => ?_,fun d e q hd he => ?_,h.panic⟩
  · by_cases hdc : d = c
    · subst hdc
      obtain rfl : p = q := by simpa [World.run,World.setCpu,World.setNest] using hd
      simp only [World.run,World.setCpu,World.setNest,update_self]
      exact ⟨hx,hs,trivial⟩
    · simp only [World.run,World.setCpu,World.setNest,update_of_ne hdc] at hd ⊢
      rw [update_of_ne (hnot d q hd).2,update_of_ne (hnot d q hd).2]
      exact h.proc d q hd
  · have hdc : d ≠ c := by
      rintro rfl
      simp [World.run,World.setCpu,World.setNest] at hd
    simp only [World.run,World.setCpu,World.setNest,update_of_ne hdc] at hd ⊢
    exact h.sched d hd
  · have hqp : q ≠ p := by
      rintro rfl
      simp [World.run,World.setCpu,World.setNest] at hq
    simp only [World.run,World.setCpu,World.setNest,update_of_ne hqp] at hq ⊢
    exact h.out q i hq
  · simp only [World.run,World.setCpu,World.setNest] at hd he
    by_cases hdc : d = c <;> by_cases hec : e = c
    · rw [hdc,hec]
    · rw [hdc,update_self] at hd
      rw [update_of_ne hec] at he
      exact absurd (Option.some.inj hd).symm (hnot e q he).2
    · rw [hec,update_self] at he
      rw [update_of_ne hdc] at hd
      exact absurd (Option.some.inj he).symm (hnot d q hd).2
    · rw [update_of_ne hdc] at hd
      rw [update_of_ne hec] at he
      exact h.one d e q hd he

omit [DecidableEq C] in
theorem Inv.fork (h : Inv w) {p : Fin N} (hp : w.status p ≠ .running) :
    Inv ({ w with status := update w.status p .fresh } : World C N) := by
  refine ⟨fun c q hc => ?_,h.sched,fun q i hq => ?_,h.one,h.panic⟩
  · obtain ⟨hx,hs,hq⟩ := h.proc c q hc
    have hqp : q ≠ p := by
      rintro rfl
      exact hp hq
    exact ⟨hx,hs,(update_of_ne hqp _ _).trans hq⟩
  · by_cases hqp : q = p
    · simp [hqp] at hq
    · exact h.out q i ((update_of_ne hqp _ _).symm.trans hq)

omit [DecidableEq C] in
theorem World.setNest_self (w : World C N) (p : Fin N) : w.setNest p (w.nest p) = w := by
  rw [World.setNest,update_eq_self]

theorem Inv.step (h : Inv w) (hs : Step w a w') : Inv w' := by
  cases hs with
  | @pushOff c p hc => exact h.local hc (h.proc c p hc).1.pushOff
  | @popOff c p hc hn =>
    obtain ⟨x,hx,hholds,-⟩ := (h.proc c p hc).1.popOff hn
    rw [hx]
    exact h.local hc hholds
  | @intr c p b hc hn =>
    have hx := (h.proc c p hc).1
    have hholds : Holds { w.cpu c with intr := b } (w.nest p) :=
      ⟨⟨hx.noff,fun hpos => by omega⟩,fun hpos => by omega⟩
    rw [← World.setNest_self (w.setCpu c _) p]
    exact h.local hc hholds
  | sched hc hn => exact h.switch hc hn
  | @resume c p i hc hs hr hp =>
    have hx := (h.sched c hc).1
    obtain ⟨hdepth,hbase⟩ := h.out p i hp
    rw [← World.setNest_self ((w.run c p).setCpu c _) p]
    refine h.run hc hs (by rw [hp]; nofun) ⟨⟨?_,fun _ => hx.off (by omega)⟩,fun _ => hbase.symm⟩
    exact hx.noff.trans (hs.trans hdepth.symm)
  | @start c p hc hs hr hp =>
    have hrun := h.run hc hs (by rw [hp]; nofun) ((h.sched c hc).2 hr)
    rwa [World.setCpu,show (w.run c p).cpu = w.cpu from rfl,update_eq_self] at hrun
  | fork hp => exact h.fork hp
  | @schedPushOff c hc =>
    obtain ⟨hx,hr⟩ := h.sched c hc
    refine h.scheduler hc hx.pushOff fun hready => ?_
    by_cases hz : (w.sched c).depth = 0
    · exact Holds.pushOff ⟨hx,fun hpos => by omega⟩
    · exact (hr (by simpa [hz] using hready)).pushOff
  | @schedPopOff c hc hn =>
    obtain ⟨hx,hr⟩ := h.sched c hc
    obtain ⟨x,hpop,hfits,hintena,-⟩ := hx.popOff hn
    have hnext := h.scheduler hc hfits (r := w.ready c) fun hready =>
      ⟨hfits,fun _ => hintena.trans ((hr hready).intena hn)⟩
    rw [hpop]
    rwa [update_eq_self] at hnext
  | @schedIntr c b hc hz =>
    obtain ⟨hx,-⟩ := h.sched c hc
    have hfits : Fits { w.cpu c with intr := b } (w.sched c) := ⟨hx.noff,fun hpos => by omega⟩
    have hnext := h.scheduler hc hfits (r := w.ready c) fun _ => ⟨hfits,fun hpos => by omega⟩
    rwa [update_eq_self,update_eq_self] at hnext

theorem Reaches.inv (h : Reaches w) : Inv w := by
  induction h with
  | init h =>
    obtain ⟨hnoff,hproc,hsched,hstatus,hpanic⟩ := h
    refine ⟨fun c p hc => ?_,fun c _ => ?_,fun p i hp => ?_,fun c d p hc => ?_,hpanic⟩
    · simp [hproc] at hc
    · have hfits : Fits _ _ := ⟨(hnoff c).trans (hsched c).symm,fun hpos => by rw [hsched] at hpos; omega⟩
      exact ⟨hfits,fun _ => ⟨hfits,fun hpos => by rw [hsched] at hpos; omega⟩⟩
    · simp [hstatus] at hp
    · simp [hproc] at hc
  | step _ hs ih => exact ih.step hs

/-- Interrupts are off while `noff` is positive, nothing panics, and a thread that comes back to depth 0 finds
interrupts as they were before, on whichever CPU. -/
theorem interrupts_nest (h : Reaches w) :
    (∀ c, 0 < (w.cpu c).noff → (w.cpu c).intr = false) ∧ w.panic = none ∧
      ∀ c p w', w.proc c = some p → Step w (.pop c) w' → (w'.nest p).depth = 0 → (w'.cpu c).intr = (w.nest p).base := by
  have hi := h.inv
  refine ⟨fun c hpos => ?_,hi.panic,fun c p w' hc hs hz => ?_⟩
  · cases hc : w.proc c with
    | none =>
      have hx := (hi.sched c hc).1
      exact hx.off (hx.noff ▸ hpos)
    | some p =>
      have hx := (hi.proc c p hc).1
      exact hx.off (hx.noff ▸ hpos)
  · cases hs with
    | @popOff c q hc' hn =>
      obtain rfl : p = q := Option.some.inj (hc.symm.trans hc')
      obtain ⟨x,hx,-,hbase⟩ := (hi.proc c p hc).1.popOff hn
      rw [hx] at hz ⊢
      simp only [World.setNest,World.after,World.setCpu,update_self] at hz ⊢
      exact hbase hz
    | schedPopOff hc' => exact absurd (hc.symm.trans hc') (Option.some_ne_none p)

end

def booted : World (Fin 2) 1 where
  cpu := fun _ => ⟨0,false,true⟩
  proc := fun _ => none
  nest := fun _ => ⟨0,false⟩
  status := fun _ => .unused
  sched := fun _ => ⟨0,false⟩
  ready := fun _ => false
  panic := none

/-- A process acquires its lock on CPU 0 with interrupts on, and CPU 1, where they are off, runs it next. -/
theorem interrupts_nest_moved :
    ∃ w w' : World (Fin 2) 1, Reaches w ∧ w.proc 1 = some 0 ∧ (w.cpu 0).intr = true ∧ (w.sched 1).base = false ∧
      Step w (.pop 1) w' ∧ (w'.cpu 1).intr = true := by
  have hbooted : Reaches booted := .init ⟨fun _ => rfl,fun _ => rfl,fun _ => rfl,fun _ => rfl,rfl⟩
  have hfresh := (hbooted.step (.fork (p := 0) nofun)).step (.schedPushOff (c := 0) rfl)
  have hruns := (hfresh.step (.start (c := 0) (p := 0) rfl rfl rfl rfl)).step (.popOff (c := 0) (p := 0) rfl Nat.one_pos)
  have hgone := (hruns.step (.pushOff (c := 0) (p := 0) rfl)).step (.sched (c := 0) (p := 0) rfl rfl)
  have hleft := (hgone.step (.schedPopOff (c := 0) rfl Nat.one_pos)).step (.schedIntr (c := 1) false rfl rfl)
  have hmoved := (hleft.step (.schedPushOff (c := 1) rfl)).step (.resume (c := 1) (p := 0) rfl rfl rfl rfl)
  refine ⟨_,_,hmoved,rfl,rfl,rfl,.popOff (p := 0) rfl Nat.one_pos,?_⟩
  exact (interrupts_nest hmoved).2.2 1 0 _ rfl (.popOff (p := 0) rfl Nat.one_pos) rfl

end Xv6.Interrupts
