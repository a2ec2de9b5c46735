import Xv6.Proc.Interrupts

/-! # `acquire`, `release` and `holding`

One step is one access to `lk->locked` or `lk->cpu`; the fences in the source order these accesses. On every CPU a
thread and an interrupt handler may use the lock, the thread with any number of other locks around it. A handler runs
when interrupts are enabled, and the thread stands still until it returns.
-/
namespace Xv6.Spinlock
open Interrupts
open Function (update update_eq_self update_of_ne update_self)

inductive Pos
  | idle
  /-- about to `push_off` -/
  | acquire
  /-- in `holding`, about to read `lk->locked` -/
  | testLocked
  /-- in `holding`, about to read `lk->cpu` -/
  | testCpu
  /-- in the loop around `__sync_lock_test_and_set` -/
  | swap
  /-- about to set `lk->cpu` -/
  | setCpu
  /-- between `acquire` and `release` -/
  | inside
  /-- in `release`, at the same two places of `holding` -/
  | relLocked
  | relCpu
  /-- about to clear `lk->cpu` -/
  | clearCpu
  /-- about to `__sync_lock_release` -/
  | unlock
  | popOff
deriving DecidableEq

structure Lk (C : Type) where
  locked : Bool
  /-- `lk->cpu` -/
  cpu : Option C

inductive Panic
  | acquire
  | release
  | cpu (p : Interrupts.Panic)

namespace Pos
variable {C : Type} [DecidableEq C]

/-- `push_off` has been called, and `pop_off` has not returned. -/
def Nested : Pos → Prop
  | .idle | .acquire => False
  | _ => True

def Owns : Pos → Prop
  | .setCpu | .inside | .relLocked | .relCpu | .clearCpu | .unlock => True
  | _ => False

/-- `lk->cpu` has been set and not been cleared. -/
def Marked : Pos → Prop
  | .inside | .relLocked | .relCpu | .clearCpu => True
  | _ => False

def exec (c : C) (lk : Lk C) : Pos → Except Panic (Lk C × Pos)
  | .idle => .ok (lk,.idle)
  | .acquire => .ok (lk,.testLocked)
  | .testLocked => .ok (lk,if lk.locked then .testCpu else .swap)
  | .testCpu => if lk.cpu = some c then .error .acquire else .ok (lk,.swap)
  | .swap => if lk.locked then .ok (lk,.swap) else .ok ({ lk with locked := true },.setCpu)
  | .setCpu => .ok ({ lk with cpu := some c },.inside)
  | .inside => .ok (lk,.relLocked)
  | .relLocked => if lk.locked then .ok (lk,.relCpu) else .error .release
  | .relCpu => if lk.cpu = some c then .ok (lk,.clearCpu) else .error .release
  | .clearCpu => .ok ({ lk with cpu := none },.unlock)
  | .unlock => .ok ({ lk with locked := false },.popOff)
  | .popOff => .ok (lk,.idle)

end Pos

/-! ## The lock -/

section Lock
variable {C : Type} [DecidableEq C] {lk lk' : Lk C} {pos : C → Pos} {c : C} {p : Pos}

structure Sound (lk : Lk C) (pos : C → Pos) : Prop where
  locked : ∀ c, (pos c).Owns → lk.locked = true
  one : ∀ c d, (pos c).Owns → (pos d).Owns → c = d
  held : lk.locked = true → ∃ c, (pos c).Owns
  cpu : ∀ c, lk.cpu = some c ↔ (pos c).Marked

/-- The tests of `acquire` and `release` come out right, though each reads the two fields one after the other: only the
CPU itself makes `lk->cpu` equal to itself. -/
theorem Sound.exec_ok (h : Sound lk pos) (c : C) : ∃ r, (pos c).exec c lk = .ok r := by
  have hcpu := h.cpu c
  have hlocked := h.locked c
  cases hp : pos c <;> simp only [hp,Pos.Owns,Pos.Marked] at hcpu hlocked <;> simp_all [Pos.exec]
  split <;> exact ⟨_,_,rfl⟩

omit [DecidableEq C] in
theorem Pos.Marked.owns {p : Pos} (h : p.Marked) : p.Owns := by
  cases p <;> first | exact h | trivial

omit [DecidableEq C] in
theorem Pos.Owns.nested {p : Pos} (h : p.Owns) : p.Nested := by
  cases p <;> first | exact h | trivial

theorem Sound.away (h : Sound lk pos) (hc : ¬(pos c).Owns) (hp : ¬p.Owns) : Sound lk (update pos c p) := by
  have howns : ∀ d, (update pos c p d).Owns ↔ (pos d).Owns := fun d => by
    by_cases hd : d = c
    · subst hd
      simp [hc,hp]
    · rw [update_of_ne hd]
  have hmarked : ∀ d, (update pos c p d).Marked ↔ (pos d).Marked := fun d => by
    by_cases hd : d = c
    · subst hd
      rw [update_self]
      exact iff_of_false (fun h => hp h.owns) fun h => hc h.owns
    · rw [update_of_ne hd]
  refine ⟨fun d hd => h.locked d ((howns d).mp hd),fun d e hd he => h.one d e ((howns d).mp hd) ((howns e).mp he),
    fun hl => ?_,fun d => (h.cpu d).trans (hmarked d).symm⟩
  obtain ⟨d,hd⟩ := h.held hl
  exact ⟨d,(howns d).mpr hd⟩

theorem Sound.keep (h : Sound lk pos) (hc : (pos c).Owns) (hp : p.Owns) {o : Option C}
    (ho : ∀ d, o = some d ↔ d = c ∧ p.Marked) : Sound { lk with cpu := o } (update pos c p) := by
  have hlocked := h.locked c hc
  have hother : ∀ d, d ≠ c → ¬(pos d).Owns := fun d hd hdo => hd (h.one d c hdo hc)
  have howns : ∀ d, (update pos c p d).Owns → d = c := fun d hd => by
    by_contra hne
    rw [update_of_ne hne] at hd
    exact hother d hne hd
  refine ⟨fun _ _ => hlocked,fun d e hd he => (howns d hd).trans (howns e he).symm,
    fun _ => ⟨c,by rwa [update_self]⟩,fun d => (ho d).trans ?_⟩
  by_cases hd : d = c
  · subst hd
    simp
  · rw [update_of_ne hd]
    exact iff_of_false (fun h => hd h.1) fun hm => hother d hd hm.owns

theorem Sound.take (h : Sound lk pos) (hfree : lk.locked = false) : Sound { lk with locked := true } (update pos c .setCpu) := by
  have hnone : ∀ d, ¬(pos d).Owns := fun d hd => by
    have := h.locked d hd
    rw [hfree] at this
    cases this
  have howns : ∀ d, (update pos c .setCpu d).Owns → d = c := fun d hd => by
    by_contra hne
    rw [update_of_ne hne] at hd
    exact hnone d hd
  refine ⟨fun _ _ => rfl,fun d e hd he => (howns d hd).trans (howns e he).symm,
    fun _ => ⟨c,by rw [update_self]; trivial⟩,fun d => (h.cpu d).trans ?_⟩
  refine iff_of_false (fun hm => hnone d hm.owns) fun hm => ?_
  obtain rfl := howns d hm.owns
  simp [Pos.Marked] at hm

theorem Sound.give (h : Sound lk pos) (hc : pos c = .unlock) : Sound { lk with locked := false } (update pos c .popOff) := by
  have hcown : (pos c).Owns := by
    rw [hc]
    trivial
  have hnone : ∀ d, ¬(update pos c .popOff d).Owns := fun d hd => by
    by_cases hdc : d = c
    · subst hdc
      simp [Pos.Owns] at hd
    · rw [update_of_ne hdc] at hd
      exact hdc (h.one d c hd hcown)
  refine ⟨fun d hd => absurd hd (hnone d),fun d _ hd => absurd hd (hnone d),nofun,fun d => (h.cpu d).trans ?_⟩
  refine iff_of_false (fun hm => ?_) fun hm => hnone d hm.owns
  obtain rfl := h.one d c hm.owns hcown
  rw [hc] at hm
  exact hm

theorem Sound.exec (h : Sound lk pos) (he : (pos c).exec c lk = .ok (lk',p)) : Sound lk' (update pos c p) := by
  have hkeep : ∀ {q : Pos}, (pos c).Owns → q.Owns → ((pos c).Marked ↔ q.Marked) → Sound lk (update pos c q) := by
    intro q hc hq hm
    refine h.keep hc hq fun d => ?_
    rw [h.cpu d]
    constructor
    · intro hd
      obtain rfl := h.one d c hd.owns hc
      exact ⟨rfl,hm.mp hd⟩
    · rintro ⟨rfl,hqm⟩
      exact hm.mpr hqm
  cases hp : pos c with
  | idle | acquire | popOff =>
    rw [hp] at he
    cases he
    exact h.away (by rw [hp]; nofun) nofun
  | testLocked =>
    rw [hp] at he
    cases he
    exact h.away (by rw [hp]; nofun) (by split <;> nofun)
  | testCpu =>
    rw [hp,Pos.exec] at he
    split at he <;> cases he
    exact h.away (by rw [hp]; nofun) nofun
  | swap =>
    rw [hp,Pos.exec] at he
    split at he <;> cases he
    · exact h.away (by rw [hp]; nofun) nofun
    · rename_i hfree
      exact h.take (by simpa using hfree)
  | setCpu =>
    rw [hp] at he
    cases he
    refine h.keep (by rw [hp]; trivial) ?_ fun d => ?_
    · trivial
    · simp [Pos.Marked,eq_comm]
  | inside =>
    rw [hp] at he
    cases he
    exact hkeep (by rw [hp]; trivial) trivial (by rw [hp]; simp [Pos.Marked])
  | relLocked | relCpu =>
    rw [hp,Pos.exec] at he
    split at he <;> cases he
    exact hkeep (by rw [hp]; trivial) trivial (by rw [hp]; simp [Pos.Marked])
  | clearCpu =>
    rw [hp] at he
    cases he
    refine h.keep (by rw [hp]; trivial) ?_ fun d => ?_
    · trivial
    · simp [Pos.Marked]
  | unlock =>
    rw [hp] at he
    cases he
    exact h.give hp

end Lock

/-! ## CPUs with interrupts -/

structure World (C : Type) where
  lk : Lk C
  cpu : C → Cpu
  nest : C → Nest
  thread : C → Pos
  /-- `none` if no handler is running -/
  handler : C → Option Pos
  panic : Option Panic

variable {C : Type} [DecidableEq C]

namespace World

def code (w : World C) (c : C) : Pos := (w.handler c).getD (w.thread c)

def goto (w : World C) (c : C) (p : Pos) : World C :=
  match w.handler c with
  | some _ => { w with handler := update w.handler c (some p) }
  | none => { w with thread := update w.thread c p }

def setCpu (w : World C) (c : C) (x : Cpu) (n : Nest) : World C :=
  { w with cpu := update w.cpu c x, nest := update w.nest c n }

def pushOff (w : World C) (c : C) : World C := w.setCpu c (w.cpu c).pushOff ((w.nest c).push (w.cpu c).intr)

def popOff (w : World C) (c : C) : World C :=
  match (w.cpu c).popOff with
  | .ok x => w.setCpu c x (w.nest c).pop
  | .error e => { w with panic := some (.cpu e) }

def access (w : World C) (c : C) : World C :=
  match (w.code c).exec c w.lk with
  | .ok (lk,p) => { w.goto c p with lk := lk }
  | .error e => { w with panic := some e }

end World

inductive Step : World C → World C → Prop
  | call {w : World C} {c : C} : w.code c = .idle → Step w (w.goto c .acquire)
  | pushOff {w : World C} {c : C} : w.code c = .acquire → Step w ((w.goto c .testLocked).pushOff c)
  | access {w : World C} {c : C} : (w.code c).Nested → w.code c ≠ .popOff → Step w (w.access c)
  | popOff {w : World C} {c : C} : w.code c = .popOff → Step w ((w.goto c .idle).popOff c)
  -- other locks, around this one and within it
  | pushOther {w : World C} {c : C} : w.code c = .idle ∨ w.code c = .inside → Step w (w.pushOff c)
  | popOther {w : World C} {c : C} : w.code c = .idle ∧ 0 < (w.nest c).depth ∨ w.code c = .inside ∧ 1 < (w.nest c).depth →
      Step w (w.popOff c)
  | intr {w : World C} {c : C} (b : Bool) : w.handler c = none → w.thread c = .idle → (w.nest c).depth = 0 →
      Step w (w.setCpu c { w.cpu c with intr := b } (w.nest c))
  | interrupt {w : World C} {c : C} : w.handler c = none → (w.cpu c).intr = true →
      Step w ({ w with handler := update w.handler c (some .idle) }.setCpu c { w.cpu c with intr := false } (w.nest c))
  -- `sret` enables interrupts again
  | sret {w : World C} {c : C} : w.handler c = some .idle → (w.nest c).depth = 0 →
      Step w ({ w with handler := update w.handler c none }.setCpu c { w.cpu c with intr := true } (w.nest c))

structure Initial (w : World C) : Prop where
  locked : w.lk.locked = false
  cpu : w.lk.cpu = none
  noff : ∀ c, (w.cpu c).noff = 0
  nest : ∀ c, (w.nest c).depth = 0
  thread : ∀ c, w.thread c = .idle
  handler : ∀ c, w.handler c = none
  panic : w.panic = none

inductive Reaches : World C → Prop
  | init {w : World C} : Initial w → Reaches w
  | step {w w' : World C} : Reaches w → Step w w' → Reaches w'

structure Inv (w : World C) : Prop where
  sound : Sound w.lk w.code
  nest : ∀ c, Holds (w.cpu c) (w.nest c)
  depth : ∀ c, (w.code c).Nested → 0 < (w.nest c).depth
  frozen : ∀ c, w.handler c ≠ none → ¬(w.thread c).Nested
  panic : w.panic = none

section
variable {w w' : World C} {c : C} {p : Pos}

theorem World.code_goto (w : World C) (c : C) (p : Pos) : (w.goto c p).code = update w.code c p := by
  funext d
  unfold goto
  cases hc : w.handler c with
  | none =>
    by_cases hd : d = c
    · subst hd
      simp [code,hc]
    · simp [code,update_of_ne hd]
  | some q =>
    by_cases hd : d = c
    · subst hd
      simp [code]
    · simp [code,update_of_ne hd]

theorem World.goto_same (w : World C) (c : C) (p : Pos) :
    (w.goto c p).lk = w.lk ∧ (w.goto c p).cpu = w.cpu ∧ (w.goto c p).nest = w.nest ∧ (w.goto c p).panic = w.panic := by
  unfold goto
  cases w.handler c <;> exact ⟨rfl,rfl,rfl,rfl⟩

theorem Inv.frozen_goto (h : Inv w) (d : C) (hd : (w.goto c p).handler d ≠ none) : ¬((w.goto c p).thread d).Nested := by
  have hfrozen := h.frozen d
  unfold World.goto at hd ⊢
  cases hc : w.handler c with
  | none =>
    rw [hc] at hd
    by_cases hdc : d = c
    · subst hdc
      exact absurd hc hd
    · simp only [update_of_ne hdc]
      exact hfrozen hd
  | some q =>
    rw [hc] at hd
    by_cases hdc : d = c
    · subst hdc
      exact hfrozen (by simp [hc])
    · simp only [update_of_ne hdc] at hd ⊢
      exact hfrozen hd

theorem Inv.move (h : Inv w) {lk : Lk C} {x : Cpu} {n : Nest} (hs : Sound lk (update w.code c p)) (hx : Holds x n)
    (hd : p.Nested → 0 < n.depth) : Inv ({ w.goto c p with lk := lk }.setCpu c x n) := by
  obtain ⟨-,hcpu,hnest,hpanic⟩ := w.goto_same c p
  have hcode : ({ w.goto c p with lk := lk }.setCpu c x n).code = update w.code c p := w.code_goto c p
  refine ⟨?_,fun d => ?_,fun d hn => ?_,fun d => h.frozen_goto d,hpanic.trans h.panic⟩
  · rw [hcode]
    exact hs
  · simp only [World.setCpu,hcpu,hnest]
    by_cases hdc : d = c
    · subst hdc
      simpa using hx
    · simpa only [update_of_ne hdc] using h.nest d
  · rw [hcode] at hn
    simp only [World.setCpu,hnest]
    by_cases hdc : d = c
    · subst hdc
      simp only [update_self] at hn ⊢
      exact hd hn
    · simp only [update_of_ne hdc] at hn ⊢
      exact h.depth d hn

theorem Inv.stay (h : Inv w) {x : Cpu} {n : Nest} (hx : Holds x n) (hd : (w.code c).Nested → 0 < n.depth) :
    Inv (w.setCpu c x n) := by
  refine ⟨h.sound,fun d => ?_,fun d hn => ?_,h.frozen,h.panic⟩
  · simp only [World.setCpu]
    by_cases hdc : d = c
    · subst hdc
      simpa using hx
    · simpa only [update_of_ne hdc] using h.nest d
  · simp only [World.setCpu]
    by_cases hdc : d = c
    · subst hdc
      simpa using hd hn
    · simpa only [update_of_ne hdc] using h.depth d hn

theorem Inv.handle (h : Inv w) (hc : w.code c = .idle ∨ w.code c = .acquire) {o : Option Pos} (ho : o = some .idle ∨ o = none)
    (hthread : ¬(w.thread c).Nested) (hz : (w.nest c).depth = 0) {b : Bool} :
    Inv ({ w with handler := update w.handler c o }.setCpu c { w.cpu c with intr := b } (w.nest c)) := by
  have hcode : ({ w with handler := update w.handler c o } : World C).code =
      update w.code c (o.getD (w.thread c)) := by
    funext d
    by_cases hd : d = c
    · subst hd
      simp [World.code]
    · simp [World.code,update_of_ne hd]
  have hnew : ¬(o.getD (w.thread c)).Nested := by
    rcases ho with rfl | rfl
    · nofun
    · exact hthread
  have hmid : Inv ({ w with handler := update w.handler c o } : World C) := by
    refine ⟨?_,h.nest,fun d hd => ?_,fun d hd => ?_,h.panic⟩
    · rw [hcode]
      refine h.sound.away ?_ fun ho => hnew ho.nested
      rcases hc with hc | hc <;> rw [hc] <;> nofun
    · rw [hcode] at hd
      by_cases hdc : d = c
      · subst hdc
        rw [update_self] at hd
        exact absurd hd hnew
      · rw [update_of_ne hdc] at hd
        exact h.depth d hd
    · by_cases hdc : d = c
      · subst hdc
        exact hthread
      · simp only [update_of_ne hdc] at hd
        exact h.frozen d hd
  refine hmid.stay ⟨⟨(h.nest c).noff,fun hpos => by omega⟩,fun hpos => by omega⟩ fun hn => ?_
  rw [hcode,update_self] at hn
  exact absurd hn hnew

theorem Inv.pushOff (h : Inv w) (c : C) : Inv (w.pushOff c) :=
  h.stay (h.nest c).pushOff fun _ => Nat.succ_pos _

theorem Inv.popOff (h : Inv w) (hpos : 0 < (w.nest c).depth) (hc : (w.code c).Nested → 1 < (w.nest c).depth) :
    Inv (w.popOff c) := by
  obtain ⟨x,hx,hholds,-⟩ := (h.nest c).popOff hpos
  rw [World.popOff,hx]
  refine h.stay hholds fun hn => ?_
  have := hc hn
  simp only [Nest.pop]
  omega

theorem Inv.goto (h : Inv w) (hs : Sound w.lk (update w.code c p)) (hd : p.Nested → 0 < (w.nest c).depth) :
    Inv (w.goto c p) := by
  have hmove := h.move hs (h.nest c) hd
  obtain ⟨hlk,hcpu,hnest,-⟩ := w.goto_same c p
  simpa only [World.setCpu,← hlk,← hcpu,← hnest,update_eq_self] using hmove

theorem Inv.step (h : Inv w) (hs : Step w w') : Inv w' := by
  cases hs with
  | @call c hc => exact h.goto (h.sound.away (by rw [hc]; nofun) nofun) nofun
  | @pushOff c hc =>
    obtain ⟨hlk,hcpu,hnest,-⟩ := w.goto_same c .testLocked
    have hmove := h.move (h.sound.away (p := .testLocked) (by rw [hc]; nofun) nofun) (h.nest c).pushOff
      fun _ => Nat.succ_pos _
    simpa only [World.pushOff,World.setCpu,← hlk,← hcpu,← hnest] using hmove
  | @access c hn hne =>
    obtain ⟨⟨lk,p⟩,he⟩ := h.sound.exec_ok c
    have hdepth := h.depth c hn
    have hmove := h.move (h.sound.exec he) (h.nest c) fun _ => hdepth
    obtain ⟨-,hcpu,hnest,-⟩ := w.goto_same c p
    rw [World.access,he]
    simpa only [World.setCpu,← hcpu,← hnest,update_eq_self] using hmove
  | @popOff c hc =>
    have hdepth := h.depth c (by rw [hc]; trivial)
    obtain ⟨x,hx,hholds,-⟩ := (h.nest c).popOff hdepth
    obtain ⟨hlk,hcpu,hnest,-⟩ := w.goto_same c .idle
    have hmove := h.move (h.sound.away (p := .idle) (by rw [hc]; nofun) nofun) hholds nofun
    rw [World.popOff,hcpu,hx]
    simpa only [World.setCpu,← hlk,← hcpu,← hnest] using hmove
  | @pushOther c _ => exact h.pushOff c
  | @popOther c hc =>
    rcases hc with ⟨hc,hpos⟩ | ⟨hc,hpos⟩
    · exact h.popOff hpos fun hn => absurd hn (by rw [hc]; nofun)
    · exact h.popOff (by omega) fun _ => hpos
  | @intr c b hh ht hz =>
    have hcode : w.code c = .idle := by
      rw [World.code,hh]
      exact ht
    refine h.stay ⟨⟨(h.nest c).noff,fun hpos => by omega⟩,fun hpos => by omega⟩ fun hn => ?_
    exact absurd hn (by rw [hcode]; nofun)
  | @interrupt c hh hi =>
    -- interrupts are on, so the thread has no lock
    have hz : (w.nest c).depth = 0 := by
      by_contra hpos
      have := (h.nest c).off (by omega)
      rw [hi] at this
      cases this
    have hcode : w.code c = w.thread c := by
      rw [World.code,hh]
      rfl
    have hthread : ¬(w.thread c).Nested := fun hn => by
      have := h.depth c (by rwa [hcode])
      omega
    refine h.handle ?_ (.inl rfl) hthread hz
    rw [hcode]
    cases hp : w.thread c <;> first | exact .inl rfl | exact .inr rfl | (rw [hp] at hthread; exact absurd trivial hthread)
  | @sret c hh hz =>
    have hcode : w.code c = .idle := by
      rw [World.code,hh]
      rfl
    exact h.handle (.inl hcode) (.inr rfl) (h.frozen c (by simp [hh])) hz

omit [DecidableEq C] in
theorem Inv.init (h : Initial w) : Inv w := by
  have hcode : ∀ c, w.code c = .idle := fun c => by
    rw [World.code,h.handler,h.thread]
    rfl
  have howns : ∀ c, ¬(w.code c).Owns := fun c hc => by
    rw [hcode] at hc
    exact hc
  refine ⟨⟨fun c hc => absurd hc (howns c),fun c d hc => absurd hc (howns c),fun hl => ?_,fun c => ?_⟩,fun c => ?_,
    fun c hc => ?_,fun c hc => absurd (h.handler c) hc,h.panic⟩
  · rw [h.locked] at hl
    cases hl
  · rw [hcode,h.cpu]
    exact iff_of_false nofun id
  · have hz := h.nest c
    exact ⟨⟨(h.noff c).trans hz.symm,fun hpos => by omega⟩,fun hpos => by omega⟩
  · rw [hcode] at hc
    exact hc.elim

theorem Reaches.inv (h : Reaches w) : Inv w := by
  induction h with
  | init h => exact .init h
  | step _ hs ih => exact ih.step hs

def World.pos (w : World C) : C × Bool → Pos
  | (c,false) => w.thread c
  | (c,true) => (w.handler c).getD .idle

omit [DecidableEq C] in
theorem Inv.pos_owns (h : Inv w) {a : C × Bool} (ha : (w.pos a).Owns) :
    w.code a.1 = w.pos a ∧ (a.2 = true ↔ w.handler a.1 ≠ none) := by
  obtain ⟨c,b⟩ := a
  cases b with
  | true =>
    cases hh : w.handler c with
    | none =>
      simp only [World.pos,hh] at ha
      exact ha.elim
    | some q => simp [World.code,World.pos,hh]
  | false =>
    have hnone : w.handler c = none := by
      by_contra hne
      exact h.frozen c hne ha.nested
    simp [World.code,World.pos,hnone]

/-- Mutual exclusion: at most one thread or handler is between `acquire` and `release`. The panics are unreachable, and
a CPU that spins waits for another CPU, on which the code that has the lock is not interrupted. -/
theorem spinlock_exclusive (h : Reaches w) :
    (∀ a b, w.pos a = .inside → w.pos b = .inside → a = b) ∧ w.panic = none ∧
      ∀ c, w.code c = .swap → w.lk.locked = true → ∃ d, d ≠ c ∧ (w.code d).Owns := by
  have hi := h.inv
  refine ⟨fun a b ha hb => ?_,hi.panic,fun c hc hl => ?_⟩
  · have haown : (w.pos a).Owns := by
      rw [ha]
      trivial
    have hbown : (w.pos b).Owns := by
      rw [hb]
      trivial
    obtain ⟨hacode,ha'⟩ := hi.pos_owns haown
    obtain ⟨hbcode,hb'⟩ := hi.pos_owns hbown
    have hcpu : a.1 = b.1 := hi.sound.one a.1 b.1 (by rwa [hacode]) (by rwa [hbcode])
    refine Prod.ext hcpu (Bool.eq_iff_iff.mpr (ha'.trans ?_))
    rw [hcpu]
    exact hb'.symm
  · obtain ⟨d,hd⟩ := hi.sound.held hl
    refine ⟨d,?_,hd⟩
    rintro rfl
    rw [hc] at hd
    exact hd

end

def booted : World Bool where
  lk := ⟨false,none⟩
  cpu := fun _ => ⟨0,false,true⟩
  nest := fun _ => ⟨0,false⟩
  thread := fun _ => .idle
  handler := fun _ => none
  panic := none

/-- A thread on one CPU has the lock, and a handler on the other spins. -/
theorem spinlock_exclusive_handler :
    ∃ w : World Bool, Reaches w ∧ w.pos (false,false) = .inside ∧ w.pos (true,true) = .swap ∧
      ∃ d, d ≠ true ∧ (w.code d).Owns := by
  have hbooted : Reaches booted := .init ⟨rfl,rfl,fun _ => rfl,fun _ => rfl,fun _ => rfl,fun _ => rfl,rfl⟩
  have hcalled := (hbooted.step (.call (c := false) rfl)).step (.pushOff (c := false) rfl)
  have hswap := hcalled.step (.access (c := false) trivial nofun)
  have hinside := (hswap.step (.access (c := false) trivial nofun)).step (.access (c := false) trivial nofun)
  have hhandler := (hinside.step (.interrupt (c := true) rfl rfl)).step (.call (c := true) rfl)
  have htest := (hhandler.step (.pushOff (c := true) rfl)).step (.access (c := true) trivial nofun)
  have hspins := htest.step (.access (c := true) trivial nofun)
  exact ⟨_,hspins,rfl,rfl,(spinlock_exclusive hspins).2.2 true rfl rfl⟩

end Xv6.Spinlock
