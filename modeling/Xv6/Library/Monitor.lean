import Mathlib

/-! # Monitors with sleep and wakeup

Processes and interrupt handlers run code under one spin lock. A process that waits takes its own
lock, releases the spin lock and goes to sleep on a channel; `wakeup` looks at one process after
another, each under its own lock, and passes over the process it runs in; a sleeper may also be
roused for no reason. What a handler interrupts stands still until it returns.
-/
namespace Xv6.Library.Monitor

/-- A process or a handler. -/
abbrev Agent (N : ℕ) (H : Type) := Fin N ⊕ H

inductive Pos (K C : Type)
  | idle
  /-- about to acquire the lock -/
  | entry (k : K)
  | locked (k : K)
  /-- in `wakeup(c)`, about to look at process `j` -/
  | wakeup (c : C) (j : ℕ) (k : K)
  /-- in `sleep(c)`, with both locks -/
  | presleep (c : C) (k : K)
  /-- in `sleep(c)`, with the lock of the process only -/
  | released (c : C) (k : K)
  /-- asleep, or made runnable again -/
  | sleeping (c : C) (k : K)

/-- How a section of code ends. -/
inductive Next (K C : Type)
  | goto (k : K)
  | wakeup (c : C) (k : K)
  | sleep (c : C) (k : K)
  /-- the lock is released -/
  | done

/-- The calls an agent may make, the sections of code, and what an agent may do outside. -/
structure Code (N : ℕ) (H S K C : Type) where
  call : Agent N H → S → K → Prop
  exec : Agent N H → K → S → S → Next K C → Prop
  other : Agent N H → S → S → Prop

structure World (N : ℕ) (H S K C : Type) where
  shared : S
  lock : Option (Agent N H)
  pos : Agent N H → Pos K C
  asleep : Fin N → Option C
  /-- the process that a handler interrupts -/
  self : H → Option (Fin N)

section Machine
variable {N : ℕ} {H S K C : Type}

def Next.pos : Next K C → Pos K C
  | .goto k => .locked k
  | .wakeup c k => .wakeup c 0 k
  | .sleep c k => .presleep c k
  | .done => .idle

/-- Who has the lock after a section. -/
def Next.lock (a : Agent N H) : Next K C → Option (Agent N H)
  | .done => none
  | _ => some a

namespace Pos

/-- The lock of the process is free between steps. -/
def Unlocked : Pos K C → Prop
  | .presleep _ _ | .released _ _ => False
  | _ => True

/-- The spin lock is held. -/
def Holds : Pos K C → Prop
  | .locked _ | .wakeup _ _ _ | .presleep _ _ => True
  | _ => False

/-- Interrupts may be enabled. -/
def Open : Pos K C → Prop
  | .idle | .entry _ => True
  | _ => False

end Pos

namespace World
variable [DecidableEq H]

/-- `myproc()` -/
def me (w : World N H S K C) : Agent N H → Option (Fin N)
  | .inl p => some p
  | .inr h => w.self h

def Frozen (w : World N H S K C) : Agent N H → Prop
  | .inl p => ∃ h, w.self h = some p
  | .inr _ => False

def move (w : World N H S K C) (a : Agent N H) (p : Pos K C) : World N H S K C :=
  { w with pos := Function.update w.pos a p }

/-- A handler that returns gives its process back. -/
def leave (w : World N H S K C) : Agent N H → Next K C → H → Option (Fin N)
  | .inr h, .done => Function.update w.self h none
  | _, _ => w.self

end World

variable [DecidableEq H] [DecidableEq C]

/-- What `wakeup(c)` does to the process `q`. -/
def World.wake (w : World N H S K C) (a : Agent N H) (q : Fin N) (c : C) : Fin N → Option C :=
  if w.me a ≠ some q ∧ w.asleep q = some c then Function.update w.asleep q none else w.asleep

inductive Step (M : Code N H S K C) : World N H S K C → World N H S K C → Prop
  | call {w : World N H S K C} {p : Fin N} {k : K} : w.pos (.inl p) = .idle → ¬w.Frozen (.inl p) →
      M.call (.inl p) w.shared k → Step M w (w.move (.inl p) (.entry k))
  | interrupt {w : World N H S K C} {h : H} {k : K} {s : Option (Fin N)} : w.pos (.inr h) = .idle →
      (∀ p, s = some p → (w.pos (.inl p)).Open) → M.call (.inr h) w.shared k →
      Step M w { w.move (.inr h) (.entry k) with self := Function.update w.self h s }
  | other {w : World N H S K C} {a : Agent N H} {s : S} : w.pos a = .idle → ¬w.Frozen a → M.other a w.shared s →
      Step M w { w with shared := s }
  | acquire {w : World N H S K C} {a : Agent N H} {k : K} : w.pos a = .entry k → ¬w.Frozen a → w.lock = none →
      Step M w { w.move a (.locked k) with lock := some a }
  | exec {w : World N H S K C} {a : Agent N H} {k : K} {s : S} {n : Next K C} : w.pos a = .locked k →
      M.exec a k w.shared s n →
      Step M w { w.move a n.pos with shared := s, lock := n.lock a, self := w.leave a n }
  | wakeup {w : World N H S K C} {a : Agent N H} {c : C} {q : Fin N} {k : K} : w.pos a = .wakeup c q k →
      (w.pos (.inl q)).Unlocked →
      Step M w { w.move a (.wakeup c (q + 1) k) with asleep := w.wake a q c }
  | wakeupDone {w : World N H S K C} {a : Agent N H} {c : C} {k : K} : w.pos a = .wakeup c N k →
      Step M w (w.move a (.locked k))
  | release {w : World N H S K C} {p : Fin N} {c : C} {k : K} : w.pos (.inl p) = .presleep c k →
      Step M w { w.move (.inl p) (.released c k) with lock := none }
  | sleep {w : World N H S K C} {p : Fin N} {c : C} {k : K} : w.pos (.inl p) = .released c k →
      Step M w { w.move (.inl p) (.sleeping c k) with asleep := Function.update w.asleep p (some c) }
  | resume {w : World N H S K C} {p : Fin N} {c : C} {k : K} : w.pos (.inl p) = .sleeping c k → w.asleep p = none →
      Step M w (w.move (.inl p) (.entry k))
  | rouse {w : World N H S K C} {q : Fin N} : (w.pos (.inl q)).Unlocked →
      Step M w { w with asleep := Function.update w.asleep q none }

/-- Nobody has called anything yet. -/
structure Initial (I : S → Prop) (w : World N H S K C) : Prop where
  shared : I w.shared
  lock : w.lock = none
  pos : ∀ a, w.pos a = .idle
  asleep : ∀ p, w.asleep p = none
  self : ∀ h, w.self h = none

inductive Reaches (M : Code N H S K C) (I : S → Prop) : World N H S K C → Prop
  | init {w : World N H S K C} : Initial I w → Reaches M I w
  | step {w w' : World N H S K C} : Reaches M I w → Step M w w' → Reaches M I w'

end Machine

/-! ## The lock -/

section Lock
variable {N : ℕ} {H S K C : Type} [DecidableEq H] [DecidableEq C] {M : Code N H S K C} {w w' : World N H S K C}

structure Ordered (w : World N H S K C) : Prop where
  holds : ∀ a, (w.pos a).Holds ↔ w.lock = some a
  asleep : ∀ p c, w.asleep p = some c → ∃ k, w.pos (.inl p) = .sleeping c k
  self : ∀ h p, w.self h = some p → (w.pos (.inl p)).Open

theorem Ordered.step (h : Ordered w) (hs : Step M w w') : Ordered w' := by
  obtain ⟨hholds,hasleep,hself⟩ := h
  constructor
  · cases hs with
    | @exec a k s n hp he =>
      cases n <;> simp only [World.move,Next.pos,Next.lock] <;> grind [Pos.Holds]
    | _ =>
      simp only [World.move]
      grind [Pos.Holds]
  · cases hs with
    | @exec a k s n hp he =>
      cases n <;> simp only [World.move,Next.pos] <;> grind
    | @sleep p c k hp =>
      intro q c' hq
      by_cases hqp : q = p
      · subst hqp
        obtain rfl : c = c' := by simpa using hq
        exact ⟨k,Function.update_self ..⟩
      · simp only [World.move] at hq ⊢
        grind
    | _ =>
      simp only [World.move,World.wake]
      grind
  · cases hs with
    | @exec a k s n hp he =>
      cases n <;> cases a <;> simp only [World.move,Next.pos,World.leave] <;> grind [Pos.Open]
    | _ =>
      simp only [World.move]
      grind [Pos.Open,World.Frozen]

omit [DecidableEq H] [DecidableEq C] in
theorem Ordered.init {I : S → Prop} (h : Initial I w) : Ordered w := by
  obtain ⟨-,hlock,hpos,hasleep,hself⟩ := h
  refine ⟨fun a => ?_,fun p c hp => ?_,fun g p hg => ?_⟩
  · simp [hpos,hlock,Pos.Holds]
  · simp [hasleep] at hp
  · simp [hself] at hg

theorem Reaches.ordered {I : S → Prop} (h : Reaches M I w) : Ordered w := by
  induction h with
  | init h => exact .init h
  | step _ hs ih => exact ih.step hs

omit [DecidableEq H] [DecidableEq C] in
theorem Ordered.not_holds (h : Ordered w) {a b : Agent N H} (ha : (w.pos a).Holds) (hne : b ≠ a) : ¬(w.pos b).Holds :=
  fun hb => hne (Option.some.inj (((h.holds b).mp hb).symm.trans ((h.holds a).mp ha)))

end Lock

/-! ## What the lock protects -/

/-- `free` holds of the shared state while the lock is free, `held` while an agent has it and stands at a point, and
`loc` while an agent waits for it; the last is for nobody else to break. -/
structure Spec {N : ℕ} {H S K C : Type} (M : Code N H S K C) where
  free : S → Prop
  held : Agent N H → K → S → Prop
  loc : Agent N H → K → S → Prop
  call : ∀ {a s k}, M.call a s k → loc a k s
  acquire : ∀ {a s k}, free s → loc a k s → held a k s
  exec : ∀ {a k s s' n}, held a k s → M.exec a k s s' n →
    match n with
    | .goto k' | .wakeup _ k' => held a k' s'
    | .sleep _ k' => free s' ∧ loc a k' s'
    | .done => free s'
  exec_loc : ∀ {a b k k' s s' n}, held a k s → M.exec a k s s' n → b ≠ a → loc b k' s → loc b k' s'
  other_free : ∀ {a s s'}, M.other a s s' → free s → free s'
  other_held : ∀ {a b k s s'}, M.other a s s' → b ≠ a → held b k s → held b k s'
  other_loc : ∀ {a b k s s'}, M.other a s s' → b ≠ a → loc b k s → loc b k s'

section Shared
variable {N : ℕ} {H S K C : Type} {M : Code N H S K C} {w w' : World N H S K C}

/-- What is known of an agent at a place. -/
def Spec.Good (P : Spec M) (s : S) (a : Agent N H) : Pos K C → Prop
  | .idle => True
  | .locked k | .wakeup _ _ k => P.held a k s
  | .presleep _ k => P.free s ∧ P.loc a k s
  | .entry k | .released _ k | .sleeping _ k => P.loc a k s

structure Spec.Inv (P : Spec M) (w : World N H S K C) : Prop where
  free : w.lock = none → P.free w.shared
  good : ∀ a, P.Good w.shared a (w.pos a)

variable {P : Spec M}

theorem Spec.Good.exec {a b : Agent N H} {k : K} {s s' : S} {n : Next K C} {p : Pos K C} (hk : P.held a k s)
    (he : M.exec a k s s' n) (hne : b ≠ a) (hp : ¬p.Holds) (h : P.Good s b p) : P.Good s' b p := by
  cases p with
  | idle => trivial
  | locked | wakeup | presleep => exact absurd trivial hp
  | entry | released | sleeping => exact P.exec_loc hk he hne h

theorem Spec.Good.other {a b : Agent N H} {s s' : S} {p : Pos K C} (he : M.other a s s') (hne : b ≠ a)
    (h : P.Good s b p) : P.Good s' b p := by
  cases p with
  | idle => trivial
  | locked | wakeup => exact P.other_held he hne h
  | presleep => exact ⟨P.other_free he h.1,P.other_loc he hne h.2⟩
  | entry | released | sleeping => exact P.other_loc he hne h

variable [DecidableEq H] [DecidableEq C]

theorem Spec.Inv.step (ho : Ordered w) (h : P.Inv w) (hs : Step M w w') : P.Inv w' := by
  obtain ⟨hfree,hgood⟩ := h
  -- a step that only moves one agent
  have hmove : ∀ (a : Agent N H) (p : Pos K C), P.Good w.shared a p →
      ∀ b, P.Good w.shared b (Function.update w.pos a p b) := fun a p hp =>
    (Function.forall_update_iff w.pos _).mpr ⟨hp,fun b _ => hgood b⟩
  cases hs with
  | call hp hf hc => exact ⟨hfree,hmove _ _ (P.call hc)⟩
  | interrupt hp hf hc => exact ⟨hfree,hmove _ _ (P.call hc)⟩
  | @other a s hp hf hc =>
    refine ⟨fun hl => P.other_free hc (hfree hl),fun b => ?_⟩
    by_cases hb : b = a
    · subst hb
      rw [hp]
      trivial
    · exact (hgood b).other hc hb
  | @acquire a k hp hf hl =>
    have ha := hgood a
    rw [hp] at ha
    exact ⟨nofun,hmove a _ (P.acquire (hfree hl) ha)⟩
  | @exec a k s n hp hc =>
    have ha := hgood a
    have hholds : (w.pos a).Holds := by
      rw [hp]
      trivial
    rw [hp] at ha
    have hpost := P.exec ha hc
    have hothers : ∀ b, b ≠ a → P.Good s b (w.pos b) := fun b hb =>
      (hgood b).exec ha hc hb (ho.not_holds hholds hb)
    refine ⟨fun hl => ?_,(Function.forall_update_iff w.pos _).mpr ⟨?_,hothers⟩⟩
    · cases n with
      | done => exact hpost
      | goto | wakeup | sleep => cases hl
    · cases n with
      | done => trivial
      | goto | wakeup | sleep => exact hpost
  | @wakeup a c q k hp hu =>
    have ha := hgood a
    rw [hp] at ha
    exact ⟨hfree,hmove a _ ha⟩
  | @wakeupDone a c k hp =>
    have ha := hgood a
    rw [hp] at ha
    exact ⟨hfree,hmove a _ ha⟩
  | @release p c k hp =>
    have ha := hgood (.inl p)
    rw [hp] at ha
    exact ⟨fun _ => ha.1,hmove _ _ ha.2⟩
  | @sleep p c k hp =>
    have ha := hgood (.inl p)
    rw [hp] at ha
    exact ⟨hfree,hmove _ _ ha⟩
  | @resume p c k hp hn =>
    have ha := hgood (.inl p)
    rw [hp] at ha
    exact ⟨hfree,hmove _ _ ha⟩
  | rouse hu => exact ⟨hfree,hgood⟩

omit [DecidableEq H] [DecidableEq C] in
/-- What follows from all parts of the specification holds at any time. -/
theorem Spec.Inv.always (ho : Ordered w) (h : P.Inv w) {Q : S → Prop} (hfree : ∀ s, P.free s → Q s)
    (hheld : ∀ a k s, P.held a k s → Q s) : Q w.shared := by
  cases hl : w.lock with
  | none => exact hfree _ (h.free hl)
  | some a =>
    have ha := (ho.holds a).mpr hl
    have hgood := h.good a
    cases hp : w.pos a with
    | idle | entry | released | sleeping =>
      rw [hp] at ha
      exact ha.elim
    | locked | wakeup =>
      rw [hp] at hgood
      exact hheld _ _ _ hgood
    | presleep =>
      rw [hp] at hgood
      exact hfree _ hgood.1

theorem Reaches.inv {I : S → Prop} (h : Reaches M I w) (hI : ∀ s, I s → P.free s) : P.Inv w := by
  induction h with
  | @init w h => exact ⟨fun _ => hI _ h.shared,fun a => by rw [h.pos]; trivial⟩
  | step hr hs ih => exact ih.step hr.ordered hs

end Shared

/-! ## No wakeup is lost -/

/-- A process goes to sleep on `c` only while `Full c` holds, and a section of code after which that is no longer so
ends in `wakeup(c)`. -/
structure Wakes {N : ℕ} {H S K C : Type} {M : Code N H S K C} (P : Spec M) (Full : C → S → Prop) : Prop where
  sleep : ∀ {a k s s' c k'}, P.held a k s → M.exec a k s s' (.sleep c k') → Full c s'
  exec : ∀ {a k s s' c n}, P.held a k s → M.exec a k s s' n → Full c s → Full c s' ∨ ∃ k', n = .wakeup c k'
  other : ∀ {a s s' c}, M.other a s s' → Full c s → Full c s'

section Waking
variable {N : ℕ} {H S K C : Type} {M : Code N H S K C} {w w' : World N H S K C} {P : Spec M} {Full : C → S → Prop} {a : Agent N H}

/-- Asleep, or on the way with the lock of the process. -/
def World.Rests (w : World N H S K C) (q : Fin N) (c : C) : Prop :=
  w.asleep q = some c ∨ ∃ k, w.pos (.inl q) = .released c k

/-- Some agent is in `wakeup(c)` and has not come to `q`. -/
def World.Pending (w : World N H S K C) (q : Fin N) (c : C) : Prop := ∃ a j k, w.pos a = .wakeup c j k ∧ j ≤ q.val

structure Awake (Full : C → S → Prop) (w : World N H S K C) : Prop where
  rests : ∀ q c, w.Rests q c → Full c w.shared ∨ w.Pending q c
  presleep : ∀ a c k, w.pos a = .presleep c k → Full c w.shared

theorem World.Pending.update [DecidableEq H] {p : Pos K C} {q : Fin N} {c : C} (h : w.Pending q c)
    (ha : ∀ c j k, w.pos a ≠ .wakeup c j k) (hpos : w'.pos = Function.update w.pos a p) : w'.Pending q c := by
  obtain ⟨b,j,k,hb,hj⟩ := h
  have hne : b ≠ a := by
    rintro rfl
    exact ha c j k hb
  exact ⟨b,j,k,by rw [hpos,Function.update_of_ne hne,hb],hj⟩

theorem Ordered.pending (h : Ordered w) (ha : (w.pos a).Holds) {q : Fin N} {c : C} (hp : w.Pending q c) :
    ∃ j k, w.pos a = .wakeup c j k ∧ j ≤ q.val := by
  obtain ⟨b,j,k,hb,hj⟩ := hp
  by_cases hba : b = a
  · exact ⟨j,k,by rw [← hba,hb],hj⟩
  · refine absurd ?_ (h.not_holds ha hba)
    rw [hb]
    trivial

/-- `wakeup` does not pass over a sleeper. -/
theorem Ordered.me_ne (h : Ordered w) (ha : (w.pos a).Holds) {q : Fin N} {c : C}
    (hq : w.asleep q = some c) : w.me a ≠ some q := by
  obtain ⟨k,hk⟩ := h.asleep q c hq
  intro hme
  cases a with
  | inl p =>
    obtain rfl : p = q := Option.some.inj hme
    rw [hk] at ha
    exact ha
  | inr g =>
    have := h.self g q hme
    rw [hk] at this
    exact this

variable [DecidableEq H] [DecidableEq C]

omit [DecidableEq C] in
/-- A step that only moves one agent, not in `wakeup` and not to where it holds its own lock. -/
theorem Awake.move (h : Awake Full w) {p : Pos K C} (ha : ∀ c j k, w.pos a ≠ .wakeup c j k)
    (hpos : w'.pos = Function.update w.pos a p) (hshared : w'.shared = w.shared)
    (hasleep : ∀ q c, w'.asleep q = some c → w.Rests q c)
    (hreleased : ∀ c k, p = .released c k → Full c w.shared) (hpre : ∀ c k, p ≠ .presleep c k) : Awake Full w' := by
  constructor
  · rw [hshared]
    rintro q c (hq | ⟨k,hk⟩)
    · exact (h.rests q c (hasleep q c hq)).imp id fun hp => hp.update ha hpos
    · by_cases hqa : Sum.inl q = a
      · rw [hpos,hqa,Function.update_self] at hk
        exact .inl (hreleased c k hk)
      · rw [hpos,Function.update_of_ne hqa] at hk
        exact (h.rests q c (.inr ⟨k,hk⟩)).imp id fun hp => hp.update ha hpos
  · rw [hshared]
    intro b c k hb
    by_cases hba : b = a
    · rw [hpos,hba,Function.update_self] at hb
      exact absurd hb (hpre c k)
    · rw [hpos,Function.update_of_ne hba] at hb
      exact h.presleep b c k hb

omit [DecidableEq C] in
theorem Awake.exec (W : Wakes P Full) (ho : Ordered w) (h : Awake Full w) {k : K} {s : S} {n : Next K C}
    (hp : w.pos a = .locked k) (hk : P.held a k w.shared) (he : M.exec a k w.shared s n) :
    Awake Full ({ w.move a n.pos with shared := s, lock := n.lock a, self := w.leave a n } : World N H S K C) := by
  have hholds : (w.pos a).Holds := by
    rw [hp]
    trivial
  constructor
  · intro q c hq
    have hold : w.Rests q c := by
      refine hq.imp id ?_
      rintro ⟨k',hk'⟩
      by_cases hqa : Sum.inl q = a
      · simp only [World.move,hqa,Function.update_self] at hk'
        cases n <;> cases hk'
      · simp only [World.move,Function.update_of_ne hqa] at hk'
        exact ⟨k',hk'⟩
    have hfull : Full c w.shared := by
      refine (h.rests q c hold).resolve_right fun hpend => ?_
      obtain ⟨j,k',hw,-⟩ := ho.pending hholds hpend
      rw [hp] at hw
      cases hw
    refine (W.exec hk he hfull).imp id ?_
    rintro ⟨k',rfl⟩
    exact ⟨a,0,k',Function.update_self ..,Nat.zero_le _⟩
  · intro b c k' hb
    by_cases hba : b = a
    · simp only [World.move,hba,Function.update_self] at hb
      cases n with
      | sleep c' k'' =>
        cases hb
        exact W.sleep hk he
      | goto | wakeup | done => cases hb
    · simp only [World.move,Function.update_of_ne hba] at hb
      refine absurd ?_ (ho.not_holds hholds hba)
      rw [hb]
      trivial

theorem Awake.wakeup (ho : Ordered w) (h : Awake Full w) {c : C} {q : Fin N} {k : K}
    (hp : w.pos a = .wakeup c q k) (hu : (w.pos (.inl q)).Unlocked) :
    Awake Full ({ w.move a (.wakeup c (q + 1) k) with asleep := w.wake a q c } : World N H S K C) := by
  have hholds : (w.pos a).Holds := by
    rw [hp]
    trivial
  have hreleased : ∀ r c' k', Function.update w.pos a (.wakeup c (q + 1) k) (.inl r) = .released c' k' →
      w.pos (.inl r) = .released c' k' := fun r c' k' hr => by
    by_cases hra : Sum.inl r = a
    · rw [hra,Function.update_self] at hr
      cases hr
    · rwa [Function.update_of_ne hra] at hr
  constructor
  · intro r c' hr
    have hold : w.Rests r c' := by
      rcases hr with hr | ⟨k',hk'⟩
      · left
        simp only [World.wake] at hr
        split at hr
        · by_cases hrq : r = q
          · rw [hrq,Function.update_self] at hr
            cases hr
          · rwa [Function.update_of_ne hrq] at hr
        · exact hr
      · exact .inr ⟨k',hreleased r c' k' hk'⟩
    refine (h.rests r c' hold).imp id fun hpend => ?_
    obtain ⟨j,k',hw,hj⟩ := ho.pending hholds hpend
    rw [hp] at hw
    cases hw
    refine ⟨a,q + 1,k,Function.update_self ..,?_⟩
    -- the process just looked at is not one of those that rest
    by_contra hlt
    obtain rfl : r = q := Fin.ext (by omega)
    rcases hr with hr | ⟨k',hk'⟩
    · simp only [World.wake] at hr
      split at hr
      · rw [Function.update_self] at hr
        cases hr
      · rename_i hno
        exact hno ⟨ho.me_ne hholds hr,hr⟩
    · rw [hreleased r c k' hk'] at hu
      exact hu
  · intro b c' k' hb
    by_cases hba : b = a
    · simp only [World.move,hba,Function.update_self] at hb
      cases hb
    · simp only [World.move,Function.update_of_ne hba] at hb
      refine absurd ?_ (ho.not_holds hholds hba)
      rw [hb]
      trivial

omit [DecidableEq C] in
theorem Awake.wakeupDone (ho : Ordered w) (h : Awake Full w) {c : C} {k : K}
    (hp : w.pos a = .wakeup c N k) : Awake Full (w.move a (.locked k)) := by
  have hholds : (w.pos a).Holds := by
    rw [hp]
    trivial
  -- all processes have been looked at
  have hfull : ∀ q c', w.Rests q c' → Full c' w.shared := fun q c' hq => by
    refine (h.rests q c' hq).resolve_right fun hpend => ?_
    obtain ⟨j,k',hw,hj⟩ := ho.pending hholds hpend
    rw [hp] at hw
    cases hw
    exact absurd q.isLt (by omega)
  constructor
  · intro q c' hq
    refine .inl (hfull q c' (hq.imp id ?_))
    rintro ⟨k',hk'⟩
    by_cases hqa : Sum.inl q = a
    · simp only [World.move,hqa,Function.update_self] at hk'
      cases hk'
    · simp only [World.move,Function.update_of_ne hqa] at hk'
      exact ⟨k',hk'⟩
  · intro b c' k' hb
    by_cases hba : b = a
    · simp only [World.move,hba,Function.update_self] at hb
      cases hb
    · simp only [World.move,Function.update_of_ne hba] at hb
      exact h.presleep b c' k' hb

theorem Awake.step (W : Wakes P Full) (ho : Ordered w) (hi : P.Inv w) (h : Awake Full w) (hs : Step M w w') :
    Awake Full w' := by
  cases hs with
  | call hp hf hc => exact h.move (by simp [hp]) rfl rfl (fun q c hq => .inl hq) nofun nofun
  | interrupt hp hf hc => exact h.move (by simp [hp]) rfl rfl (fun q c hq => .inl hq) nofun nofun
  | other hp hf hc =>
    exact ⟨fun q c hq => (h.rests q c hq).imp (W.other hc) id,fun a c k ha => W.other hc (h.presleep a c k ha)⟩
  | acquire hp hf hl => exact h.move (by simp [hp]) rfl rfl (fun q c hq => .inl hq) nofun nofun
  | @exec a k s n hp he =>
    have hk := hi.good a
    rw [hp] at hk
    exact h.exec W ho hp hk he
  | wakeup hp hu => exact h.wakeup ho hp hu
  | wakeupDone hp => exact h.wakeupDone ho hp
  | @release p c k hp =>
    refine h.move (by simp [hp]) rfl rfl (fun q c hq => .inl hq) (fun c' k' hk' => ?_) nofun
    cases hk'
    exact h.presleep _ _ _ hp
  | @sleep p c k hp =>
    refine h.move (by simp [hp]) rfl rfl (fun q c' hq => ?_) nofun nofun
    by_cases hqp : q = p
    · subst hqp
      obtain rfl : c = c' := by simpa using hq
      exact .inr ⟨k,hp⟩
    · exact .inl (by simpa [hqp] using hq)
  | resume hp hn => exact h.move (by simp [hp]) rfl rfl (fun q c hq => .inl hq) nofun nofun
  | @rouse q hu =>
    refine ⟨fun r c hr => h.rests r c (hr.imp (fun hr => ?_) id),h.presleep⟩
    by_cases hrq : r = q
    · subst hrq
      simp at hr
    · simpa [hrq] using hr

theorem Reaches.awake {I : S → Prop} (W : Wakes P Full) (h : Reaches M I w) (hI : ∀ s, I s → P.free s) : Awake Full w := by
  induction h with
  | init h =>
    refine ⟨fun q c hq => ?_,fun a c k ha => ?_⟩
    · rcases hq with hq | ⟨k,hk⟩
      · simp [h.asleep] at hq
      · simp [h.pos] at hk
    · simp [h.pos] at ha
  | step hr hs ih => exact ih.step W hr.ordered (hr.inv hI) hs

/-- While the lock is free, nobody sleeps without a reason. -/
theorem Reaches.no_lost_wakeup {I : S → Prop} (W : Wakes P Full) (h : Reaches M I w) (hI : ∀ s, I s → P.free s)
    (hl : w.lock = none) {q : Fin N} {c : C} (hq : w.asleep q = some c) : Full c w.shared := by
  refine ((h.awake W hI).rests q c (.inl hq)).resolve_right ?_
  rintro ⟨a,j,k,ha,-⟩
  have := (h.ordered.holds a).mp (by rw [ha]; trivial)
  rw [hl] at this
  cases this

end Waking

end Xv6.Library.Monitor
