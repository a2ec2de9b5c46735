import Xv6.Library.Monitor

/-! # Sleep-locks

`acquiresleep` and `releasesleep` under the spin lock `lk->lk`. The one channel is the lock itself; `kill` rouses sleepers.
No interrupt handler takes part.
-/
namespace Xv6.Sleeplock
open Library Library.Monitor
open Function (update update_of_ne update_self)

structure Lock (N : ℕ) where
  locked : Bool
  pid : BitVec 32
  /-- `p->pid` -/
  procPid : Fin N → BitVec 32
  /-- has returned from `acquiresleep` and not yet released the lock -/
  inside : Fin N → Bool

inductive Point
  | acquiresleep
  | releasesleep
  /-- after the `wakeup` -/
  | ret

variable {N : ℕ}

/-- The code between `acquire(&lk->lk)`, `sleep`, `wakeup` and `release(&lk->lk)`. -/
def Point.exec (p : Fin N) (lk : Lock N) : Point → Lock N × Next Point Unit
  | .acquiresleep =>
    if lk.locked then (lk,.sleep () .acquiresleep)
    else ({ lk with locked := true, pid := lk.procPid p, inside := update lk.inside p true },.done)
  | .releasesleep =>
    ({ lk with locked := false, pid := 0, inside := update lk.inside p false },.wakeup () .ret)
  | .ret => (lk,.done)

/-- A process releases the lock only if it has it. A process that does not have it may end, and another one with a
pid of its own takes its slot. -/
def code (N : ℕ) : Monitor.Code N Empty (Lock N) Point Unit where
  call := fun a lk k => k = .acquiresleep ∨ k = .releasesleep ∧ ∃ p, a = .inl p ∧ lk.inside p = true
  exec := fun a k lk lk' n => ∃ p, a = .inl p ∧ k.exec p lk = (lk',n)
  other := fun a lk lk' => ∃ p v, a = .inl p ∧ lk.inside p = false ∧ lk' = { lk with procPid := update lk.procPid p v }

def Start (lk : Lock N) : Prop := lk.locked = false ∧ ∀ p, lk.inside p = false

structure Sound (lk : Lock N) : Prop where
  one : ∀ p q, lk.inside p = true → lk.inside q = true → p = q
  owner : ∀ p, lk.inside p = true → lk.locked = true ∧ lk.pid = lk.procPid p

def Point.Loc (lk : Lock N) (a : Agent N Empty) : Point → Prop
  | .releasesleep => ∃ p, a = .inl p ∧ lk.inside p = true
  | .acquiresleep | .ret => True

section
variable {lk : Lock N}

theorem Sound.take (h : Sound lk) (hfree : ¬lk.locked = true) (p : Fin N) :
    Sound { lk with locked := true, pid := lk.procPid p, inside := update lk.inside p true } := by
  have hnone : ∀ q, lk.inside q ≠ true := fun q hq => hfree (h.owner q hq).1
  have honly : ∀ q, update lk.inside p true q = true → q = p := fun q hq => by
    by_contra hne
    rw [update_of_ne hne] at hq
    exact hnone q hq
  refine ⟨fun q r hq hr => (honly q hq).trans (honly r hr).symm,fun q hq => ⟨rfl,?_⟩⟩
  rw [honly q hq]

theorem Sound.give (h : Sound lk) {p : Fin N} (hp : lk.inside p = true) :
    Sound { lk with locked := false, pid := 0, inside := update lk.inside p false } := by
  have hnone : ∀ q, update lk.inside p false q ≠ true := fun q hq => by
    by_cases hqp : q = p
    · rw [hqp,update_self] at hq
      cases hq
    · rw [update_of_ne hqp] at hq
      exact hqp (h.one q p hq hp)
  exact ⟨fun q _ hq => absurd hq (hnone q),fun q hq => absurd hq (hnone q)⟩

theorem Sound.reuse (h : Sound lk) {p : Fin N} (hp : lk.inside p = false) (v : BitVec 32) :
    Sound { lk with procPid := update lk.procPid p v } := by
  refine ⟨h.one,fun q hq => ⟨(h.owner q hq).1,?_⟩⟩
  have hne : q ≠ p := by
    rintro rfl
    have : lk.inside q = true := hq
    rw [hp] at this
    cases this
  simpa only [update_of_ne hne] using (h.owner q hq).2

end

def spec (N : ℕ) : Spec (code N) where
  free := Sound
  held := fun a k lk => Sound lk ∧ k.Loc lk a
  loc := fun a k lk => k.Loc lk a
  call := by
    rintro a lk k (rfl | ⟨rfl,h⟩)
    · trivial
    · exact h
  acquire := fun h hl => ⟨h,hl⟩
  exec := by
    rintro _ k lk lk' n ⟨h,hloc⟩ ⟨p,rfl,he⟩
    cases k with
    | acquiresleep =>
      rw [Point.exec] at he
      split at he
      · cases he
        exact ⟨h,trivial⟩
      · rename_i hfree
        cases he
        exact h.take hfree p
    | releasesleep =>
      cases he
      obtain ⟨q,hq,hin⟩ := hloc
      cases hq
      exact ⟨h.give hin,trivial⟩
    | ret =>
      cases he
      exact h
  exec_loc := by
    rintro _ b k k' lk lk' n - ⟨p,rfl,he⟩ hne hloc
    cases k' with
    | acquiresleep | ret => trivial
    | releasesleep =>
      obtain ⟨q,rfl,hq⟩ := hloc
      have hqp : q ≠ p := fun h => hne (by rw [h])
      refine ⟨q,rfl,?_⟩
      cases k with
      | acquiresleep =>
        rw [Point.exec] at he
        split at he
        · cases he
          exact hq
        · cases he
          simpa only [update_of_ne hqp] using hq
      | releasesleep =>
        cases he
        simpa only [update_of_ne hqp] using hq
      | ret =>
        cases he
        exact hq
  other_free := by
    rintro _ lk _ ⟨p,v,rfl,hp,rfl⟩ h
    exact h.reuse hp v
  other_held := by
    rintro _ b k lk _ ⟨p,v,rfl,hp,rfl⟩ - ⟨h,hloc⟩
    exact ⟨h.reuse hp v,by cases k <;> exact hloc⟩
  other_loc := by
    rintro _ b k lk _ ⟨p,v,rfl,hp,rfl⟩ - hloc
    cases k <;> exact hloc

theorem wakes (N : ℕ) : Wakes (spec N) fun _ lk => lk.locked = true where
  sleep := by
    rintro _ k lk lk' c k' - ⟨p,rfl,he⟩
    cases k with
    | acquiresleep =>
      rw [Point.exec] at he
      split at he
      · rename_i hl
        cases he
        exact hl
      · cases he
    | releasesleep | ret => cases he
  exec := by
    rintro _ k lk lk' c n - ⟨p,rfl,he⟩ hfull
    cases k with
    | acquiresleep =>
      rw [Point.exec,if_pos hfull] at he
      cases he
      exact .inl hfull
    | releasesleep =>
      cases he
      exact .inr ⟨.ret,rfl⟩
    | ret =>
      cases he
      exact .inl hfull
  other := by
    rintro _ lk _ c ⟨p,v,rfl,hp,rfl⟩ hfull
    exact hfull

/-- At most one process has the lock, the lock has its pid, and nobody sleeps on a lock that is free. -/
theorem sleeplock_exclusive {w : World N Empty (Lock N) Point Unit} (h : Reaches (code N) Start w) :
    (∀ p q, w.shared.inside p = true → w.shared.inside q = true → p = q) ∧
      (∀ p, w.shared.inside p = true → w.shared.pid = w.shared.procPid p) ∧
      (w.lock = none → w.shared.locked = false → ∀ p, w.asleep p = none) := by
  have hstart : ∀ lk : Lock N, Start lk → (spec N).free lk := fun lk hlk =>
    have hnone : ∀ p, lk.inside p ≠ true := fun p hp => by
      rw [hlk.2 p] at hp
      cases hp
    ⟨fun p _ hp => absurd hp (hnone p),fun p hp => absurd hp (hnone p)⟩
  have hsound : Sound w.shared := (h.inv hstart).always h.ordered (fun _ h => h) fun _ _ _ h => h.1
  refine ⟨hsound.one,fun p hp => (hsound.owner p hp).2,fun hl hfree p => ?_⟩
  cases hp : w.asleep p with
  | none => rfl
  | some c =>
    have hfull := h.no_lost_wakeup (wakes N) hstart hl hp
    rw [hfree] at hfull
    cases hfull

/-- Process 1 sleeps until process 0 releases the lock, and then has it. -/
theorem sleeplock_exclusive_handover : ∃ w : World 2 Empty (Lock 2) Point Unit, Reaches (code 2) Start w ∧
    w.shared.inside 1 = true ∧ w.shared.pid = w.shared.procPid 1 := by
  have h : Reaches (code 2) Start ⟨⟨false,0,fun p => BitVec.ofNat 32 (p.val + 1),fun _ => false⟩,none,fun _ => .idle,
    fun _ => none,nofun⟩ := .init ⟨⟨rfl,fun _ => rfl⟩,rfl,fun _ => rfl,fun _ => rfl,nofun⟩
  have h := h.step (.call (p := 0) rfl nofun (.inl rfl))
  have h := h.step (.acquire (a := .inl 0) rfl nofun rfl)
  have h := h.step (.exec (a := .inl 0) rfl ⟨0,rfl,rfl⟩)
  have h := h.step (.call (p := 1) rfl nofun (.inl rfl))
  have h := h.step (.acquire (a := .inl 1) rfl nofun rfl)
  have h := h.step (.exec (a := .inl 1) rfl ⟨1,rfl,rfl⟩)
  have h := h.step (.release (p := 1) rfl)
  have h := h.step (.sleep (p := 1) rfl)
  have h := h.step (.call (p := 0) rfl nofun (.inr ⟨rfl,0,rfl,rfl⟩))
  have h := h.step (.acquire (a := .inl 0) rfl nofun rfl)
  have h := h.step (.exec (a := .inl 0) rfl ⟨0,rfl,rfl⟩)
  have h := h.step (.wakeup (a := .inl 0) (q := 0) rfl trivial)
  have h := h.step (.wakeup (a := .inl 0) (q := 1) rfl trivial)
  have h := h.step (.wakeupDone (a := .inl 0) rfl)
  have h := h.step (.exec (a := .inl 0) rfl ⟨0,rfl,rfl⟩)
  have h := h.step (.resume (p := 1) rfl rfl)
  have h := h.step (.acquire (a := .inl 1) rfl nofun rfl)
  have h := h.step (.exec (a := .inl 1) rfl ⟨1,rfl,rfl⟩)
  exact ⟨_,h,rfl,(sleeplock_exclusive h).2.1 1 rfl⟩

end Xv6.Sleeplock
