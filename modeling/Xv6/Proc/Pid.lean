import Xv6.Proc.Kill

/-! # Process ids

`allocpid` hands out the values of a counter that is an `int` and never looks at the process table.
-/
namespace Xv6.KillProtocol
open SchedProtocol (ProcState)

variable {N : ℕ} {init : Fin N} {w w' : World N} {e : Event N} {t : List (Event N)}

/-- Runs in which `allocpid` is only called while `nextpid` is positive. -/
inductive PidRun (init : Fin N) : World N → Prop
  | init {w : World N} : Initial init w → PidRun init w
  | step {w w' : World N} {e : Event N} : PidRun init w → Step init w e w' →
      (w'.nextpid ≠ w.nextpid → 0 < w.nextpid.toInt) → PidRun init w'

theorem Step.pids (hp : Places w) (hs : Step init w e w') :
    (w'.nextpid = w.nextpid ∧ ∀ q, w'.state q ≠ .unused → w.state q ≠ .unused ∧ w'.pid q = w.pid q) ∨
    w'.nextpid = w.nextpid + 1 ∧ ∃ a, ∀ q, w'.state q ≠ .unused →
      q = a ∧ w'.pid q = w.nextpid ∨ q ≠ a ∧ w.state q ≠ .unused ∧ w'.pid q = w.pid q := by
  have hchild := hp.child
  cases hs with
  | @forkAlloc x q _ _ hq =>
    refine .inr ⟨rfl,q,fun p hp => ?_⟩
    grind -ring -linarith
  | @forkFails x q _ _ hq =>
    refine .inr ⟨rfl,q,fun p hp => ?_⟩
    simp only [World.freeproc] at hp ⊢
    grind -ring -linarith
  | _ =>
    refine .inl ⟨rfl,fun p hp => ?_⟩
    try simp only [World.freeproc] at hp ⊢
    grind -ring -linarith

structure Numbered (w : World N) : Prop where
  places : Places w
  bound : w.nextpid.toNat ≤ 2 ^ 31
  below : ∀ q, w.state q ≠ .unused → 0 < (w.pid q).toNat ∧ (w.pid q).toNat < w.nextpid.toNat
  inj : ∀ p q, w.state p ≠ .unused → w.state q ≠ .unused → w.pid p = w.pid q → p = q

theorem Numbered.initial (h : Initial init w) : Numbered w := by
  have hinit : ∀ q, w.state q ≠ .unused → q = init := fun q hq => by
    by_contra hne
    exact hq (h.unused q hne).1
  refine ⟨(Inv.initial h).places,?_,?_,?_⟩
  · rw [h.nextpid]
    decide
  · intro q hq
    rw [hinit q hq,h.pid,h.nextpid]
    decide
  · intro p q hp hq _
    rw [hinit p hp,hinit q hq]

theorem Numbered.step (h : Numbered w) (hs : Step init w e w') (hpos : w'.nextpid ≠ w.nextpid → 0 < w.nextpid.toInt) :
    Numbered w' := by
  obtain ⟨hplaces,hbound,hbelow,hinj⟩ := h
  rcases hs.pids hplaces with ⟨hnext,hsame⟩ | ⟨hnext,a,hslot⟩
  · refine ⟨hplaces.step hs,by rwa [hnext],fun q hq => ?_,fun p q hp hq hpq => ?_⟩
    · rw [hnext,(hsame q hq).2]
      exact hbelow q (hsame q hq).1
    · rw [(hsame p hp).2,(hsame q hq).2] at hpq
      exact hinj p q (hsame p hp).1 (hsame q hq).1 hpq
  · have hlt : w.nextpid.toNat < 2 ^ 31 := by
      have hint := hpos (by rw [hnext]; simp)
      rw [BitVec.toInt_eq_toNat_cond] at hint
      split at hint <;> omega
    have hzero : 0 < w.nextpid.toNat := by
      have hint := hpos (by rw [hnext]; simp)
      rw [BitVec.toInt_eq_toNat_of_lt (by omega)] at hint
      omega
    have hsucc : w'.nextpid.toNat = w.nextpid.toNat + 1 := by
      rw [hnext,BitVec.toNat_add]
      exact Nat.mod_eq_of_lt (by simp; omega)
    have hold : ∀ q, w.state q ≠ .unused → w.pid q ≠ w.nextpid := fun q hq he => by
      have := (hbelow q hq).2
      rw [he] at this
      omega
    refine ⟨hplaces.step hs,by omega,fun q hq => ?_,fun p q hp hq hpq => ?_⟩
    · rcases hslot q hq with ⟨-,hpid⟩ | ⟨-,hu,hpid⟩
      · rw [hpid]
        omega
      · have := hbelow q hu
        rw [hpid]
        omega
    · rcases hslot p hp with ⟨rfl,hpid⟩ | ⟨hne,hu,hpid⟩
      · rcases hslot q hq with ⟨rfl,-⟩ | ⟨-,hu',hpid'⟩
        · rfl
        · exact absurd (hpid'.symm.trans (hpq.symm.trans hpid)) (hold q hu')
      · rcases hslot q hq with ⟨rfl,hpid'⟩ | ⟨-,hu',hpid'⟩
        · exact absurd (hpid.symm.trans (hpq.trans hpid')) (hold p hu)
        · exact hinj p q hu hu' (hpid.symm.trans (hpq.trans hpid'))

theorem PidRun.numbered (h : PidRun init w) : Numbered w := by
  induction h with
  | init h => exact .initial h
  | step _ hs hpos ih => exact ih.step hs hpos

/-- While the counter is positive whenever a pid is taken, the processes have different positive pids. -/
theorem pids_unique (h : PidRun init w) :
    (∀ q, w.state q ≠ .unused → 0 < (w.pid q).toInt) ∧
      ∀ p q, w.state p ≠ .unused → w.state q ≠ .unused → p ≠ q → w.pid p ≠ w.pid q := by
  obtain ⟨-,hbound,hbelow,hinj⟩ := h.numbered
  refine ⟨fun q hq => ?_,fun p q hp hq hne he => hne (hinj p q hp hq he)⟩
  have := hbelow q hq
  rw [BitVec.toInt_eq_toNat_of_lt (by omega)]
  omega

/-- After init has forked, there are two processes. -/
theorem pids_unique_child : ∃ w : World NPROC, PidRun 0 w ∧ w.state 0 ≠ .unused ∧ w.state 1 ≠ .unused ∧ w.pid 0 ≠ w.pid 1 := by
  have h := PidRun.init boot_initial
  have h := h.step (.dispatch (x := 0) rfl) (fun h => absurd rfl h)
  have h := h.step (.forkAlloc (x := 0) (q := 1) rfl rfl rfl) (fun _ => by decide)
  exact ⟨_,h,by decide,by decide,(pids_unique h).2 0 1 (by decide) (by decide) (by decide)⟩

/-! ## Long runs -/

structure Alone (w : World NPROC) (n : BitVec 32) : Prop where
  running : w.state 0 = .running
  pid : w.pid 0 = 1
  unused : w.state 1 = .unused
  pos : ∀ q, w.pos q = .run
  nextpid : w.nextpid = n

theorem Alone.round {w : World NPROC} {t : List (Event NPROC)} {n : BitVec 32} (h : Alone w n) (hr : Run 0 w t) :
    ∃ w' t', Run 0 w' t' ∧ Alone w' (n + 1) := by
  obtain ⟨hrun,hpid,hunused,hpos,rfl⟩ := h
  have h10 : (1 : Fin NPROC) ≠ 0 := by decide
  have hr := hr.step (.forkAlloc (x := 0) (q := 1) hrun (hpos 0) hunused)
  have hr := hr.step (.forkDone (x := 0) (q := 1) (by simp [hrun]) (by simp))
  have hr := hr.step (.dispatch (x := 1) (by simp))
  have hr := hr.step (.exit (x := 1) (by simp) (by simp [hpos]) h10)
  have hr := hr.step (.reap (x := 0) (q := 1) (by simp [hrun]) (by simp) (by simp))
  refine ⟨_,_,hr,?_,?_,?_,?_,rfl⟩
  · simp [World.freeproc,hrun]
  · simp [World.freeproc,hpid]
  · simp [World.freeproc]
  · intro q
    by_cases hq : q = 0 <;> simp [World.freeproc,hpos,hq]

theorem exists_alone (k : ℕ) : ∃ w t, Run 0 w t ∧ Alone w (BitVec.ofNat 32 (k + 2)) := by
  induction k with
  | zero =>
    have h := (Run.init boot_initial).step (.dispatch (x := 0) rfl)
    exact ⟨_,_,h,rfl,rfl,rfl,fun _ => rfl,rfl⟩
  | succ k ih =>
    obtain ⟨w,t,hr,h⟩ := ih
    obtain ⟨w',t',hr',h'⟩ := h.round hr
    refine ⟨w',t',hr',?_⟩
    rwa [Nat.add_right_comm,BitVec.ofNat_add]

/-- When the counter has come round, a child gets the pid of init. -/
theorem pids_wrap : ∃ (w : World NPROC) (t : List (Event NPROC)), Run 0 w t ∧ w.state 0 ≠ .unused ∧ w.state 1 ≠ .unused ∧
    w.pid 0 = w.pid 1 := by
  obtain ⟨w,t,hr,hrun,hpid,hunused,hpos,hnext⟩ := exists_alone (2 ^ 32 - 1)
  have hnext' : w.nextpid = 1 := by
    rw [hnext]
    decide
  refine ⟨_,_,hr.step (.forkAlloc (x := 0) (q := 1) hrun (hpos 0) hunused),?_,?_,?_⟩
  · simp [hrun]
  · simp
  · simp [hpid,hnext']

end Xv6.KillProtocol
