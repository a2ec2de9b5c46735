import Xv6.Fs.Sample
import Xv6.Sys.Calls

/-! # Reference counts over all calls

Any number of processes make the calls of `Fs.Syscalls`. Every operation on the tables is one step,
so the calls are interleaved at each of them; what the log, the buffers and the disk answer is left
open.
-/
namespace Xv6.Counts
open Library Library.Pool
open Function (update update_eq_self update_of_ne update_self)

inductive Slot (β : Type)
  | free
  /-- `allocproc` has given it to the process in `fork` -/
  | taken (parent : Pid)
  | idle
  | busy (c : Call) (code : Code β ℤ)

structure World (β : Type) where
  env : Env
  slot : Pid → Slot β

def World.goto {β : Type} (w : World β) (p : Pid) (s : Slot β) : World β := { w with slot := update w.slot p s }

/-- A process that has exited leaves a free slot, once its parent has seen it. -/
def leave (β : Type) : Call → Slot β
  | .exit => .free
  | _ => .idle

section Runs
variable {β : Type} (sb : Superblock)

inductive Step : World β → World β → Prop
  | call {w : World β} {p : Pid} {c : Call} (hp : w.slot p = .idle) (hc : ∀ d, c ≠ .fork d) :
      Step w (w.goto p (.busy c (c.code sb)))
  | fork {w : World β} {p d : Pid} (hp : w.slot p = .idle) (hd : w.slot d = .free) :
      Step w ((w.goto p (.busy (.fork d) (sysFork d))).goto d (.taken p))
  | other {w : World β} {p : Pid} {c : Call} {o : Op β} {k : o.Res → Code β ℤ} {r : o.Res}
      (hp : w.slot p = .busy c (.op o k)) (ho : ∀ eo, o ≠ .env eo) : Step w (w.goto p (.busy c (k r)))
  | env {w : World β} {p : Pid} {c : Call} {o : EnvOp} {k : o.Res → Code β ℤ} {r : o.Res} {e : Env}
      (hp : w.slot p = .busy c (.op (.env o) k)) (ho : ∀ d, o ≠ .forkProc d) (h : o.exec p w.env = .ok (r,e)) :
      Step w ({ w with env := e }.goto p (.busy c (k r)))
  | forkProc {w : World β} {p d : Pid} {c : Call} {k : Unit → Code β ℤ} {e : Env}
      (hp : w.slot p = .busy c (.op (.env (.forkProc d)) k)) (h : EnvOp.exec p (.forkProc d) w.env = .ok ((),e)) :
      Step w (({ w with env := e }.goto p (.busy c (k ()))).goto d .idle)
  | ret {w : World β} {p : Pid} {c : Call} {v : ℤ} (hp : w.slot p = .busy c (.ret v)) : Step w (w.goto p (leave β c))

end Runs

/-- `userinit`: the first process, in the root directory. -/
def boot : Env := { Env.zero with
  itable := update Env.zero.itable 0 { Env.zero.itable 0 with dev := 1, inum := 1, ref := 1 }
  proc := update Env.zero.proc 0 { Env.zero.proc 0 with cwd := some 0 } }

def initial (β : Type) : World β := ⟨boot,fun p => if p = 0 then .idle else .free⟩

inductive Reaches {β : Type} (sb : Superblock) : World β → Prop
  | refl : Reaches sb (initial β)
  | step {w w' : World β} : Reaches sb w → Step sb w w' → Reaches sb w'

/-! ## `fork` fills one slot -/

section Fork
variable {β α : Type}

def NoFork (o : Op β) : Prop := ∀ d, o ≠ .env (.forkProc d)

def Once (d : Pid) : Code β α → Prop
  | .ret _ => True
  | .op o k => (NoFork o ∧ ∀ r, Once d (k r)) ∨ (o = .env (.forkProc d) ∧ ∀ r, (k r).only NoFork)

theorem Once.bind {γ : Type} {d : Pid} {p : Code β γ} {f : γ → Code β α} (hp : p.only NoFork) (hf : ∀ a, Once d (f a)) :
    Once d (p.bind f) := by
  induction p with
  | ret a => exact hf a
  | op o k ih => exact .inl ⟨hp.1,fun r => ih r (hp.2 r)⟩

theorem noFork_env {o : EnvOp} (h : ∀ d, o ≠ .forkProc d) : (env o : Code β o.Res).only NoFork :=
  Prog.only_call fun d heq => h d (Op.env.inj heq)

theorem once_sysFork (d : Pid) : Once d (sysFork d : Code β ℤ) := by
  have hfiles : ∀ fs, (forkFiles fs : Code β Unit).only NoFork := fun fs => by
    induction fs with
    | nil => exact Prog.only_ret _
    | cons x fs ih =>
      cases x with
      | none => exact ih
      | some f => exact (noFork_env (o := .filedup f) nofun).bind fun _ => ih
  refine Once.bind (noFork_env (o := .proc) nofun) fun p => ?_
  split
  · exact .inl ⟨nofun,nofun⟩
  · rename_i cwd _
    exact Once.bind (hfiles _) fun _ => Once.bind (noFork_env (o := .idup cwd) nofun) fun _ => .inr ⟨rfl,fun _ => trivial⟩

end Fork

section Invariant
variable {β : Type}

def Slot.Fits : Slot β → Hold → Prop
  | .free, h | .taken _, h => h.Gone
  | .idle, h => h.Idle
  | .busy c code, h => code.ensures (holdMoves β (Refs.full (∃ d, c = .fork d))) (fun _ h => Refs.post c h) h

structure Inv (w : World β) (g : Pid → Hold) : Prop where
  coupled : Coupled w.env g
  fits : ∀ p, (w.slot p).Fits (g p)
  forks : ∀ p d code, w.slot p = .busy (.fork d) code → (w.slot d = .taken p ∧ Once d code) ∨ code.only NoFork

variable {sb : Superblock} {w : World β} {g : Pid → Hold} {p : Pid}

theorem goto_self {s : Slot β} : (w.goto p s).slot p = s := update_self ..

theorem goto_of_ne {s : Slot β} {q : Pid} (h : q ≠ p) : (w.goto p s).slot q = w.slot q := update_of_ne h ..

theorem Inv.move {s : Slot β} {e : Env} {h : Hold} (hi : Inv w g) (hc : Coupled e (update g p h)) (hs : s.Fits h)
    (hp : ∀ q, w.slot p ≠ .taken q)
    (hfork : ∀ d code, s = .busy (.fork d) code → (w.slot d = .taken p ∧ Once d code) ∨ code.only NoFork) :
    Inv ({ w with env := e }.goto p s) (update g p h) where
  coupled := hc
  fits q := by
    rcases eq_or_ne q p with rfl | hq
    · rw [goto_self,update_self]
      exact hs
    · rw [goto_of_ne hq,update_of_ne hq]
      exact hi.fits q
  forks q d code hq := by
    have hd : ∀ q, w.slot d = .taken q → ({ w with env := e }.goto p s).slot d = .taken q := fun q hdq => by
      have hdp : d ≠ p := by
        rintro rfl
        exact hp q hdq
      rwa [goto_of_ne hdp]
    rcases eq_or_ne q p with rfl | hne
    · rw [goto_self] at hq
      exact (hfork d code hq).imp_left (And.imp_left (hd _))
    · rw [goto_of_ne hne] at hq
      exact (hi.forks q d code hq).imp_left (And.imp_left (hd _))

theorem Inv.move_two {d : Pid} {s t : Slot β} {e : Env} {g' : Pid → Hold} (hi : Inv w g) (hdp : d ≠ p) (hc : Coupled e g')
    (hg : ∀ q, q ≠ d → q ≠ p → g' q = g q) (hs : s.Fits (g' p)) (ht : t.Fits (g' d)) (hp : ∀ q, w.slot p ≠ .taken q)
    (hd : ∀ q, w.slot d = .taken q → q = p) (hbusy : ∀ c code, t ≠ .busy c code)
    (hfork : ∀ d' code, s = .busy (.fork d') code → (d' = d ∧ t = .taken p ∧ Once d code) ∨ code.only NoFork) :
    Inv (({ w with env := e }.goto p s).goto d t) g' where
  coupled := hc
  fits q := by
    rcases eq_or_ne q d with rfl | hqd
    · rw [goto_self]
      exact ht
    rw [goto_of_ne hqd]
    rcases eq_or_ne q p with rfl | hqp
    · rw [goto_self]
      exact hs
    · rw [goto_of_ne hqp,hg q hqd hqp]
      exact hi.fits q
  forks q d' code hq := by
    rcases eq_or_ne q d with rfl | hqd
    · rw [goto_self] at hq
      exact absurd hq (hbusy _ _)
    rw [goto_of_ne hqd] at hq
    rcases eq_or_ne q p with rfl | hqp
    · rw [goto_self] at hq
      rcases hfork d' code hq with ⟨rfl,rfl,ho⟩ | hno
      · exact .inl ⟨goto_self,ho⟩
      · exact .inr hno
    · rw [goto_of_ne hqp] at hq
      refine (hi.forks q d' code hq).imp_left (And.imp_left fun htaken => ?_)
      have hd'd : d' ≠ d := by
        rintro rfl
        exact hqp (hd q htaken)
      have hd'p : d' ≠ p := by
        rintro rfl
        exact hp q htaken
      rwa [goto_of_ne hd'd,goto_of_ne hd'p]

theorem Inv.step {w' : World β} (hi : Inv w g) (hs : Step sb w w') : ∃ g', Inv w' g' := by
  cases hs with
  | @call p c hp hc =>
    have hidle : (g p).Idle := by simpa [hp,Slot.Fits] using hi.fits p
    refine ⟨_,hi.move (h := g p) (by rw [update_eq_self]; exact hi.coupled)
      (Refs.code_spec sb c (fun d h => ⟨d,h⟩) hidle) (by simp [hp]) fun d code heq => ?_⟩
    cases heq
    exact absurd rfl (hc d)
  | @fork p d hp hd =>
    have hidle : (g p).Idle := by simpa [hp,Slot.Fits] using hi.fits p
    have hgone : (g d).Gone := by simpa [hd,Slot.Fits] using hi.fits d
    have hdp : d ≠ p := fun h => by
      rw [h,hp] at hd
      cases hd
    refine ⟨g,hi.move_two hdp hi.coupled (fun _ _ _ => rfl) (Refs.code_spec sb (.fork d) (fun d h => ⟨d,h⟩) hidle) hgone
      (by simp [hp]) (by simp [hd]) (fun _ _ => by simp) fun d' code heq => ?_⟩
    cases heq
    exact .inl ⟨rfl,rfl,once_sysFork d⟩
  | @other p c o k r hp ho =>
    have hfit := hi.fits p
    rw [hp] at hfit
    have hk : (k r).ensures (holdMoves β (Refs.full (∃ d, c = .fork d))) (fun _ h => Refs.post c h) (g p) := by
      refine hfit.2 r (g p) ?_
      cases o with
      | env eo => exact absurd rfl (ho eo)
      | _ => rfl
    refine ⟨_,hi.move (h := g p) (by rw [update_eq_self]; exact hi.coupled) hk (by simp [hp]) fun d code heq => ?_⟩
    cases heq
    rcases hi.forks p d _ hp with ⟨ht,ho' | ho'⟩ | hno
    · exact .inl ⟨ht,ho'.2 r⟩
    · exact absurd ho'.1 (ho _)
    · exact .inr (hno.2 r)
  | @env p c o k r e hp ho hexec =>
    have hfit := hi.fits p
    rw [hp] at hfit
    obtain ⟨h,hstep,hc⟩ := hi.coupled.exec hfit.1 ho hexec
    refine ⟨_,hi.move hc (hfit.2 r h hstep) (by simp [hp]) fun d code heq => ?_⟩
    cases heq
    rcases hi.forks p d _ hp with ⟨ht,ho' | ho'⟩ | hno
    · exact .inl ⟨ht,ho'.2 r⟩
    · exact absurd (Op.env.inj ho'.1) (ho d)
    · exact .inr (hno.2 r)
  | @forkProc p d c k e hp hexec =>
    have hfit := hi.fits p
    rw [hp] at hfit
    obtain ⟨d',rfl⟩ : ∃ d, c = .fork d := hfit.1.1
    -- the slot is the one that `allocproc` gave
    obtain ⟨ht,hrest,rfl⟩ : w.slot d' = .taken p ∧ (∀ r, (k r).only NoFork) ∧ d = d' := by
      rcases hi.forks p d' _ hp with ⟨ht,ho | ho⟩ | hno
      · exact absurd rfl (ho.1 d)
      · have := ho.1
        simp only [Op.env.injEq,EnvOp.forkProc.injEq] at this
        exact ⟨ht,ho.2,this⟩
      · exact absurd rfl (hno.1 d)
    have hgone : (g d).Gone := by simpa [ht,Slot.Fits] using hi.fits d
    have hdp : d ≠ p := fun h => by
      rw [h,hp] at ht
      cases ht
    obtain ⟨ip,hcwd,hc⟩ := hi.coupled.forkProc hfit.1 hgone hdp
    cases hexec
    refine ⟨_,hi.move_two hdp hc (fun q hqd hqp => ?_) ?_ ?_ (by simp [hp]) (fun q hq => ?_) (fun _ _ => by simp)
      fun d' code heq => ?_⟩
    · rw [update_of_ne hqd,update_of_ne hqp]
    · rw [update_of_ne hdp.symm,update_self]
      exact hfit.2 () _ ⟨ip,hcwd,rfl⟩
    · rw [update_self]
      refine ⟨fun f => rfl,fun f hf => ?_,⟨ip,rfl,rfl⟩,rfl,rfl⟩
      have hf : 0 < (Finset.univ.filter fun fd => (g p).ofile fd = some f).card := hf
      obtain ⟨fd,hfd⟩ := Finset.card_pos.mp hf
      exact hfit.1.2.2.1 fd f (by simpa using hfd)
    · exact (Slot.taken.inj (ht.symm.trans hq)).symm
    · cases heq
      exact .inr (hrest ())
  | @ret p c v hp =>
    have hfit := hi.fits p
    rw [hp] at hfit
    have hpost : Refs.post c (g p) := hfit
    have hleave : (leave β c).Fits (g p) := by
      cases c <;> exact hpost
    refine ⟨_,hi.move (h := g p) (by rw [update_eq_self]; exact hi.coupled) hleave (by simp [hp]) fun d code heq => ?_⟩
    cases c <;> cases heq

def first (p : Pid) : Hold where
  fref := 0
  kind _ := .fresh
  iref := if p = 0 then Pi.single 0 1 else 0
  lock := 0
  ends := 0
  ofile _ := none
  cwd := if p = 0 then some 0 else none
  child := none

theorem slots_none (f : Fin NFILE) : slots (fun _ => none) f = 0 := by simp [slots]

theorem Inv.init : Inv (initial β) first := by
  have href : ∀ ip, (boot.itable ip).ref = if ip = 0 then 1 else 0 := fun ip => by
    rcases eq_or_ne ip 0 with rfl | hip
    · rfl
    · simp [boot,hip,Env.zero]
  have hlock : ∀ ip, (boot.itable ip).lock = none := fun ip => by
    rcases eq_or_ne ip 0 with rfl | hip
    · rfl
    · simp [boot,hip,Env.zero]
  have hroot : ∀ ip, 0 < (boot.itable ip).ref → ip = 0 := fun ip h => by
    by_contra hip
    rw [href,if_neg hip] at h
    exact absurd h (lt_irrefl 0)
  refine ⟨⟨fun f => ?_,fun _ _ hf => absurd hf (lt_irrefl 0),fun _ _ => rfl,fun _ _ => Nat.zero_le _,fun ip => ?_,
    fun i j hi hj _ _ => ?_,fun p ip => ?_,
    fun p ip => Nat.zero_le _,fun p => ?_⟩,fun p => ?_,fun p d code h => ?_⟩
  · exact (total_eq_zero.mpr fun _ => rfl).symm
  · have hnamed : boot.named ip = 0 := total_eq_zero.mpr fun f => File.names_of_zero rfl
    have htotal : total (fun h : Hold => h.iref ip) first = if ip = 0 then 1 else 0 := by
      rw [total,Finset.sum_eq_single 0]
      · rcases eq_or_ne ip 0 with rfl | hip
        · rfl
        · simp [first,hip]
      · intro p _ hp
        simp [first,hp]
      · exact fun h => absurd (Finset.mem_univ 0) h
    show (boot.itable ip).ref = _ + boot.named ip
    rw [href,htotal,hnamed,Nat.add_zero]
  · rw [hroot i hi,hroot j hj]
  · show 0 = if (boot.itable ip).lock = some p then 1 else 0
    rw [hlock,if_neg (Option.some_ne_none p).symm]
  · rcases eq_or_ne p 0 with rfl | hp
    · exact ⟨rfl,rfl⟩
    · simp [initial,boot,first,hp,Env.zero]
  · rcases eq_or_ne p 0 with rfl | hp
    · exact ⟨fun f => (slots_none f).symm,fun _ hf => absurd hf (lt_irrefl 0),⟨0,rfl,rfl⟩,rfl,rfl⟩
    · simp only [initial,if_neg hp]
      exact ⟨rfl,if_neg hp,rfl,rfl,fun _ => rfl,if_neg hp⟩
  · simp only [initial] at h
    split at h <;> cases h

theorem Reaches.inv (h : Reaches sb w) : ∃ g, Inv w g := by
  induction h with
  | refl => exact ⟨_,Inv.init⟩
  | step _ hs ih =>
    obtain ⟨g,hg⟩ := ih
    exact hg.step hs

def World.Quiet (w : World β) : Prop := ∀ p, w.slot p = .free ∨ w.slot p = .idle

theorem Inv.quiet (hi : Inv w g) (hq : w.Quiet) (p : Pid) : (g p).Gone ∨ (g p).Idle := by
  have hfit := hi.fits p
  rcases hq p with h | h
  · rw [h] at hfit
    exact .inl hfit
  · rw [h] at hfit
    exact .inr hfit

theorem Inv.safe (hi : Inv w g) {c : Call} {o : EnvOp} {k : o.Res → Code β ℤ} (hp : w.slot p = .busy c (.op (.env o) k)) :
    (g p).safe (Refs.full (∃ d, c = .fork d)) o := by
  have hfit := hi.fits p
  rw [hp] at hfit
  exact hfit.1

theorem exists_forked : ∃ w : World ℕ, Reaches Sample.super w ∧ w.Quiet ∧ w.slot 1 = .idle ∧ (w.env.itable 0).ref = 2 := by
  have hinit : Reaches Sample.super (initial ℕ) := .refl
  have hcall := hinit.step (.fork (p := 0) (d := 1) rfl rfl)
  have hproc := hcall.step (.env (p := 0) (o := .proc) rfl nofun rfl)
  have hidup := hproc.step (.env (p := 0) (o := .idup 0) rfl nofun rfl)
  have hfork := hidup.step (.forkProc (p := 0) (d := 1) rfl rfl)
  have hret := hfork.step (.ret (p := 0) rfl)
  refine ⟨_,hret,fun p => ?_,rfl,rfl⟩
  rcases eq_or_ne p 0 with rfl | hp0
  · exact .inr rfl
  rcases eq_or_ne p 1 with rfl | hp1
  · exact .inr rfl
  · simp [World.goto,initial,hp0,hp1]

/-- In any interleaving of the calls the counts of open files are exact whenever no call is in progress, and nobody ever
closes or duplicates a file without references. -/
theorem file_references (h : Reaches sb w) :
    (w.Quiet → ∀ f, (w.env.ftable f).ref = ∑ p, slots (w.env.proc p).ofile f ∧
      ((w.env.ftable f).ref = 0 ↔ (w.env.ftable f).type = .none)) ∧
    (∀ p c f k, w.slot p = .busy c (.op (.env (.filedup f)) k) → ∃ e, w.env.filedup f = .ok e) ∧
    (∀ p c f k, w.slot p = .busy c (.op (.env (.fileclose f)) k) → ∃ r, w.env.fileclose f = .ok r) := by
  obtain ⟨g,hi⟩ := h.inv
  refine ⟨fun hq f => ⟨?_,hi.coupled.free f,fun htype => ?_⟩,fun p c f k hp => ?_,fun p c f k hp => ?_⟩
  · rw [hi.coupled.fref]
    refine Finset.sum_congr rfl fun p _ => ?_
    rw [(hi.coupled.proc p).1]
    rcases hi.quiet hq p with hg | hg
    · show (g p).fref f = _
      rw [hg.fref,funext hg.ofile,slots_none]
      rfl
    · exact hg.fref f
  · rw [hi.coupled.fref,total_eq_zero]
    intro p
    rcases hi.quiet hq p with hg | hg
    · exact congrFun hg.fref f
    · by_contra hne
      have hpos := Nat.pos_of_ne_zero hne
      exact hg.kind f hpos ((hi.coupled.kind p f hpos).symm.trans (Coupled.kind_eq_fresh.mpr htype))
  · have hs := hi.safe hp
    cases he : w.env.filedup f with
    | ok e => exact ⟨e,rfl⟩
    | error x =>
      have hexec : EnvOp.exec p (.filedup f) w.env = .error (.panic x) := by simp [EnvOp.exec,he,Except.map,Except.mapError]
      rcases hi.coupled.exec_error hs hexec with ⟨ip,q,ho,-⟩ | ⟨⟨dev,inum,ho⟩,-⟩ <;> cases ho
  · have hs := hi.safe hp
    cases he : w.env.fileclose f with
    | ok r => exact ⟨r,rfl⟩
    | error x =>
      have hexec : EnvOp.exec p (.fileclose f) w.env = .error (.panic x) := by simp [EnvOp.exec,he,Except.mapError]
      rcases hi.coupled.exec_error hs hexec with ⟨ip,q,ho,-⟩ | ⟨⟨dev,inum,ho⟩,-⟩ <;> cases ho

theorem file_references_forked : ∃ w : World ℕ, Reaches Sample.super w ∧ w.Quiet ∧ w.slot 1 = .idle ∧
    ∀ f, (w.env.ftable f).ref = ∑ p, slots (w.env.proc p).ofile f ∧ ((w.env.ftable f).ref = 0 ↔ (w.env.ftable f).type = .none) := by
  obtain ⟨w,hw,hq,hslot,-⟩ := exists_forked
  exact ⟨w,hw,hq,hslot,(file_references hw).1 hq⟩

/-- In any interleaving of the calls no two live entries are for one inode; no operation on the tables panics or waits,
but for a lock that somebody holds and an inode table that is full; when `iput` frees an inode, no open file refers to
it, nor the current directory of a process that is not inside a call; and whenever no call is in progress the counts are
exact and nothing is locked. -/
theorem inode_references (h : Reaches sb w) :
    (∀ i j, 0 < (w.env.itable i).ref → 0 < (w.env.itable j).ref → (w.env.itable i).dev = (w.env.itable j).dev →
      (w.env.itable i).inum = (w.env.itable j).inum → i = j) ∧
    (∀ p c o k x, w.slot p = .busy c (.op (.env o) k) → o.exec p w.env = .error x →
      (∃ ip q, o = .ilock ip ∧ (w.env.itable ip).lock = some q ∧ x = .sleep) ∨
        (∃ dev inum, o = .iget dev inum) ∧ (∀ ip, 0 < (w.env.itable ip).ref) ∧ x = .panic .igetNoInodes) ∧
    (∀ p c ip k e, w.slot p = .busy c (.op (.env (.iputTest ip)) k) → w.env.iputTest p ip = .ok (true,e) →
      (∀ f, 0 < (w.env.ftable f).ref → (w.env.ftable f).kind.ip ≠ some ip) ∧
      ∀ q, q ≠ p → w.slot q = .idle → (w.env.proc q).cwd ≠ some ip) ∧
    (w.Quiet → ∀ ip, (w.env.itable ip).lock = none ∧ (w.env.itable ip).ref =
      (Finset.univ.filter fun p => (w.env.proc p).cwd = some ip).card +
      (Finset.univ.filter fun f => 0 < (w.env.ftable f).ref ∧ (w.env.ftable f).kind.ip = some ip).card) := by
  obtain ⟨g,hi⟩ := h.inv
  have hc := hi.coupled
  refine ⟨hc.unique,fun p c o k x hp hx => hc.exec_error (hi.safe hp) hx,fun p c ip k e hp he => ?_,fun hq ip => ⟨?_,?_⟩⟩
  · obtain ⟨-,hpos,-⟩ := hi.safe hp
    have hone : (w.env.itable ip).ref = 1 := by
      unfold Env.iputTest at he
      split_ifs at he with hlast hlock
      · exact hlast.1
      · cases he
    rw [hc.iref] at hone
    have hle : (g p).iref ip ≤ _ := le_total (fun h : Hold => h.iref ip) g p
    refine ⟨fun f hf hip => ?_,fun q hqp hq hcwd => ?_⟩
    · have hnames : (w.env.ftable f).names ip ≤ w.env.named ip := le_total (fun x : File => x.names ip) w.env.ftable f
      rw [File.names_of_pos hf rfl,if_pos hip] at hnames
      omega
    · have hidle := hi.fits q
      rw [hq] at hidle
      obtain ⟨cwd,hcwd',hiref⟩ := hidle.cwd
      obtain rfl : cwd = ip := Option.some.inj (hcwd'.symm.trans ((hc.proc q).2.symm.trans hcwd))
      have := Coupled.iref_add_le g cwd hqp
      rw [hiref,Pi.single_eq_same] at this
      omega
  · cases hl : (w.env.itable ip).lock with
    | none => rfl
    | some p =>
      have hlock := hc.lock p ip
      rw [if_pos hl] at hlock
      rcases hi.quiet hq p with hg | hg
      · rw [hg.lock] at hlock
        cases hlock
      · rw [hg.lock] at hlock
        cases hlock
  · have hcwds : total (fun h : Hold => h.iref ip) g = (Finset.univ.filter fun p => (w.env.proc p).cwd = some ip).card := by
      rw [Finset.card_filter]
      refine Finset.sum_congr rfl fun p _ => ?_
      rw [(hc.proc p).2]
      rcases hi.quiet hq p with hg | hg
      · rw [hg.cwd,if_neg nofun]
        exact congrFun hg.iref ip
      · obtain ⟨cwd,hcwd,hiref⟩ := hg.cwd
        show (g p).iref ip = _
        rw [hiref,hcwd,Pi.single_apply]
        simp only [Option.some.injEq,eq_comm]
    have hfiles : w.env.named ip = (Finset.univ.filter fun f => 0 < (w.env.ftable f).ref ∧
      (w.env.ftable f).kind.ip = some ip).card := by
      rw [Finset.card_filter]
      rfl
    rw [hc.iref,hcwds,hfiles]

theorem inode_references_forked : ∃ w : World ℕ, Reaches Sample.super w ∧ w.Quiet ∧ (w.env.itable 0).ref = 2 ∧
    2 = (Finset.univ.filter fun p => (w.env.proc p).cwd = some 0).card +
      (Finset.univ.filter fun f => 0 < (w.env.ftable f).ref ∧ (w.env.ftable f).kind.ip = some 0).card := by
  obtain ⟨w,hw,hq,-,href⟩ := exists_forked
  exact ⟨w,hw,hq,href,href ▸ ((inode_references hw).2.2.2 hq 0).2⟩

end Invariant

end Xv6.Counts
