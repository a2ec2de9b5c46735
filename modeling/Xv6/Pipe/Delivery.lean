import Xv6.Pipe.Protocol

/-! # Bytes removed and bytes delivered

A byte leaves the pipe before `copyout` is asked to deliver it. What a reader gets is what its buffer
holds when `piperead` returns: as many bytes as the result says.
-/
namespace Xv6.PipeProtocol
open Library
open Function (update update_of_ne update_self)

/-- The bytes that the current call of each process has removed, and those that readers have got. -/
structure Delivery (N : ℕ) where
  removed : Fin N → List Byte
  delivered : List Byte

section Runs
variable {N : ℕ}

/-- What a `piperead` that returns `r` leaves in the buffer at `addr`. -/
def World.buffer (w : World N) (p : Fin N) (addr : ℕ) (r : ℤ) : List Byte :=
  (List.range r.toNat).map fun j => (w.mem p).byte (userAddr addr j)

def Delivery.record (d : Delivery N) (w w' : World N) : Act N → Delivery N
  | .call p _ => { d with removed := update d.removed p [] }
  | .exec p => { d with removed := update d.removed p (d.removed p ++ w'.taken.drop w.taken.length) }
  | .ret p (.piperead addr _) r => { d with delivered := d.delivered ++ w.buffer p addr r }
  | _ => d

inductive Delivers (A : World N → Act N → Prop) : World N → Delivery N → Prop
  | init {w : World N} : Initial w → Delivers A w ⟨fun _ => [],[]⟩
  | step {w w' : World N} {d : Delivery N} {a : Act N} : Delivers A w d → A w a → Step w a w' →
      Delivers A w' (d.record w w' a)

def Fits (w : World N) : Act N → Prop
  | .exec p => ∀ addr n i, w.pos p = .locked (.readCopy addr n i) → (i : ℤ) < n → w.pipe.nread ≠ w.pipe.nwrite →
      UserMem.Accessible (w.mem p).writable (userAddr addr i) 1
  | _ => True

end Runs

/-! ## One process -/

/-- The first `i` bytes of the buffer at `addr` are `bytes`. -/
structure Filled (u : UserMem) (addr i : ℕ) (bytes : List Byte) : Prop where
  length : bytes.length = i
  linear : ∀ j ≤ i, userAddr addr j = userAddr addr 0 + j
  byte : ∀ j b, bytes[j]? = some b → u.byte (userAddr addr 0 + j) = b

theorem Filled.nil (u : UserMem) (addr : ℕ) : Filled u addr 0 [] where
  length := rfl
  linear := fun j hj => by rw [Nat.le_zero.mp hj,Nat.add_zero]
  byte := fun j b hb => by simp at hb

theorem Filled.push {u : UserMem} {addr i : ℕ} {bytes : List Byte} (h : Filled u addr i bytes) (x : Byte)
    (ha : userAddr addr i < MAXVA) : Filled (u.put (userAddr addr i) [x]) addr (i + 1) (bytes ++ [x]) := by
  have hi := h.linear i le_rfl
  refine ⟨by rw [List.length_append,h.length]; rfl,fun j hj => ?_,fun j b hb => ?_⟩
  · rcases Nat.lt_or_ge i j with hlt | hge
    · obtain rfl : j = i + 1 := by omega
      rw [← Nat.add_assoc,← hi]
      simp only [userAddr,MAXVA] at ha ⊢
      omega
    · exact h.linear j hge
  · simp only [UserMem.put,List.length_singleton,hi]
    rcases Nat.lt_or_ge j bytes.length with hlt | hge
    · rw [List.getElem?_append_left hlt] at hb
      rw [h.length] at hlt
      rw [if_neg (by omega)]
      exact h.byte j b hb
    · rw [List.getElem?_append_right hge,List.getElem?_singleton] at hb
      split at hb
      · rename_i hj
        obtain rfl : j = i := by
          rw [h.length] at hj hge
          omega
        rw [if_pos (by omega),Nat.sub_self]
        exact Option.some.inj hb
      · cases hb

theorem Filled.buffer {u : UserMem} {addr i : ℕ} {bytes : List Byte} (h : Filled u addr i bytes) :
    (List.range i).map (fun j => u.byte (userAddr addr j)) = bytes := by
  apply List.ext_getElem
  · rw [List.length_map,List.length_range,h.length]
  · intro j h₁ h₂
    rw [h.length] at h₂
    rw [List.getElem_map,List.getElem_range,h.linear j (by omega)]
    exact h.byte j _ (List.getElem?_eq_getElem _)

def Point.Accounts (u : UserMem) (removed : List Byte) : Point → Prop
  | .readCopy addr _ i | .readDone addr _ i => Filled u addr i removed
  | .ret (.piperead addr _) r => r = -1 ∧ removed = [] ∨ ∃ i : ℕ, r = i ∧ Filled u addr i removed
  | _ => removed = []

def Next.Accounts (u : UserMem) (removed : List Byte) : Next → Prop
  | .goto k | .wakeup _ k => k.Accounts u removed
  | .sleep _ k => removed = [] ∧ k.Accounts u []
  | .done | .free => removed = []

theorem Point.exec_accounts {k : Point} {pi : Pipe} {b : Bool} {u : UserMem} {removed : List Byte}
    (hfits : ∀ addr n i, k = .readCopy addr n i → (i : ℤ) < n → pi.nread ≠ pi.nwrite →
      UserMem.Accessible u.writable (userAddr addr i) 1)
    (h : k.Accounts u removed) (hd : (k.exec pi b u).next ≠ .done) :
    (k.exec pi b u).next.Accounts (k.exec pi b u).mem (removed ++ (k.exec pi b u).taken) := by
  cases k with
  | readCopy addr n i =>
    simp only [Point.exec]
    by_cases hn : (i : ℤ) < n
    · by_cases he : pi.nread = pi.nwrite
      · rw [if_pos hn,if_pos he,List.append_nil]
        exact h
      · have ha := hfits addr n i rfl hn he
        have hcopy : u.copyout (userAddr addr i) [pi.first] = (u.put (userAddr addr i) [pi.first],true) :=
          UserMem.copyoutFrom_eq _ _ _ _ (Nat.le_refl _) ha
        rw [if_pos hn,if_neg he,hcopy]
        exact Filled.push h pi.first (ha _ le_rfl (by omega)).1
    · rw [if_neg hn,List.append_nil]
      exact h
  | readWait addr n =>
    obtain rfl : removed = [] := h
    simp only [Point.exec]
    split_ifs
    · exact .inl ⟨rfl,rfl⟩
    · exact ⟨rfl,rfl⟩
    · exact Filled.nil u addr
  | readDone addr n i =>
    rw [Point.exec,List.append_nil]
    exact .inr ⟨i,rfl,h⟩
  | writeLoop | closeTest =>
    obtain rfl : removed = [] := h
    simp only [Point.exec]
    split_ifs <;> rfl
  | close writable =>
    obtain rfl : removed = [] := h
    cases writable <;> rfl
  | writeSleep =>
    obtain rfl : removed = [] := h
    exact ⟨rfl,rfl⟩
  | writeDone =>
    obtain rfl : removed = [] := h
    rfl
  | ret => exact absurd rfl hd

/-! ## All processes -/

section Invariant
variable {N : ℕ} {w w' : World N} {d d' : Delivery N} {p q : Fin N} {a : Act N}

def Pos.Accounts (u : UserMem) (removed : List Byte) : Pos → Prop
  | .idle => True
  | .entry k | .presleep _ k | .released _ k | .sleeping _ k => removed = [] ∧ k.Accounts u []
  | .locked k | .wakeup _ _ k => k.Accounts u removed

def Delivery.pending (d : Delivery N) (lock : Option (Fin N)) : List Byte := lock.elim [] d.removed

structure Accounts (w : World N) (d : Delivery N) : Prop where
  pos : ∀ p, (w.pos p).Accounts (w.mem p) (d.removed p)
  taken : w.taken = d.delivered ++ d.pending w.lock

theorem Next.Accounts.of_unlocked {n : Next} {u : UserMem} {removed : List Byte} (h : n.Accounts u removed)
    (hl : n.lock p = none) : removed = [] := by
  cases n with
  | done | free => exact h
  | _ => cases hl

theorem Next.lock_cases (n : Next) (p : Fin N) : n.lock p = some p ∨ n.lock p = none := by
  cases n with
  | done | free => exact .inr rfl
  | _ => exact .inl rfl

theorem Next.Accounts.pos {n : Next} {u : UserMem} {removed : List Byte} (h : n.Accounts u removed) :
    n.pos.Accounts u removed := by
  cases n with
  | goto | wakeup | sleep => exact h
  | done | free => trivial

theorem Accounts.move (ha : Accounts w d) (hself : (w'.pos p).Accounts (w'.mem p) (d'.removed p))
    (hpos : ∀ q, q ≠ p → w'.pos q = w.pos q) (hmem : ∀ q, q ≠ p → w'.mem q = w.mem q)
    (hremoved : ∀ q, q ≠ p → d'.removed q = d.removed q) (htaken : w'.taken = d'.delivered ++ d'.pending w'.lock) :
    Accounts w' d' := by
  refine ⟨fun q => ?_,htaken⟩
  by_cases hq : q = p
  · subst hq
    exact hself
  · rw [hpos q hq,hmem q hq,hremoved q hq]
    exact ha.pos q

theorem Accounts.held (ha : Accounts w d) (hi : Inv w) (hp : (w.pos p).Holds) : w.taken = d.delivered ++ d.removed p := by
  have := ha.taken
  rwa [(hi.lock p).mpr hp] at this

theorem Accounts.goes (ha : Accounts w d) {x : Pos} (hx : x.Accounts (w.mem p) (d.removed p))
    (hpos : w'.pos = update w.pos p x) (hmem : w'.mem = w.mem) (htaken : w'.taken = w.taken)
    (hlock : d.pending w'.lock = d.pending w.lock) : Accounts w' d := by
  refine ha.move (p := p) ?_ (fun q hq => by rw [hpos,update_of_ne hq]) (fun q _ => by rw [hmem]) (fun _ _ => rfl) ?_
  · rw [hpos,hmem,update_self]
    exact hx
  · rw [htaken,hlock]
    exact ha.taken

theorem Point.Accounts.record_ret {c : Call} {r : ℤ} (h : Point.Accounts (w.mem p) (d.removed p) (.ret c r)) :
    d.record w w' (.ret p c r) = { d with delivered := d.delivered ++ d.removed p } := by
  cases c with
  | piperead addr n =>
    rcases h with ⟨rfl,hnil⟩ | ⟨i,rfl,hfilled⟩
    · rw [hnil]
      rfl
    · rw [Delivery.record,World.buffer,Int.toNat_natCast,hfilled.buffer]
  | pipewrite | pipeclose =>
    rw [show d.removed p = [] from h,List.append_nil]
    rfl

theorem Call.start_accounts (c : Call) (u : UserMem) : c.start.Accounts u [] := by
  cases c <;> rfl

theorem Step.accounts (hs : Step w a w') (hf : Fits w a) (hi : Inv w) (ha : Accounts w d) : Accounts w' (d.record w w' a) := by
  cases hs with
  | @call p c hp =>
    have hlock : w.lock ≠ some p := hi.not_locked (by rw [hp]; exact id)
    refine ha.move (p := p) ?_ (fun q hq => update_of_ne hq ..) (fun _ _ => rfl)
      (fun q hq => update_of_ne hq ..) ?_
    · simp only [Delivery.record,update_self]
      exact ⟨rfl,c.start_accounts _⟩
    · rw [show w.taken = _ from ha.taken]
      cases hl : w.lock with
      | none => rfl
      | some q =>
        rw [hl] at hlock
        have hq : q ≠ p := fun he => hlock (he ▸ rfl)
        simp only [Delivery.record,Delivery.pending,Option.elim_some,update_of_ne hq]
  | @acquire p k hp hl hf =>
    have hk := ha.pos p
    rw [hp] at hk
    refine ha.goes (p := p) (x := .locked k) (hk.1 ▸ hk.2) rfl rfl rfl ?_
    rw [hl]
    exact hk.1
  | @exec p k o hp ho hd =>
    subst ho
    have hk := ha.pos p
    rw [hp] at hk
    have hnext := Point.exec_accounts (b := w.killed p) (fun addr n i he => hf addr n i (he ▸ hp)) hk hd
    have hheld := ha.held hi (p := p) (by rw [hp]; trivial)
    refine ha.move (p := p) ?_ (fun q hq => update_of_ne hq ..) (fun q hq => update_of_ne hq ..)
      (fun q hq => update_of_ne hq ..) ?_
    · simp only [Delivery.record,update_self,List.drop_left]
      exact hnext.pos
    · dsimp only [Delivery.record]
      rw [List.drop_left,hheld,List.append_assoc]
      rcases Next.lock_cases (k.exec w.pipe (w.killed p) (w.mem p)).next p with hl | hl
      · rw [hl]
        dsimp only [Delivery.pending,Option.elim_some]
        rw [update_self]
      · rw [hl,hnext.of_unlocked hl]
        rfl
  | @ret p c r hp =>
    have hk := ha.pos p
    rw [hp] at hk
    rw [Point.Accounts.record_ret hk]
    refine ha.move (p := p) ?_ (fun q hq => update_of_ne hq ..) (fun _ _ => rfl) (fun _ _ => rfl) ?_
    · dsimp only
      rw [update_self]
      trivial
    · exact (ha.held hi (p := p) (by rw [hp]; trivial)).trans (List.append_nil _).symm
  | @wakeup p q c k hp _ =>
    have hk := ha.pos p
    rw [hp] at hk
    exact ha.goes (p := p) (x := .wakeup c (q + 1) k) hk rfl rfl rfl rfl
  | @wakeupDone p c k hp =>
    have hk := ha.pos p
    rw [hp] at hk
    exact ha.goes (p := p) (x := .locked k) hk rfl rfl rfl rfl
  | @sleepRelease p c k hp =>
    have hk := ha.pos p
    rw [hp] at hk
    refine ha.goes (p := p) (x := .released c k) hk rfl rfl rfl ?_
    rw [(hi.lock p).mpr (by rw [hp]; trivial)]
    exact hk.1.symm
  | @sleep p c k hp =>
    have hk := ha.pos p
    rw [hp] at hk
    exact ha.goes (p := p) (x := .sleeping c k) hk rfl rfl rfl rfl
  | @resume p c k hp _ =>
    have hk := ha.pos p
    rw [hp] at hk
    exact ha.goes (p := p) (x := .entry k) hk rfl rfl rfl rfl
  | kill _ => exact ⟨ha.pos,ha.taken⟩
  | @user p u b hp =>
    refine ha.move (p := p) ?_ (fun _ _ => rfl) (fun q hq => update_of_ne hq ..) (fun _ _ => rfl) ha.taken
    rw [show w.pos p = .idle from hp]
    trivial

theorem Initial.accounts (h : Initial w) : Accounts w ⟨fun _ => [],[]⟩ where
  pos := fun p => by
    rw [h.pos]
    trivial
  taken := by
    rw [h.taken,h.lock]
    rfl

theorem Delivers.reaches {A : World N → Act N → Prop} (h : Delivers A w d) : Reaches A w := by
  induction h with
  | init h => exact .init h
  | step _ hA hs ih => exact .step ih hA hs

theorem Delivers.accounts (h : Delivers Fits w d) : Accounts w d := by
  induction h with
  | init h => exact h.accounts
  | step hd hf hs ih => exact hs.accounts hf hd.reaches.inv ih

/-- As long as no byte is taken for a buffer that cannot hold it, `piperead` returns the number of bytes
that it has removed, and what the readers have got is the beginning of what the writers have stored. -/
theorem pipe_read_loses_nothing (h : Delivers Fits w d) :
    d.delivered <+: w.stored ∧
      ∀ p addr n r w', Step w (.ret p (.piperead addr n) r) w' →
        ((d.removed p).length : ℤ) = max r 0 ∧ d.removed p = w.buffer p addr r := by
  have ha := h.accounts
  have hi := h.reaches.inv
  constructor
  · refine List.IsPrefix.trans ?_ hi.fifo.order
    rw [ha.taken]
    exact List.prefix_append _ _
  · intro p addr n r w' hs
    cases hs with
    | ret hp =>
      have hk := ha.pos p
      rw [hp] at hk
      rcases hk with ⟨rfl,hnil⟩ | ⟨i,rfl,hfilled⟩
      · rw [hnil]
        exact ⟨rfl,rfl⟩
      · refine ⟨by rw [hfilled.length]; omega,?_⟩
        rw [World.buffer,Int.toNat_natCast,hfilled.buffer]

end Invariant

/-! ## One process alone -/

section Alone
variable {pi : Pipe} {u u' : UserMem} {stored taken : List Byte} {d : Delivery 1} {A : World 1 → Act 1 → Prop}

def resting (pi : Pipe) (u : UserMem) (stored taken : List Byte) : World 1 where
  pipe := pi
  lock := none
  freed := false
  pos := fun _ => .idle
  asleep := fun _ => none
  killed := fun _ => false
  mem := fun _ => u
  stored := stored
  taken := taken

theorem eq_resting {w : World 1} (hlock : w.lock = none) (hfreed : w.freed = false) (hpos : w.pos 0 = .idle)
    (hasleep : w.asleep 0 = none) (hkilled : w.killed 0 = false) : w = resting w.pipe (w.mem 0) w.stored w.taken := by
  have hone (q : Fin 1) : q = 0 := Subsingleton.elim q 0
  obtain ⟨pi,lock,freed,pos,asleep,killed,mem,stored,taken⟩ := w
  obtain rfl : lock = none := hlock
  obtain rfl : freed = false := hfreed
  obtain rfl : pos = fun _ => .idle := funext fun q => hone q ▸ hpos
  obtain rfl : asleep = fun _ => none := funext fun q => hone q ▸ hasleep
  obtain rfl : killed = fun _ => false := funext fun q => hone q ▸ hkilled
  have hmem : mem = fun _ => mem 0 := funext fun q => congrArg mem (hone q)
  exact congrArg (World.mk pi none false _ _ _ · stored taken) hmem

theorem Step.returns {w : World 1} {c : Call} {r : ℤ} (hp : w.pos 0 = .locked (.ret c r)) (hfreed : w.freed = false)
    (hasleep : w.asleep 0 = none) (hkilled : w.killed 0 = false) (hpipe : w.pipe = pi) (hmem : w.mem 0 = u)
    (hstored : w.stored = stored) (htaken : w.taken = taken) : Step w (.ret 0 c r) (resting pi u stored taken) := by
  subst hpipe hmem hstored htaken
  have hrest := eq_resting (w := { w with lock := none, pos := update w.pos 0 .idle }) rfl hfreed
    (by simp) hasleep hkilled
  exact hrest ▸ Step.ret hp

theorem Delivers.mono {N : ℕ} {w : World N} {d : Delivery N} {A B : World N → Act N → Prop} (hAB : ∀ w a, A w a → B w a)
    (h : Delivers A w d) : Delivers B w d := by
  induction h with
  | init h => exact .init h
  | step _ hA hs ih => exact .step ih (hAB _ _ hA) hs

/-- `piperead(pi, addr, 1)` when there is a byte. The byte is removed, whether `copyout` delivers it or not. -/
theorem reads_byte (addr : ℕ) (ok : Bool) (h : Delivers A (resting pi u stored taken) d) (hne : pi.nread ≠ pi.nwrite)
    (hcopy : u.copyout (userAddr addr 0) [pi.first] = (u',ok)) (hA : ∀ w a, (ok = true → Fits w a) → A w a) :
    ∃ w d', Delivers A w d' ∧ w.stored = stored ∧ w.mem 0 = u' ∧ d'.removed 0 = [pi.first] ∧ d'.delivered = d.delivered ∧
      Step w (.ret 0 (.piperead addr 1) (if ok then 1 else 0)) (resting pi.take u' stored (taken ++ [pi.first])) := by
  have hwait : (Point.readWait addr 1).exec pi false u = ⟨.goto (.readCopy addr 1 0),pi,u,[],[]⟩ := by
    simp [Point.exec,hne]
  have hread : (Point.readCopy addr 1 0).exec pi false u =
      ⟨.goto (if ok then .readCopy addr 1 1 else .readDone addr 1 0),pi.take,u',[],[pi.first]⟩ := by
    simp [Point.exec,hne,hcopy]
  have h₁ := h.step (a := .call 0 (.piperead addr 1)) (hA _ _ fun _ => trivial) (.call _ rfl)
  have h₂ := h₁.step (a := .acquire 0) (hA _ _ fun _ => trivial) (.acquire (k := .readWait addr 1) rfl rfl rfl)
  have h₃ := h₂.step (a := .exec 0) (hA _ _ fun _ _ _ _ h => by cases h) (.exec rfl hwait (by simp))
  have hfits : ok = true → UserMem.Accessible u.writable (userAddr addr 0) 1 := by
    rintro rfl
    exact UserMem.copyoutFrom_accessible u 1 _ [pi.first] (congrArg Prod.snd hcopy)
  have h₄ := h₃.step (a := .exec 0) (hA _ _ fun hok _ _ _ he _ _ => by cases he; exact hfits hok) (.exec rfl hread (by simp))
  cases ok with
  | false =>
    have h₅ := h₄.step (a := .exec 0) (hA _ _ fun h => absurd h Bool.false_ne_true)
      (.exec (k := .readDone addr 1 0) rfl rfl (by simp [Point.exec]))
    have h₆ := h₅.step (a := .wakeup 0) (hA _ _ fun _ => trivial) (.wakeup (q := 0) (c := .nwrite) rfl trivial)
    have h₇ := h₆.step (a := .wakeup 0) (hA _ _ fun _ => trivial)
      (.wakeupDone (c := .nwrite) (k := .ret (.piperead addr 1) 0) rfl)
    refine ⟨_,_,h₇,?_,rfl,?_,rfl,.returns rfl rfl rfl rfl rfl rfl ?_ ?_⟩
    · simp [Point.exec,World.wake,resting]
    · simp [Delivery.record,Point.exec]
    · simp [Point.exec,World.wake,resting]
    · simp [Point.exec,World.wake,resting]
  | true =>
    have h₅ := h₄.step (a := .exec 0) (hA _ _ fun _ _ _ _ he hlt => by cases he; exact absurd hlt (by decide))
      (.exec (o := ⟨.goto (.readDone addr 1 1),pi.take,u',[],[]⟩) (k := .readCopy addr 1 1) rfl rfl (by simp))
    have h₆ := h₅.step (a := .exec 0) (hA _ _ fun _ _ _ _ h => by cases h)
      (.exec (k := .readDone addr 1 1) rfl rfl (by simp [Point.exec]))
    have h₇ := h₆.step (a := .wakeup 0) (hA _ _ fun _ => trivial) (.wakeup (q := 0) (c := .nwrite) rfl trivial)
    have h₈ := h₇.step (a := .wakeup 0) (hA _ _ fun _ => trivial)
      (.wakeupDone (c := .nwrite) (k := .ret (.piperead addr 1) 1) rfl)
    refine ⟨_,_,h₈,?_,rfl,?_,rfl,.returns rfl rfl rfl rfl rfl rfl ?_ ?_⟩
    · simp [Point.exec,World.wake,resting]
    · simp [Delivery.record,Point.exec]
    · simp [Point.exec,World.wake,resting]
    · simp [Point.exec,World.wake,resting]

def halfWritable : UserMem := ⟨fun a => BitVec.ofNat 8 (a + 1),fun v => v < 2,fun v => v = 0⟩

def emptyPipe : Pipe := ⟨fun _ => 0,0,0,true,true⟩

theorem two_stored : ∃ d, Delivers Fits (resting ((emptyPipe.store 1).store 2) halfWritable [1,2] []) d ∧ d.delivered = [] := by
  have hinit : Initial (resting emptyPipe halfWritable [] []) :=
    ⟨rfl,rfl,rfl,rfl,rfl,rfl,fun _ => rfl,fun _ => rfl,rfl,rfl⟩
  have h₁ := (Delivers.init (A := Fits) hinit).step (a := .call 0 (.pipewrite 0 2)) trivial (.call _ rfl)
  have h₂ := h₁.step (a := .acquire 0) trivial (.acquire (k := .writeLoop 0 2 0 0) rfl rfl rfl)
  have h₃ := h₂.step (fun _ _ _ h => nomatch h) (.exec (p := 0) (k := .writeLoop 0 2 0 0)
    (o := ⟨.goto (.writeLoop 0 2 0 1),emptyPipe.store 1,halfWritable,[1],[]⟩) rfl rfl (by simp))
  have h₄ := h₃.step (fun _ _ _ h => nomatch h) (.exec (p := 0) (k := .writeLoop 0 2 0 1)
    (o := ⟨.goto (.writeLoop 0 2 0 2),(emptyPipe.store 1).store 2,halfWritable,[2],[]⟩) rfl rfl (by simp))
  have h₅ := h₄.step (fun _ _ _ h => nomatch h) (.exec (p := 0) (k := .writeLoop 0 2 0 2)
    (o := ⟨.goto (.writeDone 0 2 2),(emptyPipe.store 1).store 2,halfWritable,[],[]⟩) rfl rfl (by simp))
  have h₆ := h₅.step (fun _ _ _ h => nomatch h) (.exec (p := 0) (k := .writeDone 0 2 2)
    (o := ⟨.wakeup .nread (.ret (.pipewrite 0 2) 2),(emptyPipe.store 1).store 2,halfWritable,[],[]⟩) rfl rfl (by simp))
  have h₇ := h₆.step (a := .wakeup 0) trivial (.wakeup (q := 0) (c := .nread) rfl trivial)
  have h₈ := h₇.step (a := .wakeup 0) trivial (.wakeupDone (c := .nread) (k := .ret (.pipewrite 0 2) 2) rfl)
  exact ⟨_,h₈.step (a := .ret 0 (.pipewrite 0 2) 2) trivial (.returns rfl rfl rfl rfl rfl rfl rfl rfl),rfl⟩

theorem pipe_read_loses_nothing_one : ∃ (w w' : World 1) (d : Delivery 1), Delivers Fits w d ∧ w.stored = [1,2] ∧
    Step w (.ret 0 (.piperead 0 1) 1) w' ∧ d.removed 0 = [1] ∧ w.buffer 0 0 1 = [1] := by
  obtain ⟨d,h,-⟩ := two_stored
  obtain ⟨w,d',h',hst,-,hrem,-,hs⟩ := reads_byte 0 true h (by decide) rfl fun w a h => h rfl
  refine ⟨w,_,d',h',hst,hs,hrem,?_⟩
  exact ((pipe_read_loses_nothing h').2 _ _ _ _ _ hs).2.symm.trans hrem

/-- A `piperead` that returns 0 removes the byte 1, and the next reader gets the byte 2. -/
theorem pipe_read_loses_byte : ∃ (w w' : World 1) (d : Delivery 1), Delivers (fun _ _ => True) w d ∧
    Step w (.ret 0 (.piperead 4096 1) 0) w' ∧ d.removed 0 = [1] ∧
    ∃ (v : World 1) (e : Delivery 1), Delivers (fun _ _ => True) v e ∧ v.stored = [1,2] ∧ e.delivered = [2] := by
  obtain ⟨d,h,hd⟩ := two_stored
  have h : Delivers (fun _ _ => True) _ d := h.mono fun _ _ _ => trivial
  obtain ⟨w,d₁,h₁,-,-,hrem,hdel,hs⟩ := reads_byte 4096 false h (by decide) rfl fun _ _ _ => trivial
  obtain ⟨w₂,d₂,h₂,-,hmem,-,hdel₂,hs₂⟩ := reads_byte 0 true (h₁.step trivial hs) (by decide) rfl fun _ _ _ => trivial
  refine ⟨w,_,d₁,h₁,hs,hrem,_,_,h₂.step trivial hs₂,rfl,?_⟩
  have hbuf : w₂.buffer 0 0 1 = [2] := by
    rw [World.buffer,hmem]
    rfl
  simp only [if_pos,Delivery.record,hbuf,hdel₂,hdel,hd]
  rfl

end Alone

end Xv6.PipeProtocol
