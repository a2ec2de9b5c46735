import Xv6.Pipe.Protocol

/-! # Records of one size

When every transfer is of `d` bytes and `d` divides `PIPESIZE`, both counters are multiples of `d`
whenever the lock is free. A writer that finds room finds room for its whole record, and a reader
that finds a byte finds a record, so neither lets go of the lock in the middle of one.
-/
namespace Xv6.PipeProtocol
open Library
open Function (update update_of_ne update_self)

/-- Which bytes of the stream, by their number, the current call of each process has stored and
taken, and which ones each `pipewrite` that has returned had stored. -/
structure Hist (N : ℕ) where
  put : Fin N → List ℕ
  got : Fin N → List ℕ
  puts : List (List ℕ)

def Hist.record {N : ℕ} (h : Hist N) (w w' : World N) : Act N → Hist N
  | .call p _ => { h with put := update h.put p [], got := update h.got p [] }
  | .exec p => { h with
      put := update h.put p (h.put p ++ List.range' w.stored.length (w'.stored.length - w.stored.length))
      got := update h.got p (h.got p ++ List.range' w.taken.length (w'.taken.length - w.taken.length)) }
  | .ret p (.pipewrite _ _) _ => { h with puts := h.puts ++ [h.put p] }
  | _ => h

def Point.Transfers : Point → Prop
  | .close _ | .closeTest _ | .ret (.pipeclose _) _ => False
  | _ => True

def Pos.Transfers : Pos → Prop
  | .idle => False
  | .entry k | .locked k | .wakeup _ _ k | .presleep _ k | .released _ k | .sleeping _ k => k.Transfers

/-- Transfers are of `d` bytes from and to accessible buffers, and nobody in one is killed. -/
def Uses (d : ℕ) {N : ℕ} (w : World N) : Act N → Prop
  | .call p (.pipewrite addr n) => n = d ∧ UserMem.Accessible (w.mem p).readable addr d ∧ w.killed p = false
  | .call p (.piperead addr n) => n = d ∧ UserMem.Accessible (w.mem p).writable addr d ∧ w.killed p = false
  | .kill q => ¬(w.pos q).Transfers
  | _ => True

inductive Run (d : ℕ) {N : ℕ} : World N → Hist N → Prop
  | init {w : World N} : Initial w → Run d w ⟨fun _ => [],fun _ => [],[]⟩
  | step {w w' : World N} {h : Hist N} {a : Act N} : Run d w h → Uses d w a → Step w a w' →
      Run d w' (h.record w w' a)

/-! ## What the holder of the lock sees -/

structure View where
  pipe : Pipe
  mem : UserMem
  stored : List Byte
  taken : List Byte
  put : List ℕ
  got : List ℕ
  puts : List (List ℕ)

def View.after (v : View) (o : Outcome) : View where
  pipe := o.pipe
  mem := o.mem
  stored := v.stored ++ o.stored
  taken := v.taken ++ o.taken
  put := v.put ++ List.range' v.stored.length o.stored.length
  got := v.got ++ List.range' v.taken.length o.taken.length
  puts := v.puts

/-- The stream up to byte `s * d` is made of records that their writers stored whole. -/
def View.Records (v : View) (d s : ℕ) : Prop := ∀ k, k < s → List.range' (d * k) d ∈ v.puts

def View.Whole (v : View) (d : ℕ) : Prop :=
  ∃ s t, v.stored.length = d * s ∧ v.taken.length = d * t ∧ v.Records d s

/-- `i` bytes of a record are stored, and there is room for the rest. -/
def View.Writing (v : View) (d addr i : ℕ) : Prop :=
  ∃ s t, v.stored.length = d * s + i ∧ v.taken.length = d * t ∧ v.Records d s ∧ v.put = List.range' (d * s) i ∧
    (∀ j, j < i → v.stored[d * s + j]? = some (v.mem.byte (addr + j))) ∧ (0 < i → d * s + d ≤ d * t + PIPESIZE)

/-- `i` bytes of a record are taken, and the rest is there. -/
def View.Reading (v : View) (d addr i : ℕ) : Prop :=
  ∃ s t, v.stored.length = d * s ∧ v.taken.length = d * t + i ∧ v.Records d s ∧ v.got = List.range' (d * t) i ∧
    (∀ j, j < i → v.stored[d * t + j]? = some (v.mem.byte (addr + j))) ∧ (0 < i → t < s)

def View.Read (v : View) (d addr i : ℕ) : Prop :=
  i = d ∧ v.Reading d addr d ∨
    i = 0 ∧ v.got = [] ∧ v.Whole d ∧ v.taken = v.stored ∧ v.pipe.writeopen = false

/-- At the beginning of a function, or in a transfer that has not touched the stream. -/
def Point.Ready (d : ℕ) (u : UserMem) (put got : List ℕ) : Point → Prop
  | .writeLoop addr n since i => n = d ∧ since = 0 ∧ i = 0 ∧ UserMem.Accessible u.readable addr d ∧ put = []
  | .readWait addr n => n = d ∧ UserMem.Accessible u.writable addr d ∧ got = []
  | .close _ => True
  | _ => False

def Point.Held (d : ℕ) (v : View) : Point → Prop
  | .writeLoop addr n since i => n = d ∧ since = 0 ∧ i ≤ d ∧ UserMem.Accessible v.mem.readable addr d ∧ v.Writing d addr i
  | .writeSleep addr n i => n = d ∧ i = 0 ∧ UserMem.Accessible v.mem.readable addr d ∧ v.Whole d ∧ v.put = []
  | .writeDone addr _ i => i = d ∧ v.Writing d addr d
  | .readWait addr n => n = d ∧ UserMem.Accessible v.mem.writable addr d ∧ v.Whole d ∧ v.got = []
  | .readCopy addr n i => n = d ∧ i ≤ d ∧ UserMem.Accessible v.mem.writable addr d ∧ v.Reading d addr i
  | .readDone addr _ i => v.Read d addr i
  | .ret (.pipewrite addr _) r => r = d ∧ v.Writing d addr d ∨ r = -1 ∧ v.put = [] ∧ v.Whole d ∧ v.pipe.readopen = false
  | .ret (.piperead addr _) r => ∃ i : ℕ, r = i ∧ v.Read d addr i
  | .close _ | .closeTest _ | .ret (.pipeclose _) _ => v.Whole d

def Next.Held (d : ℕ) (v : View) : Next → Prop
  | .goto k | .wakeup _ k => k.Held d v
  | .sleep _ k => k.Ready d v.mem v.put v.got ∧ v.Whole d
  | .free => v.Whole d
  -- the return is a step of its own
  | .done => True

section Points
variable {d addr i : ℕ} {v : View}

theorem View.Whole.writing (h : v.Whole d) (hput : v.put = []) : v.Writing d addr 0 := by
  obtain ⟨s,t,hs,ht,hrec⟩ := h
  exact ⟨s,t,hs,ht,hrec,hput,fun j hj => absurd hj (Nat.not_lt_zero j),fun h => absurd h (Nat.lt_irrefl 0)⟩

theorem View.Whole.reading (h : v.Whole d) (hgot : v.got = []) : v.Reading d addr 0 := by
  obtain ⟨s,t,hs,ht,hrec⟩ := h
  exact ⟨s,t,hs,ht,hrec,hgot,fun j hj => absurd hj (Nat.not_lt_zero j),fun h => absurd h (Nat.lt_irrefl 0)⟩

theorem View.Writing.whole (h : v.Writing d addr 0) : v.Whole d ∧ v.put = [] := by
  obtain ⟨s,t,hs,ht,hrec,hput,-⟩ := h
  exact ⟨⟨s,t,hs,ht,hrec⟩,hput⟩

theorem View.Reading.whole (h : v.Reading d addr 0) : v.Whole d ∧ v.got = [] := by
  obtain ⟨s,t,hs,ht,hrec,hgot,-⟩ := h
  exact ⟨⟨s,t,hs,ht,hrec⟩,hgot⟩

theorem View.Writing.puts (h : v.Writing d addr d) : View.Whole { v with puts := v.puts ++ [v.put] } d := by
  obtain ⟨s,t,hs,ht,hrec,hput,-⟩ := h
  refine ⟨s + 1,t,hs,ht,fun k hk => ?_⟩
  rw [hput]
  rcases Nat.lt_succ_iff_lt_or_eq.mp hk with hk | rfl
  · exact List.mem_append_left _ (hrec k hk)
  · exact List.mem_append_right _ (List.mem_singleton.mpr rfl)

theorem View.Reading.whole_of_all (h : v.Reading d addr d) : v.Whole d := by
  obtain ⟨s,t,hs,ht,hrec,-⟩ := h
  exact ⟨s,t + 1,hs,ht,hrec⟩

theorem View.Whole.puts (h : v.Whole d) (l : List (List ℕ)) : View.Whole { v with puts := v.puts ++ l } d := by
  obtain ⟨s,t,hs,ht,hrec⟩ := h
  exact ⟨s,t,hs,ht,fun k hk => List.mem_append_left _ (hrec k hk)⟩

theorem View.Read.whole (h : v.Read d addr i) : v.Whole d := by
  rcases h with ⟨-,h⟩ | ⟨-,-,h,-⟩
  · exact h.whole_of_all
  · exact h

theorem View.after_same (n : Next) : v.after ⟨n,v.pipe,v.mem,[],[]⟩ = v := by
  simp [View.after]

theorem View.Writing.room (hdvd : d ∣ PIPESIZE) (hd : 0 < d) (h : v.Writing d addr i) (hi : i < d)
    (hfifo : Fifo v.pipe.data v.pipe.nread v.pipe.nwrite v.stored v.taken) :
    (v.pipe.Full → i = 0) ∧ (¬v.pipe.Full → ∃ s t, v.stored.length = d * s + i ∧ v.taken.length = d * t ∧
      v.Records d s ∧ v.put = List.range' (d * s) i ∧
      (∀ j, j < i → v.stored[d * s + j]? = some (v.mem.byte (addr + j))) ∧ d * s + d ≤ d * t + PIPESIZE) := by
  obtain ⟨s,t,hs,ht,hrec,hput,hbytes,hroom⟩ := h
  have hfull : v.pipe.Full ↔ v.stored.length = v.taken.length + PIPESIZE := hfifo.full_iff (by decide)
  have hle := hfifo.room
  constructor
  · intro hf
    by_contra h0
    have := hroom (by omega)
    rw [hfull] at hf
    omega
  · intro hf
    refine ⟨s,t,hs,ht,hrec,hput,hbytes,?_⟩
    rcases Nat.eq_zero_or_pos i with rfl | hpos
    · -- a multiple of `d` below the limit leaves room for `d` more
      obtain ⟨m,hm⟩ := hdvd
      rw [hfull,hs,ht,Nat.add_zero] at hf
      rw [hs,ht,Nat.add_zero] at hle
      rw [hm] at hf hle ⊢
      rw [← Nat.mul_add] at hf hle ⊢
      have hlt : s < t + m := by
        refine lt_of_le_of_ne (Nat.le_of_mul_le_mul_left hle hd) ?_
        rintro rfl
        exact hf rfl
      calc d * s + d = d * (s + 1) := (Nat.mul_succ d s).symm
        _ ≤ d * (t + m) := Nat.mul_le_mul_left d hlt
    · exact hroom hpos

theorem userAddr_eq {page : ℕ → Bool} (h : UserMem.Accessible page addr d) (hi : i < d) :
    userAddr addr i = addr + i := by
  have := (h (addr + i) (by omega) (by omega)).1
  simp only [MAXVA] at this
  exact Nat.mod_eq_of_lt (by omega)

theorem copyin_byte {u : UserMem} (h : UserMem.Accessible u.readable addr d) (hi : i < d) :
    u.copyin (userAddr addr i) 1 = ([u.byte (addr + i)],true) := by
  rw [userAddr_eq h hi,UserMem.copyin,UserMem.copyinFrom_eq _ _ _ _ (Nat.le_refl _) (h.sub (by omega) (by omega))]
  simp

theorem copyout_byte {u : UserMem} (h : UserMem.Accessible u.writable addr d) (hi : i < d) (x : Byte) :
    u.copyout (userAddr addr i) [x] = (u.put (addr + i) [x],true) := by
  rw [userAddr_eq h hi,UserMem.copyout,UserMem.copyoutFrom_eq _ _ _ _ (Nat.le_refl _)]
  exact h.sub (by omega) (by simp only [List.length_singleton]; omega)

theorem View.Writing.store (h : v.Writing d addr i) (hi : i < d) (hdvd : d ∣ PIPESIZE)
    (hfifo : Fifo v.pipe.data v.pipe.nread v.pipe.nwrite v.stored v.taken) (hfull : ¬v.pipe.Full) (n : Next) :
    (v.after ⟨n,v.pipe.store (v.mem.byte (addr + i)),v.mem,[v.mem.byte (addr + i)],[]⟩).Writing d addr (i + 1) := by
  obtain ⟨s,t,hs,ht,hrec,hput,hbytes,hroom⟩ := (h.room hdvd (by omega) hi hfifo).2 hfull
  refine ⟨s,t,?_,by simpa [View.after] using ht,hrec,?_,?_,fun _ => hroom⟩
  · simp [View.after,hs,Nat.add_assoc]
  · simp [View.after,hs,hput,List.range'_concat]
  · intro j hj
    rcases Nat.lt_succ_iff_lt_or_eq.mp hj with hj | rfl
    · rw [View.after,List.getElem?_append_left (by omega)]
      exact hbytes j hj
    · rw [View.after,List.getElem?_append_right (by omega),hs,Nat.sub_self]
      rfl

theorem View.Reading.take (h : v.Reading d addr i) (hi : i < d)
    (hfifo : Fifo v.pipe.data v.pipe.nread v.pipe.nwrite v.stored v.taken) (hempty : v.pipe.nread ≠ v.pipe.nwrite)
    (n : Next) :
    (v.after ⟨n,v.pipe.take,v.mem.put (addr + i) [v.pipe.first],[],[v.pipe.first]⟩).Reading d addr (i + 1) := by
  obtain ⟨s,t,hs,ht,hrec,hgot,hbytes,hthere⟩ := h
  have hne := (not_congr (hfifo.empty_iff (by decide))).mp hempty
  have hle := hfifo.le
  have hlt : v.taken.length < v.stored.length :=
    lt_of_le_of_ne hle fun he => hne (hfifo.order.eq_of_length he)
  have hts : t < s := by
    refine Nat.lt_of_mul_lt_mul_left (a := d) ?_
    omega
  refine ⟨s,t,by simpa [View.after] using hs,?_,hrec,?_,?_,fun _ => hts⟩
  · simp [View.after,ht,Nat.add_assoc]
  · simp [View.after,ht,hgot,List.range'_concat]
  · intro j hj
    simp only [View.after,List.append_nil,UserMem.put,List.length_singleton]
    rcases Nat.lt_succ_iff_lt_or_eq.mp hj with hj | rfl
    · rw [if_neg (by omega)]
      exact hbytes j hj
    · -- the byte taken is the next one of the stream
      rw [if_pos (by omega),Nat.sub_self,← ht]
      have htake := (hfifo.take (by decide) hlt).order
      rw [List.prefix_iff_getElem?] at htake
      have := htake v.taken.length (by simp)
      rw [this]
      simp [Pipe.first]

theorem Point.exec_held {k : Point} {b : Bool} (hd : 0 < d) (hdvd : d ∣ PIPESIZE)
    (hfifo : Fifo v.pipe.data v.pipe.nread v.pipe.nwrite v.stored v.taken) (hknow : k.Know v.pipe v.mem)
    (hb : k.Transfers → b = false) (h : k.Held d v) :
    (k.exec v.pipe b v.mem).next.Held d (v.after (k.exec v.pipe b v.mem)) := by
  cases k with
  | writeLoop addr n since i =>
    obtain ⟨rfl,rfl,hi,ha,hw⟩ := h
    have hb : b = false := hb trivial
    subst hb
    simp only [Point.exec]
    split_ifs with h₁ h₂ h₃ h₄
    · rw [View.after_same]
      have hro : v.pipe.readopen = false := by simpa using h₂
      obtain rfl : i = 0 := by
        by_contra h0
        have := hknow.2 (by omega)
        rw [this] at hro
        cases hro
      exact .inr ⟨rfl,hw.whole.2,hw.whole.1,hro⟩
    · rw [View.after_same]
      obtain rfl := (hw.room hdvd hd (by omega) hfifo).1 h₃
      exact ⟨rfl,rfl,ha,hw.whole⟩
    · rw [copyin_byte ha (by omega)] at h₄ ⊢
      exact ⟨rfl,rfl,by omega,ha,hw.store (by omega) hdvd hfifo h₃ _⟩
    · rw [copyin_byte ha (by omega)] at h₄
      exact absurd rfl h₄
    · rw [View.after_same]
      obtain rfl : i = d := by omega
      exact ⟨rfl,hw⟩
  | writeSleep addr n i =>
    obtain ⟨rfl,rfl,ha,hw,hput⟩ := h
    rw [Point.exec,View.after_same]
    exact ⟨⟨rfl,rfl,rfl,ha,hput⟩,hw⟩
  | writeDone addr n i =>
    obtain ⟨rfl,hw⟩ := h
    rw [Point.exec,View.after_same]
    exact .inl ⟨rfl,hw⟩
  | readWait addr n =>
    obtain ⟨rfl,ha,hw,hgot⟩ := h
    have hb : b = false := hb trivial
    subst hb
    simp only [Point.exec,Bool.false_eq_true,if_false]
    split_ifs with h₁
    · rw [View.after_same]
      exact ⟨⟨rfl,ha,hgot⟩,hw⟩
    · rw [View.after_same]
      exact ⟨rfl,Nat.zero_le _,ha,hw.reading hgot⟩
  | readCopy addr n i =>
    obtain ⟨rfl,hi,ha,hr⟩ := h
    simp only [Point.exec]
    split_ifs with h₁ h₂ h₃
    · rw [View.after_same]
      have hall := (hfifo.empty_iff (by decide)).mp h₂
      obtain rfl : i = 0 := by
        by_contra h0
        obtain ⟨s,t,hs,ht,-,-,-,hthere⟩ := hr
        have hts := Nat.mul_le_mul_left d (hthere (by omega))
        rw [Nat.mul_succ] at hts
        rw [hall] at ht
        omega
      exact .inr ⟨rfl,hr.whole.2,hr.whole.1,hall,hknow rfl h₂⟩
    · rw [copyout_byte ha (by omega)]
      exact ⟨rfl,by omega,ha,hr.take (by omega) hfifo h₂ _⟩
    · rw [copyout_byte ha (by omega)] at h₃
      exact absurd rfl h₃
    · rw [View.after_same]
      obtain rfl : i = d := by omega
      exact .inl ⟨rfl,hr⟩
  | readDone addr n i =>
    rw [Point.exec,View.after_same]
    exact ⟨i,rfl,h⟩
  | close writable =>
    cases writable <;> simpa [Point.exec,View.after,View.Whole,View.Records,Next.Held,Point.Held] using h
  | closeTest writable =>
    simp only [Point.exec]
    split_ifs <;> (rw [View.after_same]; exact h)
  | ret c r => trivial

theorem Point.Ready.held {k : Point} (h : k.Ready d v.mem v.put v.got) (hw : v.Whole d) : k.Held d v := by
  cases k with
  | writeLoop addr n since i =>
    obtain ⟨rfl,rfl,rfl,ha,hput⟩ := h
    exact ⟨rfl,rfl,Nat.zero_le _,ha,hw.writing hput⟩
  | readWait addr n => exact ⟨h.1,h.2.1,hw,h.2.2⟩
  | close writable => exact hw
  | _ => exact h.elim

end Points

/-! ## Every run -/

section Runs
variable {N d : ℕ} {w w' : World N} {h : Hist N} {p q : Fin N} {a : Act N}

def World.view (w : World N) (h : Hist N) (p : Fin N) : View :=
  ⟨w.pipe,w.mem p,w.stored,w.taken,h.put p,h.got p,h.puts⟩

def Pos.Aligned (d : ℕ) (v : View) : Pos → Prop
  | .idle => True
  | .entry k | .released _ k | .sleeping _ k => k.Ready d v.mem v.put v.got
  | .presleep _ k => k.Ready d v.mem v.put v.got ∧ v.Whole d
  | .locked k | .wakeup _ _ k => k.Held d v

structure Aligned (d : ℕ) (w : World N) (h : Hist N) : Prop where
  free : w.lock = none → ∀ p, (w.view h p).Whole d
  pos : ∀ p, (w.pos p).Aligned d (w.view h p)
  spared : ∀ p, (w.pos p).Transfers → w.killed p = false

theorem Pos.Aligned.other {x : Pos} {v v' : View} (h : x.Aligned d v) (hx : ¬x.Holds) (hmem : v'.mem = v.mem)
    (hput : v'.put = v.put) (hgot : v'.got = v.got) : x.Aligned d v' := by
  cases x with
  | locked | wakeup | presleep => exact absurd trivial hx
  | entry | released | sleeping =>
    simp only [Pos.Aligned] at h ⊢
    rw [hmem,hput,hgot]
    exact h
  | idle => trivial

theorem Next.Held.aligned {n : Next} {v : View} (h : n.Held d v) : n.pos.Aligned d v := by
  cases n with
  | goto k => exact h
  | wakeup c k => exact h
  | sleep c k => exact h
  | done => trivial
  | free => trivial

theorem Next.Held.whole {n : Next} {v : View} (h : n.Held d v) (hl : n.lock p = none) (hd : n ≠ .done) : v.Whole d := by
  cases n with
  | free => exact h
  | done => exact absurd rfl hd
  | _ => cases hl

theorem World.view_exec (o : Outcome) (hpipe : w'.pipe = o.pipe) (hmem : w'.mem p = o.mem)
    (hstored : w'.stored = w.stored ++ o.stored) (htaken : w'.taken = w.taken ++ o.taken) :
    w'.view (h.record w w' (.exec p)) p = (w.view h p).after o := by
  simp [World.view,View.after,Hist.record,hpipe,hmem,hstored,htaken]

theorem Call.start_ready {c : Call} (hu : Uses d w (.call p c)) : c.start.Ready d (w.mem p) [] [] := by
  cases c with
  | pipewrite addr n => exact ⟨hu.1,rfl,rfl,hu.2.1,rfl⟩
  | piperead addr n => exact ⟨hu.1,hu.2.1,rfl⟩
  | pipeclose writable => trivial

theorem Call.start_spared {c : Call} (hu : Uses d w (.call p c)) (ht : c.start.Transfers) : w.killed p = false := by
  cases c with
  | pipewrite addr n => exact hu.2.2
  | piperead addr n => exact hu.2.2
  | pipeclose writable => exact ht.elim

theorem Point.exec_transfers {k : Point} {pi : Pipe} {b : Bool} {u : UserMem}
    (h : (k.exec pi b u).next.pos.Transfers) : k.Transfers := by
  cases k with
  | close writable => cases writable <;> exact h
  | closeTest writable =>
    simp only [Point.exec] at h
    split_ifs at h <;> exact h
  | ret c r => exact h.elim
  | _ => trivial

theorem Aligned.move {h' : Hist N} (ha : Aligned d w h) (hi : Inv w) (hself : (w'.pos p).Aligned d (w'.view h' p))
    (hpos : ∀ q, q ≠ p → w'.pos q = w.pos q) (hmem : ∀ q, q ≠ p → w'.mem q = w.mem q)
    (hput : ∀ q, q ≠ p → h'.put q = h.put q) (hgot : ∀ q, q ≠ p → h'.got q = h.got q)
    (hshared : (w.pos p).Holds ∨
      w'.pipe = w.pipe ∧ w'.stored = w.stored ∧ w'.taken = w.taken ∧ h'.puts = h.puts)
    (hfree : w'.lock = none → (w'.view h' p).Whole d) (hspared : (w'.pos p).Transfers → w'.killed p = false)
    (hkilled : ∀ q, q ≠ p → w'.killed q = w.killed q) : Aligned d w' h' := by
  refine ⟨fun hl _ => hfree hl,fun q => ?_,fun q => ?_⟩
  · by_cases hq : q = p
    · subst hq
      exact hself
    · have hold := ha.pos q
      rw [hpos q hq]
      rcases hshared with hp | ⟨h₁,h₂,h₃,h₄⟩
      · refine hold.other (fun hq' => ?_) (hmem q hq) (hput q hq) (hgot q hq)
        exact hi.holder hp hq ((hi.lock q).mpr hq')
      · simp only [World.view] at hold ⊢
        rw [h₁,h₂,h₃,h₄,hmem q hq,hput q hq,hgot q hq]
        exact hold
  · by_cases hq : q = p
    · subst hq
      exact hspared
    · rw [hpos q hq,hkilled q hq]
      exact ha.spared q

theorem Aligned.goes {x : Pos} (ha : Aligned d w h) (hi : Inv w) (hpos : w'.pos = update w.pos p x)
    (hview : w'.view h = w.view h) (hx : x.Aligned d (w.view h p)) (ht : x.Transfers → (w.pos p).Transfers)
    (hkilled : w'.killed = w.killed) (hlock : w'.lock = none → w.lock = none ∨ (w.view h p).Whole d) :
    Aligned d w' h := by
  have hv (q : Fin N) : w'.view h q = w.view h q := congrFun hview q
  have hmem (q : Fin N) : w'.mem q = w.mem q := congrArg View.mem (hv q)
  refine ha.move (p := p) hi ?_ (fun q hq => ?_) (fun q _ => hmem q) (fun _ _ => rfl) (fun _ _ => rfl)
    (.inr ⟨congrArg View.pipe (hv p),congrArg View.stored (hv p),congrArg View.taken (hv p),rfl⟩)
    (fun hl => ?_) (fun htr => ?_) (fun _ _ => by rw [hkilled])
  · rw [hpos,update_self,hv]
    exact hx
  · rw [hpos,update_of_ne hq]
  · rw [hv]
    exact (hlock hl).elim (fun hl => ha.free hl p) id
  · rw [hpos,update_self] at htr
    rw [hkilled]
    exact ha.spared p (ht htr)

theorem Point.Held.whole_of_ret {v : View} {c : Call} {r : ℤ} (h : Point.Held d v (.ret c r)) :
    View.Whole { v with puts := match c with | .pipewrite _ _ => v.puts ++ [v.put] | _ => v.puts } d := by
  cases c with
  | pipewrite addr n =>
    rcases h with ⟨-,h⟩ | ⟨-,-,h,-⟩
    · exact h.puts
    · exact h.puts _
  | piperead addr n =>
    obtain ⟨i,-,h⟩ := h
    exact h.whole
  | pipeclose writable => exact h

theorem Step.aligned (hs : Step w a w') (hu : Uses d w a) (hd : 0 < d) (hdvd : d ∣ PIPESIZE) (hi : Inv w)
    (ha : Aligned d w h) : Aligned d w' (h.record w w' a) := by
  cases hs with
  | @call p c hp =>
    refine ha.move (p := p) hi ?_ (fun q hq => by simp [hq]) (fun _ _ => rfl) (fun q hq => by simp [Hist.record,hq])
      (fun q hq => by simp [Hist.record,hq]) (.inr ⟨rfl,rfl,rfl,rfl⟩) (fun hl => ha.free hl p) ?_ (fun _ _ => rfl)
    · simpa [World.view,Hist.record,Pos.Aligned] using Call.start_ready hu
    · simpa [Pos.Transfers] using Call.start_spared hu
  | @acquire p k hp hl hf =>
    have hk := ha.pos p
    rw [hp] at hk
    exact ha.goes (x := .locked k) hi rfl rfl (hk.held (ha.free hl p)) (by rw [hp]; exact id) rfl (fun hl => by cases hl)
  | @exec p k o hp ho hdone =>
    have hk := ha.pos p
    have ht := ha.spared p
    have hknow := hi.know p
    rw [hp] at hk ht hknow
    subst ho
    have hheld := Point.exec_held (v := w.view h p) hd hdvd hi.fifo hknow ht hk
    refine ha.move (p := p) hi ?_ (fun q hq => by simp [hq]) (fun q hq => by simp [hq])
      (fun q hq => by simp [Hist.record,hq]) (fun q hq => by simp [Hist.record,hq]) (.inl (by rw [hp]; trivial)) ?_ ?_
      (fun _ _ => rfl)
    · rw [World.view_exec (k.exec w.pipe (w.killed p) (w.mem p)) rfl (by simp) rfl rfl]
      simp only [update_self]
      exact hheld.aligned
    · intro hl
      rw [World.view_exec (k.exec w.pipe (w.killed p) (w.mem p)) rfl (by simp) rfl rfl]
      exact hheld.whole hl hdone
    · intro htr
      simp only [update_self] at htr
      exact ht (Point.exec_transfers htr)
  | @ret p c r hp =>
    have hk := ha.pos p
    rw [hp] at hk
    refine ha.move (p := p) hi (by simp [Pos.Aligned]) (fun q hq => by simp [hq]) (fun _ _ => rfl) (fun q hq => by cases c <;> rfl)
      (fun q hq => by cases c <;> rfl) (.inl (by rw [hp]; trivial)) (fun _ => ?_) (by simp [Pos.Transfers]) (fun _ _ => rfl)
    have := Point.Held.whole_of_ret hk
    cases c <;> exact this
  | @wakeup p q c k hp hq =>
    have hk := ha.pos p
    rw [hp] at hk
    exact ha.goes (x := .wakeup c (q + 1) k) hi rfl rfl hk (by rw [hp]; exact id) rfl .inl
  | @wakeupDone p c k hp =>
    have hk := ha.pos p
    rw [hp] at hk
    exact ha.goes (x := .locked k) hi rfl rfl hk (by rw [hp]; exact id) rfl .inl
  | @sleepRelease p c k hp =>
    have hk := ha.pos p
    rw [hp] at hk
    exact ha.goes (x := .released c k) hi rfl rfl hk.1 (by rw [hp]; exact id) rfl fun _ => .inr hk.2
  | @sleep p c k hp =>
    have hk := ha.pos p
    rw [hp] at hk
    exact ha.goes (x := .sleeping c k) hi rfl rfl hk (by rw [hp]; exact id) rfl .inl
  | @resume p c k hp hw =>
    have hk := ha.pos p
    rw [hp] at hk
    exact ha.goes (x := .entry k) hi rfl rfl hk (by rw [hp]; exact id) rfl .inl
  | @kill q hq =>
    refine ⟨ha.free,ha.pos,fun p ht => ?_⟩
    have hne : p ≠ q := by
      rintro rfl
      exact hu ht
    simpa [hne] using ha.spared p ht
  | @user p u b hp =>
    have hidle : (w.pos p).Aligned d (World.view { w with
        mem := update w.mem p u, killed := update w.killed p b } h p) := by
      rw [hp]
      trivial
    refine ha.move (p := p) hi hidle (fun _ _ => rfl) (fun q hq => by simp [hq]) (fun _ _ => rfl) (fun _ _ => rfl)
      (.inr ⟨rfl,rfl,rfl,rfl⟩) (fun hl => ha.free hl p) (fun ht => ?_) (fun q hq => by simp [hq])
    change (w.pos p).Transfers at ht
    rw [hp] at ht
    exact ht.elim

theorem Initial.aligned (hw : Initial w) : Aligned d w ⟨fun _ => [],fun _ => [],[]⟩ where
  free := fun _ p => ⟨0,0,by simp [World.view,hw.stored],by simp [World.view,hw.taken],fun k hk => absurd hk (Nat.not_lt_zero k)⟩
  pos := fun p => by
    rw [hw.pos]
    trivial
  spared := fun p ht => by
    rw [hw.pos] at ht
    exact ht.elim

theorem Run.reaches (hr : Run d w h) : Reachable w := by
  induction hr with
  | init hw => exact .init hw
  | step _ _ hs ih => exact .step ih trivial hs

theorem Run.aligned (hr : Run d w h) (hd : 0 < d) (hdvd : d ∣ PIPESIZE) : Aligned d w h := by
  induction hr with
  | init hw => exact hw.aligned
  | step hr hu hs ih => exact hs.aligned hu hd hdvd hr.reaches.inv ih

/-- Records are never torn: a `pipewrite` that returns has stored its whole record in one piece or
nothing, and a `piperead` has delivered one record of one `pipewrite` or has reached the end. -/
theorem pipe_records_whole (hd : 0 < d) (hdvd : d ∣ PIPESIZE) (hr : Run d w h) :
    (∀ p addr n r w', Step w (.ret p (.pipewrite addr n) r) w' →
      r = d ∧ (∃ k, h.put p = List.range' (d * k) d ∧
        ∀ i, i < d → w.stored[d * k + i]? = some ((w.mem p).byte (addr + i))) ∨
      r = -1 ∧ h.put p = [] ∧ w.pipe.readopen = false) ∧
    ∀ p addr n r w', Step w (.ret p (.piperead addr n) r) w' →
      r = d ∧ (∃ k, h.got p = List.range' (d * k) d ∧ List.range' (d * k) d ∈ h.puts ∧
        ∀ i, i < d → w.stored[d * k + i]? = some ((w.mem p).byte (addr + i))) ∨
      r = 0 ∧ h.got p = [] ∧ w.pipe.writeopen = false ∧ w.taken = w.stored := by
  have ha := hr.aligned hd hdvd
  constructor
  · intro p addr n r w' hs
    cases hs with
    | ret hp =>
      have hk := ha.pos p
      rw [hp] at hk
      rcases hk with ⟨hr,s,t,-,-,-,hput,hbytes,-⟩ | ⟨hr,hput,-,hro⟩
      · exact .inl ⟨hr,s,hput,hbytes⟩
      · exact .inr ⟨hr,hput,hro⟩
  · intro p addr n r w' hs
    cases hs with
    | ret hp =>
      have hk := ha.pos p
      rw [hp] at hk
      obtain ⟨i,rfl,⟨rfl,s,t,-,-,hrec,hgot,hbytes,hts⟩ | ⟨rfl,hgot,-,hall,hwo⟩⟩ := hk
      · exact .inl ⟨rfl,t,hgot,hrec t (hts hd),hbytes⟩
      · exact .inr ⟨rfl,hgot,hwo,hall⟩

/-- Process `p` is at `x` in its call, with the pipe, its memory and the bytes transferred so far as given. -/
def World.inCall (w : World N) (p : Fin N) (x : Pos) (pi : Pipe) (u : UserMem) (stored taken : List Byte) : World N :=
  { w with pipe := pi, lock := some p, pos := update w.pos p x, mem := update w.mem p u
           stored := w.stored ++ stored, taken := w.taken ++ taken }

theorem Run.to (hr : ∃ h, Run d w h) (hu : Uses d w a) {v : World N} (hs : Step w a v) (he : v = w') : ∃ h, Run d w' h :=
  hr.elim fun _ hr => ⟨_,he ▸ hr.step hu hs⟩

theorem Run.enter (hr : ∃ h, Run d w h) (c : Call) (hu : Uses d w (.call p c)) (hp : w.pos p = .idle) (hl : w.lock = none)
    (hf : w.freed = false) : ∃ h, Run d (w.inCall p (.locked c.start) w.pipe (w.mem p) [] []) h :=
  Run.to (a := .acquire p) (Run.to hr hu (.call c hp) rfl) trivial (.acquire (k := c.start) (update_self ..) hl hf)
    (by simp [World.inCall])

theorem Run.goes {k l : Point} {f g : Pipe} {u v : UserMem} {stored taken x y : List Byte}
    (hr : ∃ h, Run d (w.inCall p (.locked k) f u stored taken) h) (hf : w.freed = false)
    (hk : k.exec f (w.killed p) u = ⟨.goto l,g,v,x,y⟩) :
    ∃ h, Run d (w.inCall p (.locked l) g v (stored ++ x) (taken ++ y)) h :=
  Run.to (a := .exec p) hr trivial (.exec (k := k) (update_self ..) (by simpa [World.inCall] using hk) (by simp))
    (by simp [World.inCall,Next.pos,Next.lock,Next.isFree,hf])

theorem Run.wakes {w : World 2} {p : Fin 2} {k l : Point} {c : Chan} {pi : Pipe} {u : UserMem} {stored taken : List Byte}
    (hr : ∃ h, Run d (w.inCall p (.locked k) pi u stored taken) h) (hf : w.freed = false) (hq : ∀ q, w.pos q = .idle)
    (ha : ∀ q, w.asleep q = none) (hk : k.exec pi (w.killed p) u = ⟨.wakeup c l,pi,u,[],[]⟩) :
    ∃ h, Run d (w.inCall p (.locked l) pi u stored taken) h := by
  have hu : ∀ (n : ℕ) (q : Fin 2), ((w.inCall p (.wakeup c n l) pi u stored taken).pos q).Unlocked := by
    intro n q
    rcases eq_or_ne q p with rfl | hne
    · simp [World.inCall,Pos.Unlocked]
    · simp [World.inCall,hne,hq,Pos.Unlocked]
  have hwake : ∃ h, Run d (w.inCall p (.wakeup c 0 l) pi u stored taken) h :=
    Run.to (a := .exec p) hr trivial (.exec (k := k) (update_self ..) (by simpa [World.inCall] using hk) (by simp))
      (by simp [World.inCall,Next.pos,Next.lock,Next.isFree,hf])
  have h₁ : ∃ h, Run d (w.inCall p (.wakeup c 1 l) pi u stored taken) h :=
    Run.to (a := .wakeup p) hwake trivial (.wakeup (q := 0) (c := c) (k := l) (update_self ..) (hu 0 0))
      (by simp [World.inCall,World.wake,ha])
  have h₂ : ∃ h, Run d (w.inCall p (.wakeup c 2 l) pi u stored taken) h :=
    Run.to (a := .wakeup p) h₁ trivial (.wakeup (q := 1) (c := c) (k := l) (update_self ..) (hu 1 1))
      (by simp [World.inCall,World.wake,ha])
  exact Run.to (a := .wakeup p) h₂ trivial (.wakeupDone (c := c) (k := l) (update_self ..)) (by simp [World.inCall])

def counting : UserMem := ⟨fun a => BitVec.ofNat 8 (a + 1),fun _ => true,fun _ => true⟩

def fourStored : Pipe := (((fresh.pipe.store 1).store 2).store 3).store 4

def recordWritten (p : Fin 2) : World 2 :=
  { fresh with pipe := fourStored, mem := update fresh.mem p counting, stored := [1,2,3,4] }

theorem accessible_four : UserMem.Accessible (fun _ => true) 0 4 := fun a _ ha => ⟨by simp only [MAXVA]; omega,rfl⟩

theorem recordWritten_run : ∃ h, Run 4 (recordWritten 0) h := by
  have h₀ : ∃ h, Run 4 { fresh with mem := update fresh.mem 0 counting } h :=
    Run.to (a := .user 0) ⟨_,.init fresh_initial⟩ trivial (.user counting false rfl) (by simp [fresh])
  have h₁ := Run.enter (p := 0) h₀ (.pipewrite 0 4) ⟨rfl,accessible_four,rfl⟩ rfl rfl rfl
  have h₂ := Run.goes (l := .writeLoop 0 4 0 1) (g := fresh.pipe.store 1) (v := counting) (x := [1]) h₁ rfl rfl
  have h₃ := Run.goes (l := .writeLoop 0 4 0 2) (g := (fresh.pipe.store 1).store 2) (v := counting) (x := [2]) h₂ rfl rfl
  have h₄ := Run.goes (l := .writeLoop 0 4 0 3) (g := ((fresh.pipe.store 1).store 2).store 3) (v := counting) (x := [3]) h₃ rfl rfl
  have h₅ := Run.goes (l := .writeLoop 0 4 0 4) (g := fourStored) (v := counting) (x := [4]) h₄ rfl rfl
  have h₆ := Run.goes (l := .writeDone 0 4 4) (g := fourStored) (v := counting) h₅ rfl rfl
  have h₇ := Run.wakes (l := .ret (.pipewrite 0 4) 4) h₆ rfl (fun _ => rfl) (fun _ => rfl) rfl
  exact Run.to (a := .ret 0 (.pipewrite 0 4) 4) h₇ trivial (.ret rfl) (by simp [World.inCall,recordWritten,fresh])

theorem record_read : ∃ (w : World 2) (h : Hist 2), Run 4 w h ∧ w.pos 1 = .locked (.ret (.piperead 0 4) 4) := by
  have h₁ := Run.enter (p := 1) recordWritten_run (.piperead 0 4) ⟨rfl,accessible_four,rfl⟩ rfl rfl rfl
  have h₂ := Run.goes (l := .readCopy 0 4 0) h₁ rfl rfl
  have h₃ := Run.goes (l := .readCopy 0 4 1) h₂ rfl rfl
  have h₄ := Run.goes (l := .readCopy 0 4 2) h₃ rfl rfl
  have h₅ := Run.goes (l := .readCopy 0 4 3) h₄ rfl rfl
  have h₆ := Run.goes (l := .readCopy 0 4 4) h₅ rfl rfl
  have h₇ := Run.goes (l := .readDone 0 4 4) h₆ rfl rfl
  obtain ⟨h,hr⟩ := Run.wakes (l := .ret (.piperead 0 4) 4) h₇ rfl (fun _ => rfl) (fun _ => rfl) rfl
  exact ⟨_,h,hr,rfl⟩

/-- One process writes a record of four bytes, and another one reads it. -/
theorem pipe_records_whole_four : ∃ (w : World 2) (h : Hist 2), Run 4 w h ∧ (∃ w', Step w (.ret 1 (.piperead 0 4) 4) w') ∧
    ∃ k, h.got 1 = List.range' (4 * k) 4 ∧ List.range' (4 * k) 4 ∈ h.puts ∧
      ∀ i, i < 4 → w.stored[4 * k + i]? = some ((w.mem 1).byte (0 + i)) := by
  obtain ⟨w,h,hr,hpos⟩ := record_read
  refine ⟨w,h,hr,⟨_,.ret hpos⟩,?_⟩
  rcases (pipe_records_whole (by decide) (by decide) hr).2 1 0 4 4 _ (.ret hpos) with ⟨-,hrec⟩ | ⟨hr,-⟩
  · exact hrec
  · cases hr

end Runs

end Xv6.PipeProtocol
