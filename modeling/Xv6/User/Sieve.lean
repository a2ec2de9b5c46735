import Xv6.User.Primes

/-! # The network of `primes.c` under every schedule

What a process has still to write is a function of where it is and of what it has still to read,
which is what its pipe holds and what its parent has still to write. A step moves numbers from
one of these places to the next and changes nothing for the processes further down.
-/
namespace Xv6.Primes
open Library
open PipeProtocol (PIPESIZE)
open Function (update update_apply update_eq_self update_of_ne update_self)

/-! ## Numbers in a pipe -/

def nums : List Byte → List ℤ
  | a :: b :: c :: d :: t => decode [a,b,c,d] :: nums t
  | _ => []

@[simp] theorem nums_nil : nums [] = [] := rfl

theorem length_encode (x : ℤ) : (encode x).length = 4 := leBytes_length _ _

theorem decode_encode {x : ℤ} (h₁ : -2 ^ 31 ≤ x) (h₂ : x < 2 ^ 31) : decode (encode x) = x := by
  rw [decode,encode,ofLe_leBytes_of_lt (BitVec.isLt _),BitVec.ofNat_toNat,BitVec.setWidth_eq,BitVec.toInt_ofInt]
  exact Int.bmod_eq_of_le (by omega) (by omega)

theorem four_of_dvd {bs : List Byte} (h : 4 ∣ bs.length) (hne : bs ≠ []) :
    ∃ a b c d t, bs = a :: b :: c :: d :: t ∧ 4 ∣ t.length := by
  match bs with
  | [] => exact absurd rfl hne
  | [_] | [_,_] | [_,_,_] => exact absurd h (by simp)
  | a :: b :: c :: d :: t =>
    refine ⟨a,b,c,d,t,rfl,?_⟩
    simp only [List.length_cons] at h
    omega

theorem nums_append {bs : List Byte} (h : 4 ∣ bs.length) {cs : List Byte} (hc : cs.length = 4) :
    nums (bs ++ cs) = nums bs ++ [decode cs] := by
  induction bs using nums.induct with
  | case1 a b c d t ih =>
    simp only [List.length_cons] at h
    simp [nums,ih (by omega)]
  | case2 bs hbs =>
    obtain rfl : bs = [] := by
      by_contra hne
      obtain ⟨a,b,c,d,t,rfl,-⟩ := four_of_dvd h hne
      exact hbs a b c d t rfl
    obtain ⟨a,b,c,d,t,rfl,-⟩ := four_of_dvd (show 4 ∣ cs.length by rw [hc]) (by rintro rfl; cases hc)
    obtain rfl : t = [] := List.eq_nil_of_length_eq_zero (by simp only [List.length_cons] at hc; omega)
    rfl

/-! ## What is still to come -/

def lines (l : List ℤ) : List Char := l.flatMap line

/-- What a process will write to its pipe if it still reads `inp`. -/
@[simp] def Pc.todo (inp : List ℤ) : Pc → List ℤ
  | .genPipe s | .genFork s | .genRd s | .gen s => s
  | .genWrite bs s => decode bs :: s
  | .print n _ | .pipe n | .fork n | .rd n | .loop n => strike n inp
  | .write n bs => decode bs :: strike n inp
  | .childWr | .childRd | .first => strike (inp.headD 0) inp.tail
  | _ => []

@[simp] def Pc.prints (inp : List ℤ) : Pc → List Char
  | .genPipe s | .genFork s => lines (sieve s)
  | .childWr | .childRd | .first => lines (sieve inp)
  | .print n cs => cs ++ lines (sieve (strike n inp))
  | .pipe n | .fork n => lines (sieve (strike n inp))
  | _ => []

def World.inp (w : World) : ℕ → List ℤ
  | 0 => []
  | k + 1 => nums (w.data k) ++ (w.pc k).todo (w.inp k)

/-! ## What each statement has open -/

@[simp] def Pc.OwnWr : Pc → Prop
  | .genFork _ | .genRd _ | .gen _ | .genWrite _ _ | .genWr | .fork _ | .rd _ | .loop _ | .write _ _ | .fdRd | .wr => True
  | _ => False

@[simp] def Pc.OwnRd : Pc → Prop
  | .genFork _ | .genRd _ | .fork _ | .rd _ => True
  | _ => False

@[simp] def Pc.Fd : Pc → Prop
  | .childWr | .childRd | .first | .firstRd | .print _ _ | .pipe _ | .fork _ | .rd _ | .loop _ | .write _ _ | .fdRd => True
  | _ => False

@[simp] def Pc.OldRd : Pc → Prop
  | .childWr | .childRd => True
  | _ => False

@[simp] def Pc.Writes (j i : ℕ) (c : Pc) : Prop := i = j ∧ c.OwnWr ∨ j = i + 1 ∧ c = .childWr

@[simp] def Pc.Reads (j i : ℕ) (c : Pc) : Prop := i = j ∧ c.OwnRd ∨ j = i + 1 ∧ c.Fd ∨ j = i + 2 ∧ c.OldRd

@[simp] def Pc.Forked : Pc → Prop
  | .genRd _ | .gen _ | .genWrite _ _ | .genWr | .genWait | .rd _ | .loop _ | .write _ _ | .fdRd | .wr | .wait | .last
  | .exit | .exited => True
  | _ => False

@[simp] def Pc.Tip : Pc → Prop
  | .genPipe _ | .genFork _ | .childWr | .childRd | .first | .firstRd | .print _ _ | .pipe _ | .fork _
  | .exit | .exited => True
  | _ => False

@[simp] def Pc.Done : Pc → Prop
  | .firstRd | .fdRd | .wr | .wait | .last | .exit | .exited => True
  | _ => False

def Int32 (x : ℤ) : Prop := -2 ^ 31 ≤ x ∧ x < 2 ^ 31

@[simp] def Pc.Place (k : ℕ) : Pc → Prop
  | .unborn | .exit | .exited => True
  | .genPipe s | .genFork s | .genRd s | .gen s => k = 0 ∧ ∀ x ∈ s, Int32 x
  | .genWrite bs s => k = 0 ∧ bs.length = 4 ∧ ∀ x ∈ s, Int32 x
  | .genWr | .genWait => k = 0
  | .childRd => 1 < k
  | .write _ bs => 0 < k ∧ bs.length = 4
  | _ => 0 < k

structure Inv (s : List ℤ) (w : World) : Prop where
  data : ∀ i, 4 ∣ (w.data i).length ∧ (w.data i).length ≤ PIPESIZE
  place : ∀ k, (w.pc k).Place k
  unborn : ∀ k, w.pc k = .unborn ↔ w.born ≤ k
  forked : ∀ k, k + 1 < w.born → (w.pc k).Forked
  tip : ∀ k, k + 1 = w.born → (w.pc k).Tip
  born : 0 < w.born
  writers : ∀ i j, j ∈ w.writers i ↔ (w.pc j).Writes j i
  readers : ∀ i j, j ∈ w.readers i ↔ (w.pc j).Reads j i
  /-- nobody writes to a pipe before its creator has forked -/
  fresh : ∀ i, w.born ≤ i + 1 → w.data i = []
  done : ∀ k, (w.pc k).Done → w.inp k = []
  total : w.out ++ (w.pc (w.born - 1)).prints (w.inp (w.born - 1)) = lines (sieve s)

variable {s : List ℤ} {w w' : World} {k : ℕ} {c : Pc}

/-! ## A step of one process -/

theorem inp_below (hpc : ∀ j, j ≠ k → w'.pc j = w.pc j) (hdata : ∀ i, i ≠ k → i + 1 ≠ k → w'.data i = w.data i)
    {j : ℕ} (hj : j < k) : w'.inp j = w.inp j := by
  induction j with
  | zero => rfl
  | succ j ih => rw [World.inp,World.inp,ih (by omega),hpc j (by omega),hdata j (by omega) (by omega)]

theorem inp_above (hpc : ∀ j, j ≠ k → w'.pc j = w.pc j) (hdata : ∀ i, i ≠ k → i + 1 ≠ k → w'.data i = w.data i)
    (hflow : w'.inp (k + 1) = w.inp (k + 1)) {j : ℕ} (hj : k < j) : w'.inp j = w.inp j := by
  induction j, hj using Nat.le_induction with
  | base => exact hflow
  | succ j hj ih => rw [World.inp,World.inp,ih,hpc j (by omega),hdata j (by omega) (by omega)]

theorem Pc.Forked.prints (h : c.Forked) (inp : List ℤ) : c.prints inp = [] := by
  cases c <;> first | rfl | exact h.elim

theorem Pc.Forked.todo (h : c.Forked) (ho : ¬c.OwnWr) (inp : List ℤ) : c.todo inp = [] := by
  cases c <;> first | rfl | exact h.elim | exact absurd trivial ho

/-- What has to be checked when process `k` goes to `c`. -/
structure Move (w w' : World) (k : ℕ) (c : Pc) : Prop where
  pc : w'.pc = update w.pc k c
  born : w'.born = w.born
  data : ∀ i, i ≠ k → i + 1 ≠ k → w'.data i = w.data i
  length : ∀ i, 4 ∣ (w'.data i).length ∧ (w'.data i).length ≤ PIPESIZE
  place : c.Place k
  ne : w.pc k ≠ .unborn ∧ c ≠ .unborn
  forked : (w.pc k).Forked → c.Forked
  tip : (w.pc k).Tip → c.Tip
  writes : ∀ i, k ∈ w'.writers i ↔ c.Writes k i
  reads : ∀ i, k ∈ w'.readers i ↔ c.Reads k i
  writers : ∀ i j, j ≠ k → (j ∈ w'.writers i ↔ j ∈ w.writers i)
  readers : ∀ i j, j ≠ k → (j ∈ w'.readers i ↔ j ∈ w.readers i)
  fresh : ∀ i, w.born ≤ i + 1 → w'.data i = []
  flow : nums (w'.data k) ++ c.todo (w'.inp k) = nums (w.data k) ++ (w.pc k).todo (w.inp k)
  done : c.Done → w'.inp k = []
  out : w'.out ++ c.prints (w'.inp k) = w.out ++ (w.pc k).prints (w.inp k)

theorem Move.pc_of_ne (h : Move w w' k c) (j : ℕ) (hj : j ≠ k) : w'.pc j = w.pc j := by
  rw [h.pc,update_of_ne hj]

theorem Move.pc_self (h : Move w w' k c) : w'.pc k = c := by
  rw [h.pc,update_self]

theorem Move.inp (h : Move w w' k c) {j : ℕ} (hj : j ≠ k) : w'.inp j = w.inp j := by
  rcases Nat.lt_or_gt_of_ne hj with hlt | hgt
  · exact inp_below h.pc_of_ne h.data hlt
  · refine inp_above h.pc_of_ne h.data ?_ hgt
    rw [World.inp,World.inp,h.pc_self]
    exact h.flow

theorem Inv.move (hi : Inv s w) (h : Move w w' k c) : Inv s w' where
  data := h.length
  place := fun j => by
    by_cases hj : j = k
    · rw [hj,h.pc_self]
      exact h.place
    · rw [h.pc_of_ne j hj]
      exact hi.place j
  unborn := fun j => by
    rw [h.born]
    by_cases hj : j = k
    · rw [hj,h.pc_self,← hi.unborn]
      exact iff_of_false h.ne.2 h.ne.1
    · rw [h.pc_of_ne j hj]
      exact hi.unborn j
  forked := fun j hj' => by
    rw [h.born] at hj'
    by_cases hj : j = k
    · subst hj
      rw [h.pc_self]
      exact h.forked (hi.forked j hj')
    · rw [h.pc_of_ne j hj]
      exact hi.forked j hj'
  tip := fun j hj' => by
    rw [h.born] at hj'
    by_cases hj : j = k
    · subst hj
      rw [h.pc_self]
      exact h.tip (hi.tip j hj')
    · rw [h.pc_of_ne j hj]
      exact hi.tip j hj'
  born := by
    rw [h.born]
    exact hi.born
  writers := fun i j => by
    by_cases hj : j = k
    · rw [hj,h.pc_self]
      exact h.writes i
    · rw [h.writers i j hj,h.pc_of_ne j hj]
      exact hi.writers i j
  readers := fun i j => by
    by_cases hj : j = k
    · rw [hj,h.pc_self]
      exact h.reads i
    · rw [h.readers i j hj,h.pc_of_ne j hj]
      exact hi.readers i j
  fresh := fun i hle => by
    rw [h.born] at hle
    exact h.fresh i hle
  done := fun j hd => by
    by_cases hj : j = k
    · rw [hj,h.pc_self] at hd
      rw [hj]
      exact h.done hd
    · rw [h.pc_of_ne j hj] at hd
      rw [h.inp hj]
      exact hi.done j hd
  total := by
    have hborn := hi.born
    have hlt : k < w.born := by
      by_contra hle
      exact h.ne.1 ((hi.unborn k).mpr (by omega))
    rw [← hi.total,h.born]
    by_cases hk : w.born - 1 = k
    · rw [hk,h.pc_self]
      exact h.out
    · -- a process that is not the last one has nothing to print
      have hf := hi.forked k (by omega)
      have hout := h.out
      rw [hf.prints,(h.forked hf).prints,List.append_nil,List.append_nil] at hout
      rw [h.pc_of_ne _ hk,h.inp hk,hout]

theorem inp_self (hpc : ∀ j, j ≠ k → w'.pc j = w.pc j) (hdata : ∀ i, i ≠ k → w'.data i = w.data i) :
    w'.inp k = w.inp k := by
  cases k with
  | zero => rfl
  | succ j =>
    rw [World.inp,World.inp,inp_below hpc (fun i hi _ => hdata i hi) (Nat.lt_succ_self j),hpc j (by omega),
      hdata j (by omega)]

theorem mem_closeWr {w : World} {k i i' j : ℕ} :
    j ∈ (w.closeWr k i').writers i ↔ j ∈ w.writers i ∧ ¬(j = k ∧ i = i') := by
  by_cases h : i = i'
  · subst h
    simp [World.closeWr,and_comm]
  · simp [World.closeWr,h]

theorem mem_closeRd {w : World} {k i i' j : ℕ} :
    j ∈ (w.closeRd k i').readers i ↔ j ∈ w.readers i ∧ ¬(j = k ∧ i = i') := by
  by_cases h : i = i'
  · subst h
    simp [World.closeRd,and_comm]
  · simp [World.closeRd,h]

/-- From one statement to another that moves no number, with the write ends `P` and the read ends `Q`
closed on the way. -/
structure Jump (k : ℕ) (P Q : ℕ → Prop) (c₀ c : Pc) : Prop where
  place : c₀.Place k → c.Place k
  ne : c₀ ≠ .unborn ∧ c ≠ .unborn
  forked : c₀.Forked → c.Forked
  tip : c₀.Tip → c.Tip
  writes : ∀ i, c.Writes k i ↔ c₀.Writes k i ∧ ¬P i
  reads : ∀ i, c.Reads k i ↔ c₀.Reads k i ∧ ¬Q i

theorem Inv.jump {c₀ : Pc} {P Q : ℕ → Prop} (hi : Inv s w) (hp : w.pc k = c₀) (hj : c₀.Place k → Jump k P Q c₀ c)
    (hpc : w'.pc = update w.pc k c) (hborn : w'.born = w.born) (hdata : w'.data = w.data)
    (hwriters : ∀ i j, j ∈ w'.writers i ↔ j ∈ w.writers i ∧ ¬(j = k ∧ P i))
    (hreaders : ∀ i j, j ∈ w'.readers i ↔ j ∈ w.readers i ∧ ¬(j = k ∧ Q i))
    (hdone : c.Done → w.inp k = []) (htodo : c.todo (w.inp k) = c₀.todo (w.inp k))
    (hout : w'.out ++ c.prints (w.inp k) = w.out ++ c₀.prints (w.inp k)) : Inv s w' := by
  subst hp
  have hj := hj (hi.place k)
  have hinp : w'.inp k = w.inp k :=
    inp_self (fun j hj => by rw [hpc,update_of_ne hj]) (fun i _ => by rw [hdata])
  refine hi.move (k := k) (c := c) ⟨hpc,hborn,fun i _ _ => by rw [hdata],by rw [hdata]; exact hi.data,
    hj.place (hi.place k),hj.ne,hj.forked,hj.tip,fun i => ?_,fun i => ?_,fun i j hj => ?_,fun i j hj => ?_,
    by rw [hdata]; exact hi.fresh,?_,fun hd => ?_,?_⟩
  · rw [hwriters,hj.writes,hi.writers]
    simp
  · rw [hreaders,hj.reads,hi.readers]
    simp
  · rw [hwriters]
    simp [hj]
  · rw [hreaders]
    simp [hj]
  · rw [hinp,hdata,htodo]
  · rw [hinp]
    exact hdone hd
  · rw [hinp,hout]

theorem Inv.goto {c₀ : Pc} (hi : Inv s w) (hp : w.pc k = c₀)
    (hj : c₀.Place k → Jump k (fun _ => False) (fun _ => False) c₀ c) (hdone : c.Done → w.inp k = [])
    (htodo : c.todo (w.inp k) = c₀.todo (w.inp k)) (hout : c.prints (w.inp k) = c₀.prints (w.inp k)) :
    Inv s (w.goto k c) :=
  hi.jump hp hj rfl rfl rfl (by simp [World.goto]) (by simp [World.goto]) hdone htodo (by rw [hout]; rfl)

theorem Inv.closeWr {c₀ : Pc} {i : ℕ} (hi : Inv s w) (hp : w.pc k = c₀)
    (hj : c₀.Place k → Jump k (· = i) (fun _ => False) c₀ c) (hdone : c.Done → c₀.Done)
    (htodo : ∀ l, c.todo l = c₀.todo l) (hout : ∀ l, c.prints l = c₀.prints l) : Inv s ((w.closeWr k i).goto k c) :=
  hi.jump hp hj rfl rfl rfl (fun _ _ => mem_closeWr) (by simp [World.closeWr,World.goto])
    (fun h => hi.done k (hp ▸ hdone h)) (htodo _) (by rw [hout]; rfl)

theorem Inv.closeRd {c₀ : Pc} {i : ℕ} (hi : Inv s w) (hp : w.pc k = c₀)
    (hj : c₀.Place k → Jump k (fun _ => False) (· = i) c₀ c) (hdone : c.Done → c₀.Done)
    (htodo : ∀ l, c.todo l = c₀.todo l) (hout : ∀ l, c.prints l = c₀.prints l) : Inv s ((w.closeRd k i).goto k c) :=
  hi.jump hp hj rfl rfl rfl (by simp [World.closeRd,World.goto]) (fun _ _ => mem_closeRd)
    (fun h => hi.done k (hp ▸ hdone h)) (htodo _) (by rw [hout]; rfl)

theorem Inv.lt_born (hi : Inv s w) (hk : w.pc k ≠ .unborn) : k < w.born := by
  by_contra hle
  exact hk ((hi.unborn k).mpr (by omega))

theorem Inv.is_tip (hi : Inv s w) (hk : w.pc k ≠ .unborn) (hf : ¬(w.pc k).Forked) : k + 1 = w.born := by
  have := hi.lt_born hk
  by_contra hne
  exact hf (hi.forked k (by omega))

theorem Inv.not_tip (hi : Inv s w) (hk : w.pc k ≠ .unborn) (ht : ¬(w.pc k).Tip) : k + 1 < w.born := by
  have := hi.lt_born hk
  by_contra hle
  exact ht (hi.tip k (by omega))

theorem Inv.no_ends (hi : Inv s w) (hborn : k + 1 = w.born) (ho : ¬(w.pc k).OwnWr) (hr : ¬(w.pc k).OwnRd) (j : ℕ) :
    j ∉ w.writers k ∧ j ∉ w.readers k := by
  have hnone (j : ℕ) (hj : k < j) : w.pc j = .unborn := (hi.unborn _).mpr (by omega)
  rw [hi.writers,hi.readers]
  constructor
  · rintro (⟨rfl,h⟩ | ⟨rfl,h⟩)
    · exact ho h
    · rw [hnone _ (by omega)] at h
      cases h
  · rintro (⟨rfl,h⟩ | ⟨rfl,h⟩ | ⟨rfl,h⟩)
    · exact hr h
    · rw [hnone _ (by omega)] at h
      exact h
    · rw [hnone _ (by omega)] at h
      exact h

theorem Inv.openPipe {c₀ : Pc} (hi : Inv s w) (hp : w.pc k = c₀)
    (h : (∃ l, c₀ = .genPipe l ∧ c = .genFork l) ∨ ∃ n, c₀ = .pipe n ∧ c = .fork n) :
    Inv s ((w.openPipe k).goto k c) := by
  have hne : w.pc k ≠ .unborn := by
    rcases h with ⟨l,rfl,-⟩ | ⟨n,rfl,-⟩ <;> simp [hp]
  have hborn : k + 1 = w.born := hi.is_tip hne (by rcases h with ⟨l,rfl,-⟩ | ⟨n,rfl,-⟩ <;> simp [hp])
  have hends := hi.no_ends hborn (by rcases h with ⟨l,rfl,-⟩ | ⟨n,rfl,-⟩ <;> simp [hp])
    (by rcases h with ⟨l,rfl,-⟩ | ⟨n,rfl,-⟩ <;> simp [hp])
  have hdata : ((w.openPipe k).goto k c).data = w.data := by
    funext i
    by_cases hik : i = k
    · subst hik
      simp [World.openPipe,World.goto,hi.fresh i (by omega)]
    · simp [World.openPipe,World.goto,hik]
  have hinp : ((w.openPipe k).goto k c).inp k = w.inp k :=
    inp_self (fun j hj => by simp [World.openPipe,World.goto,hj]) (fun i _ => by rw [hdata])
  have hplace := hi.place k
  have hold (i : ℕ) := hi.readers i k
  have hold' (i : ℕ) := hi.writers i k
  refine hi.move (k := k) (c := c) ⟨rfl,rfl,fun i _ _ => by rw [hdata],by rw [hdata]; exact hi.data,?_,⟨hne,?_⟩,?_,?_,
    fun i => ?_,fun i => ?_,fun i j hj => ?_,fun i j hj => ?_,by rw [hdata]; exact hi.fresh,?_,?_,?_⟩
  · rcases h with ⟨l,rfl,rfl⟩ | ⟨n,rfl,rfl⟩ <;> simpa [hp] using hplace
  · rcases h with ⟨l,rfl,rfl⟩ | ⟨n,rfl,rfl⟩ <;> simp
  · rcases h with ⟨l,rfl,rfl⟩ | ⟨n,rfl,rfl⟩ <;> simp [hp]
  · rcases h with ⟨l,rfl,rfl⟩ | ⟨n,rfl,rfl⟩ <;> simp
  · by_cases hik : i = k
    · subst hik
      rcases h with ⟨l,rfl,rfl⟩ | ⟨n,rfl,rfl⟩ <;> simp [World.openPipe,World.goto]
    · have := hold' i
      rcases h with ⟨l,rfl,rfl⟩ | ⟨n,rfl,rfl⟩ <;> simp_all [World.openPipe,World.goto]
  · by_cases hik : i = k
    · subst hik
      rcases h with ⟨l,rfl,rfl⟩ | ⟨n,rfl,rfl⟩ <;> simp [World.openPipe,World.goto]
    · have := hold i
      rcases h with ⟨l,rfl,rfl⟩ | ⟨n,rfl,rfl⟩ <;> simp_all [World.openPipe,World.goto]
  · by_cases hik : i = k
    · subst hik
      simp [World.openPipe,World.goto,hj,(hends j).1]
    · simp [World.openPipe,World.goto,hik]
  · by_cases hik : i = k
    · subst hik
      simp [World.openPipe,World.goto,hj,(hends j).2]
    · simp [World.openPipe,World.goto,hik]
  · rw [hinp,hdata]
    rcases h with ⟨l,rfl,rfl⟩ | ⟨n,rfl,rfl⟩ <;> simp [hp]
  · rcases h with ⟨l,rfl,rfl⟩ | ⟨n,rfl,rfl⟩ <;> simp
  · rw [hinp]
    rcases h with ⟨l,rfl,rfl⟩ | ⟨n,rfl,rfl⟩ <;> simp [hp,World.openPipe,World.goto]

theorem Inv.fork {c₀ : Pc} (hi : Inv s w) (hp : w.pc k = c₀)
    (h : (∃ l, c₀ = .genFork l ∧ c = .genRd l) ∨ ∃ n, c₀ = .fork n ∧ c = .rd n) : Inv s ((w.fork k).goto k c) := by
  have hne : w.pc k ≠ .unborn := by
    rcases h with ⟨l,rfl,-⟩ | ⟨n,rfl,-⟩ <;> simp [hp]
  have hborn : k + 1 = w.born := hi.is_tip hne (by rcases h with ⟨l,rfl,-⟩ | ⟨n,rfl,-⟩ <;> simp [hp])
  have hpc (j : ℕ) : ((w.fork k).goto k c).pc j = if j = k then c else if j = k + 1 then .childWr else w.pc j := by
    simp only [World.fork,World.goto,update_apply,hborn]
  have htodo (l : List ℤ) : c.todo l = c₀.todo l := by
    rcases h with ⟨_,rfl,rfl⟩ | ⟨_,rfl,rfl⟩ <;> rfl
  have hinp (j : ℕ) (hj : j ≤ k + 1) : ((w.fork k).goto k c).inp j = w.inp j := by
    induction j with
    | zero => rfl
    | succ j ih =>
      rw [World.inp,World.inp,ih (by omega),hpc]
      split
      · rename_i hjk
        rw [hjk,htodo,hp]
        rfl
      · rw [if_neg (by omega)]
        rfl
  have hchild : w.pc (k + 1) = .unborn := (hi.unborn _).mpr (by omega)
  have hw (i j : ℕ) : j ∈ ((w.fork k).goto k c).writers i ↔ j ∈ w.writers i ∨ j = k + 1 ∧ k ∈ w.writers i := by
    simp only [World.fork,World.goto,← hborn]
    split <;> simp_all [or_comm]
  have hr (i j : ℕ) : j ∈ ((w.fork k).goto k c).readers i ↔ j ∈ w.readers i ∨ j = k + 1 ∧ k ∈ w.readers i := by
    simp only [World.fork,World.goto,← hborn]
    split <;> simp_all [or_comm]
  have hb : ((w.fork k).goto k c).born = k + 2 := by simp [World.fork,World.goto,← hborn]
  have hplace := hi.place k
  refine ⟨hi.data,fun j => ?_,fun j => ?_,fun j hj => ?_,fun j hj => ?_,by rw [hb]; omega,fun i j => ?_,fun i j => ?_,
    fun i hle => hi.fresh i (by rw [hb] at hle; omega),fun j hd => ?_,?_⟩
  · rw [hpc]
    split
    · rename_i hjk
      subst hjk
      rcases h with ⟨l,rfl,rfl⟩ | ⟨n,rfl,rfl⟩ <;> simpa [hp] using hplace
    · split
      · simp; omega
      · exact hi.place j
  · rw [hpc,hb]
    split
    · refine iff_of_false ?_ (by omega)
      rcases h with ⟨l,rfl,rfl⟩ | ⟨n,rfl,rfl⟩ <;> simp
    · split
      · exact iff_of_false (by simp) (by omega)
      · rw [hi.unborn]
        omega
  · rw [hb] at hj
    rw [hpc]
    split
    · rcases h with ⟨l,rfl,rfl⟩ | ⟨n,rfl,rfl⟩ <;> simp
    · rw [if_neg (by omega)]
      exact hi.forked j (by omega)
  · rw [hb] at hj
    rw [hpc,if_neg (by omega),if_pos (by omega)]
    simp
  · -- the child has what its parent has
    rw [hw,hpc,hi.writers,hi.writers,hp]
    split
    · rename_i hjk
      subst hjk
      rw [hp]
      rcases h with ⟨l,rfl,rfl⟩ | ⟨n,rfl,rfl⟩ <;> simp
    · split
      · rename_i hjk
        subst hjk
        rw [hchild]
        rcases h with ⟨l,rfl,rfl⟩ | ⟨n,rfl,rfl⟩ <;> simp <;> omega
      · rename_i hjk
        simp [hjk]
  · rw [hr,hpc,hi.readers,hi.readers,hp]
    split
    · rename_i hjk
      subst hjk
      rw [hp]
      rcases h with ⟨l,rfl,rfl⟩ | ⟨n,rfl,rfl⟩ <;> simp
    · split
      · rename_i hjk
        subst hjk
        rw [hchild]
        rcases h with ⟨l,rfl,rfl⟩ | ⟨n,rfl,rfl⟩
        · rw [hp] at hplace
          obtain rfl : k = 0 := hplace.1
          simp
        · simp
          omega
      · rename_i hjk
        simp [hjk]
  · rw [hpc] at hd
    split at hd
    · rcases h with ⟨l,rfl,rfl⟩ | ⟨n,rfl,rfl⟩ <;> cases hd
    · split at hd
      · cases hd
      · have hlt := hi.lt_born (k := j) (by rintro h; rw [h] at hd; exact hd)
        rw [hinp j (by omega)]
        exact hi.done j hd
  · have hdata := hi.fresh k (by omega)
    rw [hb,hpc,if_neg (by omega),if_pos (by omega),hinp _ (by omega),← hi.total,← hborn]
    simp only [Nat.succ_sub_one,hp,World.inp,hdata]
    rcases h with ⟨l,rfl,rfl⟩ | ⟨n,rfl,rfl⟩ <;> simp [World.fork,World.goto]

theorem Inv.reader (hi : Inv s w) (hk : k + 1 < w.born) (hne : w.inp (k + 1) ≠ []) : w.readers k ≠ ∅ := by
  have hfd : (w.pc (k + 1)).Fd := by
    have hb : w.pc (k + 1) ≠ .unborn := fun h => absurd ((hi.unborn _).mp h) (by omega)
    have hpl := hi.place (k + 1)
    have hd := mt (hi.done (k + 1)) hne
    cases hp : w.pc (k + 1) <;> simp_all
  refine Finset.ne_empty_of_mem (a := k + 1) ((hi.readers k (k + 1)).mpr (.inr (.inl ⟨rfl,hfd⟩)))

theorem Inv.eof (hi : Inv s w) (hk : k + 1 < w.born) (hd : w.data k = []) (hw : w.writers k = ∅) : w.inp (k + 1) = [] := by
  have ho : ¬(w.pc k).OwnWr := by
    intro h
    have := (hi.writers k k).mpr (.inl ⟨rfl,h⟩)
    rw [hw] at this
    cases this
  rw [World.inp,hd,(hi.forked k hk).todo ho]
  rfl

theorem Inv.write {c₀ : Pc} {bs : List Byte} (hi : Inv s w) (hp : w.pc k = c₀)
    (h : (∃ l, c₀ = .genWrite bs l ∧ c = .gen l) ∨ ∃ n, c₀ = .write n bs ∧ c = .loop n)
    (hlt : (w.data k).length < PIPESIZE) :
    Inv s (World.goto { w with data := update w.data k (w.data k ++ bs) } k c) := by
  have hplace := hi.place k
  rw [hp] at hplace
  have hlen : bs.length = 4 := by
    rcases h with ⟨l,rfl,-⟩ | ⟨n,rfl,-⟩
    · exact hplace.2.1
    · exact hplace.2
  have hne : w.pc k ≠ .unborn := by
    rcases h with ⟨l,rfl,-⟩ | ⟨n,rfl,-⟩ <;> simp [hp]
  have hborn := hi.not_tip hne (by rcases h with ⟨l,rfl,-⟩ | ⟨n,rfl,-⟩ <;> simp [hp])
  have hdata (i : ℕ) (hik : i ≠ k) : (World.goto { w with data := update w.data k (w.data k ++ bs) } k c).data i = w.data i := by
    simp [World.goto,hik]
  have hdk : (World.goto { w with data := update w.data k (w.data k ++ bs) } k c).data k = w.data k ++ bs := by
    simp [World.goto]
  have hinp : (World.goto { w with data := update w.data k (w.data k ++ bs) } k c).inp k = w.inp k :=
    inp_self (fun j hj => by simp [World.goto,hj]) hdata
  refine hi.move (k := k) (c := c) ⟨rfl,rfl,fun i hik _ => hdata i hik,fun i => ?_,?_,⟨hne,?_⟩,?_,?_,fun i => ?_,fun i => ?_,
    fun i j _ => Iff.rfl,fun i j _ => Iff.rfl,fun i hle => ?_,?_,?_,?_⟩
  · by_cases hik : i = k
    · have := hi.data k
      rw [hik,hdk,List.length_append,hlen]
      simp only [PIPESIZE] at this hlt ⊢
      omega
    · rw [hdata i hik]
      exact hi.data i
  · rcases h with ⟨l,rfl,rfl⟩ | ⟨n,rfl,rfl⟩
    · exact ⟨hplace.1,hplace.2.2⟩
    · exact hplace.1
  · rcases h with ⟨l,rfl,rfl⟩ | ⟨n,rfl,rfl⟩ <;> simp
  · rcases h with ⟨l,rfl,rfl⟩ | ⟨n,rfl,rfl⟩ <;> simp
  · rcases h with ⟨l,rfl,rfl⟩ | ⟨n,rfl,rfl⟩ <;> simp [hp]
  · refine (hi.writers i k).trans ?_
    rcases h with ⟨l,rfl,rfl⟩ | ⟨n,rfl,rfl⟩ <;> simp [hp]
  · refine (hi.readers i k).trans ?_
    rcases h with ⟨l,rfl,rfl⟩ | ⟨n,rfl,rfl⟩ <;> simp [hp]
  · rw [hdata i (by omega)]
    exact hi.fresh i hle
  · rw [hinp,hdk,nums_append (hi.data k).1 hlen]
    rcases h with ⟨l,rfl,rfl⟩ | ⟨n,rfl,rfl⟩ <;> simp [hp]
  · rcases h with ⟨l,rfl,rfl⟩ | ⟨n,rfl,rfl⟩ <;> simp
  · rw [hinp]
    rcases h with ⟨l,rfl,rfl⟩ | ⟨n,rfl,rfl⟩ <;> simp [hp,World.goto]

theorem Inv.write_step {bs : List Byte} {r : World × List Byte} (hi : Inv s w)
    (h : (∃ l, w.pc k = .genWrite bs l) ∨ ∃ n, w.pc k = .write n bs) (hr : w.write k bs = some r) :
    (w.data k).length < PIPESIZE ∧ r = ({ w with data := update w.data k (w.data k ++ bs) },[]) := by
  have hplace := hi.place k
  have hlen : bs.length = 4 := by
    rcases h with ⟨l,h⟩ | ⟨n,h⟩
    · rw [h] at hplace
      exact hplace.2.1
    · rw [h] at hplace
      exact hplace.2
  have hborn : k + 1 < w.born :=
    hi.not_tip (by rcases h with ⟨l,h⟩ | ⟨n,h⟩ <;> simp [h]) (by rcases h with ⟨l,h⟩ | ⟨n,h⟩ <;> simp [h])
  have hread := hi.reader hborn (by rw [World.inp]; rcases h with ⟨l,h⟩ | ⟨n,h⟩ <;> simp [h])
  rw [World.write,if_neg hread] at hr
  split at hr
  · rename_i hlt
    have hdvd := (hi.data k).1
    refine ⟨hlt,?_⟩
    simp only [PIPESIZE] at hlt hr
    rw [List.take_of_length_le (by omega),List.drop_eq_nil_of_le (by omega)] at hr
    exact (Option.some.inj hr).symm
  · cases hr

theorem Inv.read_cases {r : World × List Byte} (hi : Inv s w) (hk : k + 1 < w.born) (hr : w.read k = some r) :
    (r = (w,[]) ∧ w.inp (k + 1) = []) ∨
    ∃ a b c d t, w.data k = a :: b :: c :: d :: t ∧ 4 ∣ t.length ∧
      r = ({ w with data := update w.data k t },[a,b,c,d]) := by
  rw [World.read] at hr
  split at hr
  · cases hr
  · rename_i hcond
    by_cases hd : w.data k = []
    · have hw : w.writers k = ∅ := by
        by_contra hne
        exact hcond ⟨hd,hne⟩
      have hsame : update w.data k [] = w.data := by
        rw [← hd]
        exact update_eq_self ..
      rw [hd,List.drop_nil,List.take_nil,hsame] at hr
      exact .inl ⟨(Option.some.inj hr).symm,hi.eof hk hd hw⟩
    · obtain ⟨a,b,c,d,t,ht,hdvd⟩ := four_of_dvd (hi.data k).1 hd
      refine .inr ⟨a,b,c,d,t,ht,hdvd,?_⟩
      rw [ht] at hr
      exact (Option.some.inj hr).symm

theorem Inv.read {c₀ : Pc} {a b c' d : Byte} {t : List Byte} (hi : Inv s w) (hp : w.pc (k + 1) = c₀)
    (hd : w.data k = a :: b :: c' :: d :: t) (ht : 4 ∣ t.length)
    (hj : c₀.Place (k + 1) → Jump (k + 1) (fun _ => False) (fun _ => False) c₀ c) (hdone : ¬c.Done)
    (htodo : ∀ l, c.todo l = c₀.todo (decode [a,b,c',d] :: l)) (hout : ∀ l, c.prints l = c₀.prints (decode [a,b,c',d] :: l)) :
    Inv s (World.goto { w with data := update w.data k t } (k + 1) c) := by
  subst hp
  have hj := hj (hi.place (k + 1))
  have hlt := hi.lt_born hj.ne.1
  have hdata (i : ℕ) (hik : i ≠ k) : (World.goto { w with data := update w.data k t } (k + 1) c).data i = w.data i := by
    simp [World.goto,hik]
  have hdk : (World.goto { w with data := update w.data k t } (k + 1) c).data k = t := by
    simp [World.goto]
  have hpc (j : ℕ) (hjk : j ≠ k + 1) : (World.goto { w with data := update w.data k t } (k + 1) c).pc j = w.pc j := by
    simp [World.goto,hjk]
  have hinp : w.inp (k + 1) =
      decode [a,b,c',d] :: (World.goto { w with data := update w.data k t } (k + 1) c).inp (k + 1) := by
    rw [World.inp,World.inp,hdk,hpc k (by omega),
      inp_below hpc (fun i _ h => hdata i (by omega)) (Nat.lt_succ_self k),hd]
    rfl
  refine hi.move (k := k + 1) (c := c) ⟨rfl,rfl,fun i _ h => hdata i (by omega),fun i => ?_,hj.place (hi.place (k + 1)),hj.ne,
    hj.forked,hj.tip,fun i => ?_,fun i => ?_,fun i j _ => Iff.rfl,fun i j _ => Iff.rfl,fun i hle => ?_,?_,
    fun h => absurd h hdone,?_⟩
  · by_cases hik : i = k
    · have := (hi.data k).2
      rw [hd] at this
      rw [hik,hdk]
      simp only [List.length_cons] at this
      exact ⟨ht,by omega⟩
    · rw [hdata i hik]
      exact hi.data i
  · refine (hi.writers i (k + 1)).trans ?_
    rw [hj.writes]
    simp
  · refine (hi.readers i (k + 1)).trans ?_
    rw [hj.reads]
    simp
  · rw [hdata i (by omega)]
    exact hi.fresh i hle
  · rw [hdata (k + 1) (by omega),htodo,hinp]
  · rw [hout,hinp]
    rfl

theorem strike_cons (n x : ℤ) (l : List ℤ) : strike n (x :: l) = if n ∣ x then strike n l else x :: strike n l := by
  by_cases h : n ∣ x <;> simp [strike,h]

theorem lines_sieve_cons (x : ℤ) (l : List ℤ) : lines (sieve (x :: l)) = line x ++ lines (sieve (strike x l)) := by
  rw [sieve]
  rfl

theorem Inv.step (hi : Inv s w) (hs : w.step k = some w') : Inv s w' := by
  have hplace := hi.place k
  cases hp : w.pc k with
  | unborn => simp [World.step,hp] at hs
  | exited => simp [World.step,hp] at hs
  | genPipe l =>
    simp only [World.step,hp,Option.some.injEq] at hs
    subst hs
    exact hi.openPipe hp (.inl ⟨l,rfl,rfl⟩)
  | genFork l =>
    simp only [World.step,hp,Option.some.injEq] at hs
    subst hs
    exact hi.fork hp (.inl ⟨l,rfl,rfl⟩)
  | genRd l =>
    simp only [World.step,hp,Option.some.injEq] at hs
    subst hs
    exact hi.closeRd hp (fun _ => by constructor <;> simp) id (fun _ => rfl) fun _ => rfl
  | gen l =>
    cases l with
    | nil =>
      simp only [World.step,hp,Option.some.injEq] at hs
      subst hs
      exact hi.goto hp (fun _ => by constructor <;> simp) (fun h => h.elim) rfl rfl
    | cons x l =>
      rw [hp] at hplace
      have hx : Int32 x := hplace.2 x (by simp)
      simp only [World.step,hp,Option.some.injEq] at hs
      subst hs
      exact hi.goto hp (fun _ => by constructor <;> simp +contextual [length_encode]) (fun h => h.elim)
        (by simp [decode_encode hx.1 hx.2]) rfl
  | genWrite bs l =>
    simp only [World.step,hp,Option.map_eq_some_iff] at hs
    obtain ⟨r,hr,rfl⟩ := hs
    obtain ⟨hlt,rfl⟩ := hi.write_step (.inl ⟨l,hp⟩) hr
    exact hi.write hp (.inl ⟨l,rfl,rfl⟩) hlt
  | genWr =>
    simp only [World.step,hp,Option.some.injEq] at hs
    subst hs
    exact hi.closeWr hp (fun _ => by constructor <;> simp) id (fun _ => rfl) fun _ => rfl
  | genWait =>
    simp only [World.step,hp] at hs
    split at hs
    · cases hs
      rw [hp] at hplace
      obtain rfl : k = 0 := hplace
      exact hi.goto hp (fun _ => by constructor <;> simp) (fun _ => rfl) rfl rfl
    · cases hs
  | childWr =>
    simp only [World.step,hp,Option.some.injEq] at hs
    subst hs
    refine hi.closeWr hp (fun h => ?_) (by split <;> exact id) (fun _ => by split <;> rfl) fun _ => by split <;> rfl
    have h0 : 0 < k := h
    split
    · rename_i h1
      subst h1
      constructor <;> simp
    · constructor <;> simp <;> grind
  | childRd =>
    simp only [World.step,hp,Option.some.injEq] at hs
    subst hs
    exact hi.closeRd hp (fun h => by have h1 : 1 < k := h; constructor <;> simp <;> grind) id (fun _ => rfl) fun _ => rfl
  | first =>
    rw [hp] at hplace
    obtain ⟨j,rfl⟩ : ∃ j, k = j + 1 := ⟨k - 1,by simp at hplace; omega⟩
    simp only [World.step,hp,Option.map_eq_some_iff] at hs
    obtain ⟨r,hr,rfl⟩ := hs
    have hj := hi.lt_born (k := j + 1) (by simp [hp])
    rcases hi.read_cases hj hr with ⟨rfl,hend⟩ | ⟨a,b,c,d,t,hd,ht,rfl⟩
    · exact hi.goto hp (fun _ => by constructor <;> simp) (fun _ => hend) (by rw [hend]; rfl) (by rw [hend]; simp [sieve,lines])
    · exact hi.read hp hd ht (fun _ => by constructor <;> simp) (by simp) (fun _ => rfl)
        fun l => (lines_sieve_cons _ l).symm
  | firstRd =>
    simp only [World.step,hp,Option.some.injEq] at hs
    subst hs
    exact hi.closeRd hp (fun h => by have h0 : 0 < k := h; constructor <;> simp; omega) id (fun _ => rfl) fun _ => rfl
  | print n cs =>
    cases cs with
    | nil =>
      simp only [World.step,hp,Option.some.injEq] at hs
      subst hs
      exact hi.goto hp (fun _ => by constructor <;> simp) (fun h => h.elim) rfl rfl
    | cons x cs =>
      simp only [World.step,hp,Option.some.injEq] at hs
      subst hs
      exact hi.jump (P := fun _ => False) (Q := fun _ => False) hp (fun _ => by constructor <;> simp) rfl rfl rfl
        (by simp [World.goto]) (by simp [World.goto]) (fun h => h.elim) rfl (by simp [World.goto])
  | pipe n =>
    simp only [World.step,hp,Option.some.injEq] at hs
    subst hs
    exact hi.openPipe hp (.inr ⟨n,rfl,rfl⟩)
  | fork n =>
    simp only [World.step,hp,Option.some.injEq] at hs
    subst hs
    exact hi.fork hp (.inr ⟨n,rfl,rfl⟩)
  | rd n =>
    simp only [World.step,hp,Option.some.injEq] at hs
    subst hs
    exact hi.closeRd hp (fun _ => by constructor <;> simp; omega) id (fun _ => rfl) fun _ => rfl
  | loop n =>
    rw [hp] at hplace
    obtain ⟨j,rfl⟩ : ∃ j, k = j + 1 := ⟨k - 1,by simp at hplace; omega⟩
    simp only [World.step,hp,Option.map_eq_some_iff] at hs
    obtain ⟨r,hr,rfl⟩ := hs
    have hj := hi.lt_born (k := j + 1) (by simp [hp])
    rcases hi.read_cases hj hr with ⟨rfl,hend⟩ | ⟨a,b,c,d,t,hd,ht,rfl⟩
    · exact hi.goto hp (fun _ => by constructor <;> simp) (fun _ => hend) (by rw [hend]; rfl) rfl
    · simp only [List.length_cons,List.length_nil,Nat.zero_add,Nat.reduceAdd,if_true,ne_eq,ite_not,← Int.dvd_iff_tmod_eq_zero]
      by_cases hdvd : n ∣ decode [a,b,c,d]
      · rw [if_pos hdvd]
        exact hi.read hp hd ht (fun _ => by constructor <;> simp) (by simp) (fun l => by simp [strike_cons,hdvd]) (fun l => rfl)
      · rw [if_neg hdvd]
        exact hi.read hp hd ht (fun _ => by constructor <;> simp) (by simp) (fun l => by simp [strike_cons,hdvd]) (fun l => rfl)
  | write n bs =>
    simp only [World.step,hp,Option.map_eq_some_iff] at hs
    obtain ⟨r,hr,rfl⟩ := hs
    obtain ⟨hlt,rfl⟩ := hi.write_step (.inr ⟨n,hp⟩) hr
    exact hi.write hp (.inr ⟨n,rfl,rfl⟩) hlt
  | fdRd =>
    simp only [World.step,hp,Option.some.injEq] at hs
    subst hs
    exact hi.closeRd hp (fun h => by have h0 : 0 < k := h; constructor <;> simp; omega) id (fun _ => rfl) fun _ => rfl
  | wr =>
    simp only [World.step,hp,Option.some.injEq] at hs
    subst hs
    exact hi.closeWr hp (fun _ => by constructor <;> simp) id (fun _ => rfl) fun _ => rfl
  | wait =>
    simp only [World.step,hp] at hs
    split at hs
    · cases hs
      exact hi.goto hp (fun _ => by constructor <;> simp) (fun _ => hi.done k (by rw [hp]; trivial)) rfl rfl
    · cases hs
  | last =>
    simp only [World.step,hp,Option.some.injEq] at hs
    subst hs
    exact hi.closeRd hp (fun h => by have h0 : 0 < k := h; constructor <;> simp) id (fun _ => rfl) fun _ => rfl
  | exit =>
    simp only [World.step,hp,Option.some.injEq] at hs
    subst hs
    exact hi.jump (P := fun _ => True) (Q := fun _ => True) hp (fun _ => by constructor <;> simp) rfl rfl rfl
      (by simp [World.goto,World.closeAll,and_comm]) (by simp [World.goto,World.closeAll,and_comm])
      (fun _ => hi.done k (by rw [hp]; trivial)) rfl rfl

theorem inv_init (hs : ∀ x ∈ s, Int32 x) : Inv s (.init s) := by
  have hpc (k : ℕ) : (World.init s).pc k = if k = 0 then .genPipe s else .unborn := by
    simp [World.init,update_apply]
  refine ⟨fun i => by simp [World.init],fun k => ?_,fun k => ?_,fun k hk => ?_,fun k hk => ?_,by simp [World.init],fun i j => ?_,
    fun i j => ?_,fun _ _ => rfl,fun k hd => ?_,?_⟩
  · rw [hpc]
    split
    · rename_i h
      exact ⟨h,hs⟩
    · trivial
  · rw [hpc]
    split
    · rename_i h
      simp [h,World.init]
    · rename_i h
      exact iff_of_true rfl (Nat.one_le_iff_ne_zero.mpr h)
  · simp [World.init] at hk
  · obtain rfl : k = 0 := by simpa [World.init] using hk
    simp [hpc]
  · rw [hpc]
    split <;> simp [World.init]
  · rw [hpc]
    split <;> simp [World.init]
  · rw [hpc] at hd
    split at hd <;> exact hd.elim
  · simp [World.init]

theorem Reachable.inv (hs : ∀ x ∈ s, Int32 x) (h : Reachable s w) : Inv s w := by
  induction h with
  | init => exact inv_init hs
  | step k _ h ih => exact ih.step h

/-! ## No state is stuck -/

theorem Inv.writer_waits (hi : Inv s w) (hstuck : w.step k = none) (hk : k + 1 < w.born) (ho : (w.pc k).OwnWr) :
    (∃ n, w.pc k = .loop n) ∨ PIPESIZE ≤ (w.data k).length := by
  have hf := hi.forked k hk
  have hfull {bs : List Byte} (h : w.write k bs = none) : PIPESIZE ≤ (w.data k).length := by
    rw [World.write] at h
    split at h
    · cases h
    · split at h
      · cases h
      · omega
  cases hp : w.pc k with
  | genWrite bs l =>
    simp [World.step,hp] at hstuck
    exact .inr (hfull hstuck)
  | write n bs =>
    simp [World.step,hp] at hstuck
    exact .inr (hfull hstuck)
  | loop n => exact .inl ⟨n,rfl⟩
  | gen l => cases l <;> simp [World.step,hp] at hstuck
  | genRd | genWr | rd | fdRd | wr => simp [World.step,hp] at hstuck
  | genFork | fork =>
    rw [hp] at hf
    exact hf.elim
  | _ =>
    rw [hp] at ho
    exact ho.elim

theorem Inv.not_reading (hi : Inv s w) (hstuck : ∀ k, w.step k = none) (hk : k < w.born) :
    w.pc k ≠ .first ∧ ∀ n, w.pc k ≠ .loop n := by
  induction k with
  | zero =>
    have := hi.place 0
    constructor
    · intro h
      simp [h] at this
    · intro n h
      simp [h] at this
  | succ k ih =>
    -- an empty pipe has a writer, which is the creator of the pipe and could go on
    have hread (hne : w.pc (k + 1) ≠ .childWr) : w.read k ≠ none := by
      intro h
      rw [World.read] at h
      split at h
      · rename_i hcond
        obtain ⟨j,hj⟩ := Finset.nonempty_iff_ne_empty.mpr hcond.2
        rcases (hi.writers k j).mp hj with ⟨rfl,ho⟩ | ⟨rfl,hc⟩
        · rcases hi.writer_waits (hstuck k) hk ho with ⟨n,hn⟩ | hfull
          · exact (ih (by omega)).2 n hn
          · rw [hcond.1] at hfull
            simp [PIPESIZE] at hfull
        · exact hne hc
      · cases h
    have hst := hstuck (k + 1)
    constructor
    · intro h
      simp only [World.step,h,Option.map_eq_none_iff,Nat.add_sub_cancel] at hst
      exact hread (by simp [h]) hst
    · intro n h
      simp only [World.step,h,Option.map_eq_none_iff,Nat.add_sub_cancel] at hst
      exact hread (by simp [h]) hst

theorem Inv.all_exited (hi : Inv s w) (hstuck : ∀ k, w.step k = none) (d : ℕ) (hd : d < w.born) :
    w.pc (w.born - 1 - d) = .exited := by
  induction d with
  | zero =>
    have hborn := hi.born
    have ht := hi.tip (w.born - 1) (by omega)
    have hr := (hi.not_reading hstuck (k := w.born - 1) (by omega)).1
    have hst := hstuck (w.born - 1)
    rw [Nat.sub_zero]
    cases hp : w.pc (w.born - 1) with
    | exited => rfl
    | first => exact absurd hp hr
    | print n cs => cases cs <;> simp [World.step,hp] at hst
    | genPipe | genFork | childWr | childRd | firstRd | pipe | fork | exit => simp [World.step,hp] at hst
    | _ =>
      rw [hp] at ht
      exact ht.elim
  | succ d ih =>
    obtain ⟨k,hk⟩ : ∃ k, k = w.born - 1 - (d + 1) := ⟨_,rfl⟩
    have hchild : w.pc (k + 1) = .exited := by
      rw [← ih (by omega)]
      congr 1
      omega
    rw [← hk]
    have hlt : k + 1 < w.born := by omega
    have hf := hi.forked k hlt
    have hr := (hi.not_reading hstuck (k := k) (by omega)).2
    have hst := hstuck k
    -- the child has read everything, so that there is nothing left to write
    have hnone : (w.pc k).todo (w.inp k) = [] := by
      have := hi.done (k + 1) (by rw [hchild]; trivial)
      rw [World.inp] at this
      exact (List.append_eq_nil_iff.mp this).2
    cases hp : w.pc k with
    | exited => rfl
    | loop n => exact absurd hp (hr n)
    | genWrite bs l | write n bs =>
      rw [hp] at hnone
      cases hnone
    | gen l => cases l <;> simp [World.step,hp] at hst
    | genRd | genWr | rd | fdRd | wr | last | exit => simp [World.step,hp] at hst
    | genWait | wait => simp [World.step,hp,hchild] at hst
    | _ =>
      rw [hp] at hf
      exact hf.elim

/-! ## Primes -/

def upto (N : ℕ) : List ℤ := (List.range' 2 (N - 1)).map Nat.cast

theorem strike_cast (m : ℕ) (l : List ℕ) :
    strike m (l.map Nat.cast) = (l.filter fun x => ¬m ∣ x).map Nat.cast := by
  rw [strike,List.filter_map]
  congr 2
  funext x
  simp [Int.natCast_dvd_natCast]

theorem sieve_range' (m d : ℕ) (hm : 2 ≤ m) :
    sieve (((List.range' m d).filter fun x => ∀ q < m, q.Prime → ¬q ∣ x).map Nat.cast) =
      ((List.range' m d).filter Nat.Prime).map Nat.cast := by
  induction d generalizing m with
  | zero => simp [sieve]
  | succ d ih =>
    have ih := ih (m + 1) (by omega)
    rw [List.range'_succ]
    by_cases hp : m.Prime
    · have hself : ∀ q < m, q.Prime → ¬q ∣ m := by
        intro q hq hqp hdvd
        have := (Nat.prime_dvd_prime_iff_eq hqp hp).mp hdvd
        omega
      rw [List.filter_cons_of_pos (by simpa using hself),List.filter_cons_of_pos (by simpa using hp),
        List.map_cons,List.map_cons,sieve,strike_cast,List.filter_filter,← ih]
      congr 4
      funext x
      simp only [Nat.forall_lt_succ_right,hp,true_implies,Bool.decide_and,Bool.and_comm]
    · have hself : ¬∀ q < m, q.Prime → ¬q ∣ m := by
        intro h
        exact h m.minFac ((Nat.minFac_le (by omega)).lt_of_ne fun h => hp (h ▸ Nat.minFac_prime (by omega)))
          (Nat.minFac_prime (by omega)) (Nat.minFac_dvd m)
      rw [List.filter_cons_of_neg (by simpa using hself),List.filter_cons_of_neg (by simpa using hp),← ih]
      congr 3
      funext x
      simp only [Nat.forall_lt_succ_right,hp,false_implies,and_true]

theorem sieve_upto (N : ℕ) : sieve (upto N) = ((List.range (N + 1)).filter Nat.Prime).map Nat.cast := by
  have hall : (List.range' 2 (N - 1)).filter (fun x => ∀ q < 2, q.Prime → ¬q ∣ x) = List.range' 2 (N - 1) := by
    rw [List.filter_eq_self]
    intro x _
    rw [decide_eq_true_iff]
    intro q hq hp
    exact absurd hp.two_le (by omega)
  rw [upto,← hall,sieve_range' 2 (N - 1) (Nat.le_refl 2)]
  congr 1
  cases N with
  | zero => rfl
  | succ N =>
    have h : List.range (N + 1 + 1) = 0 :: 1 :: List.range' 2 N := by
      rw [List.range_eq_range',List.range'_succ,List.range'_succ]
    rw [h,Nat.add_sub_cancel,List.filter_cons_of_neg (by decide),List.filter_cons_of_neg (by decide)]

/-- Under every schedule the lines come out in the order of the sieve, and the only states without a
next step are those in which everything has been printed and every process has exited. -/
theorem primes_network (hs : ∀ x ∈ s, 2 ≤ x ∧ x < 2 ^ 31) (h : Reachable s w) :
    w.out <+: lines (sieve s) ∧
    ((∀ k, w.step k = none) → (∀ k, w.pc k = .unborn ∨ w.pc k = .exited) ∧ w.out = lines (sieve s)) ∧
    ∀ N, s = upto N → sieve s = ((List.range (N + 1)).filter Nat.Prime).map Nat.cast := by
  have hi := h.inv fun x hx => ⟨by have := hs x hx; omega,(hs x hx).2⟩
  refine ⟨⟨_,hi.total⟩,fun hstuck => ?_,fun N hN => hN ▸ sieve_upto N⟩
  have hex (k : ℕ) (hk : k < w.born) : w.pc k = .exited := by
    have := hi.all_exited hstuck (w.born - 1 - k) (by omega)
    rwa [show w.born - 1 - (w.born - 1 - k) = k by omega] at this
  refine ⟨fun k => ?_,?_⟩
  · by_cases hk : k < w.born
    · exact .inr (hex k hk)
    · exact .inl ((hi.unborn k).mpr (by omega))
  · have htotal := hi.total
    have hborn := hi.born
    rw [hex _ (by omega)] at htotal
    simpa using htotal

theorem Reachable.run {ks : List ℕ} {w' : World} (h : Reachable s w) (hr : ks.foldlM World.step w = some w') :
    Reachable s w' := by
  induction ks generalizing w with
  | nil =>
    cases hr
    exact h
  | cons k ks ih =>
    obtain ⟨v,hv,hr⟩ := Option.bind_eq_some_iff.mp hr
    exact ih (.step k h hv) hr

/-- A schedule under which `main` and its descendants pass `2, 3` on, print and exit. -/
def schedule : List ℕ :=
  [0,0,1,0,0,0,1,1,1,1,1,1,1,1,1,1,1,1,2,2,1,0,0,1,1,2,2,2,2,2,2,2,2,2,2,2,2,3,3,2,0,0,1,1,1,2,2,2,3,3,3,2,2,2,1,1,1,0,0]

theorem primes_network_two : ∃ w, Reachable [2,3] w ∧ (∀ k, w.step k = none) ∧ (∀ k, w.pc k = .unborn ∨ w.pc k = .exited) ∧
    w.out = lines (sieve [2,3]) ∧ w.out = "prime 2\nprime 3\n".toList := by
  obtain ⟨w,hrun,hw⟩ := Option.map_eq_some_iff.mp (show (schedule.foldlM World.step (World.init [2,3])).map
    (fun w : World => decide (w.born = 4 ∧ ((List.range 4).all fun k => (w.step k).isNone) ∧
      w.out = "prime 2\nprime 3\n".toList)) = some true by
      decide +kernel)
  obtain ⟨hborn,hnone,hout⟩ := of_decide_eq_true hw
  have h : Reachable [2,3] w := .run .init hrun
  have hs : ∀ x ∈ ([2,3] : List ℤ), 2 ≤ x ∧ x < 2 ^ 31 := by decide
  have hi := h.inv fun x hx => ⟨by have := hs x hx; omega,(hs x hx).2⟩
  have hstuck : ∀ k, w.step k = none := by
    intro k
    by_cases hk : k < 4
    · exact Option.isNone_iff_eq_none.mp (List.all_eq_true.mp hnone k (List.mem_range.mpr hk))
    · simp [World.step,(hi.unborn k).mpr (by omega)]
  obtain ⟨hexit,hlines⟩ := (primes_network hs h).2.1 hstuck
  exact ⟨w,h,hstuck,hexit,hlines,hout⟩

end Xv6.Primes
