import Xv6.Log.Protocol

/-! # Admission to the log

`begin_op` admits an operation while `lh.n + (outstanding + 1) * MAXOPBLOCKS` is at
most `LOGSIZE`, but a log of `LOGSIZE` blocks has `LOGSIZE - 1` data blocks, and
`log_write` panics as soon as all of them are taken, even for a block that is already
in the header.
-/
namespace Xv6.LogProtocol
open Library LogCrash Pool
open Function (update update_self)

section
variable {P : Type}

def used (logged : List Write) (op : ℕ) : Finset ℕ :=
  ((logged.filter (fun x => x.op = op)).map Write.block).toFinset

/-- No operation logs more than `MAXOPBLOCKS` distinct blocks. -/
def Within (w : World P) (a : Act P) : Prop :=
  ∀ p b op, a = .logWrite p b → w.pos p = .inOp op → (insert b (used w.logged op)).card ≤ MAXOPBLOCKS

/-- `begin_op` leaves the last data block of the log free. -/
def Spare (w : World P) (a : Act P) : Prop :=
  ∀ p, a = .beginOp p →
    (w.st.log.lh.n : ℤ) + (w.st.log.outstanding + 1) * MAXOPBLOCKS ≤ w.st.log.size - 2

def reserve (logged : List Write) : Pos → ℕ
  | .inOp op => MAXOPBLOCKS - (used logged op).card
  | _ => 0

theorem mem_used {logged : List Write} {op b : ℕ} :
    b ∈ used logged op ↔ ∃ x ∈ logged, x.op = op ∧ x.block = b := by
  simp [used,and_assoc]

theorem used_append (logged : List Write) (op op' b : ℕ) (v : Block) :
    used (logged ++ [⟨op',b,v⟩]) op = if op' = op then insert b (used logged op) else used logged op := by
  ext c
  split
  · rename_i h
    simp [used,h]
  · rename_i h
    simp [used,h]

theorem reserve_append_le (logged : List Write) (x : Write) (y : Pos) :
    reserve (logged ++ [x]) y ≤ reserve logged y := by
  cases y with
  | inOp op =>
    have : (used logged op).card ≤ (used (logged ++ [x]) op).card := by
      refine Finset.card_le_card fun b hb => ?_
      obtain ⟨y,hy,hop⟩ := mem_used.mp hb
      exact mem_used.mpr ⟨y,List.mem_append_left _ hy,hop⟩
    simp only [reserve]
    omega
  | _ => exact Nat.le_refl _

theorem reserve_le_busy (logged : List Write) (y : Pos) : reserve logged y ≤ MAXOPBLOCKS * y.busy := by
  cases y <;> simp [reserve,Pos.busy]

end

section
variable {P : Type} [DecidableEq P] [Fintype P] {start : ℕ} {d : Blocks} {w w' : World P}

omit [DecidableEq P] in
theorem Inv.used_subset {size : ℕ} (hi : Inv start size d w) {p : P} {op b : ℕ}
    (hp : w.pos p = .inOp op) (hb : b ∈ used w.logged op) : b ∈ w.st.log.lh.block := by
  obtain ⟨x,hx,hop,rfl⟩ := mem_used.mp hb
  rw [hi.history.logged,List.mem_append] at hx
  rcases hx with hx | hx
  · exact absurd hp ((hop ▸ hi.history.ended x hx).2 p)
  · exact (hi.quiet fun q => hi.counters.not_inCommit_of_inOp hp).pending x hx

/-- Between commits, every block that operations in progress may still log has a place
in the log, and one place is left over. -/
def Room (w : World P) : Prop :=
  (∀ p, ¬w.InCommit p) → w.st.log.lh.n + total (reserve w.logged) w.pos + 2 ≤ LOGSIZE

omit [DecidableEq P] in
theorem total_reserve_le (hi : Inv start LOGSIZE d w) :
    (total (reserve w.logged) w.pos : ℤ) ≤ w.st.log.outstanding * MAXOPBLOCKS := by
  rw [hi.counters.outstanding]
  have hle : total (reserve w.logged) w.pos ≤ total Pos.busy w.pos * MAXOPBLOCKS := by
    rw [total,total,Finset.sum_mul]
    exact Finset.sum_le_sum fun q _ => (reserve_le_busy _ _).trans (by rw [Nat.mul_comm])
  exact_mod_cast hle

omit [DecidableEq P] in
theorem total_reserve_append_lt (hi : Inv start LOGSIZE d w) {p : P} {op b : ℕ} (v : Block)
    (hp : w.pos p = .inOp op) (hm : b ∉ w.st.log.lh.block)
    (hcard : (insert b (used w.logged op)).card ≤ MAXOPBLOCKS) :
    total (reserve (w.logged ++ [⟨op,b,v⟩])) w.pos < total (reserve w.logged) w.pos := by
  have hfresh : b ∉ used w.logged op := fun h => hm (hi.used_subset hp h)
  refine Finset.sum_lt_sum (fun q _ => reserve_append_le _ _ _) ⟨p,Finset.mem_univ p,?_⟩
  rw [Finset.card_insert_of_notMem hfresh] at hcard
  simp only [hp,reserve,used_append,if_true,Finset.card_insert_of_notMem hfresh]
  omega

theorem Room.step (hr : Room w) (hi : Inv start LOGSIZE d w) {a : Act P} (hw : Within w a)
    (hspare : Spare w a) (h : Step start LOGSIZE w a w') : Room w' := by
  cases h with
  | @beginOp p l hp hl =>
    obtain ⟨-,-,rfl⟩ := Log.beginOp_eq_some hl
    have hs := hspare p rfl
    have hle := total_reserve_le hi
    have ht := total_update (reserve w.logged) w.pos p (.inOp w.begun)
    have hnew : reserve w.logged (.inOp w.begun) ≤ MAXOPBLOCKS := Nat.sub_le _ _
    rw [hi.logsize] at hs
    have key : w.st.log.lh.n + total (reserve w.logged) (update w.pos p (.inOp w.begun)) + 2 ≤
        LOGSIZE := by
      simp only [MAXOPBLOCKS,LOGSIZE] at hs hle hnew ⊢
      omega
    exact fun _ => key
  | @logWrite p op b r l v hp hb hl =>
    obtain ⟨-,-,-,-,-,-,-,hlh⟩ := Log.logWrite_eq_ok hl
    have hres := hr fun q => hi.counters.not_inCommit_of_inOp hp
    have key : l.lh.n + total (reserve (w.logged ++ [⟨op,b,v⟩])) w.pos + 2 ≤ LOGSIZE := by
      by_cases hm : b ∈ w.st.log.lh.block
      · have ht : total (reserve (w.logged ++ [⟨op,b,v⟩])) w.pos ≤ total (reserve w.logged) w.pos :=
          Finset.sum_le_sum fun q _ => reserve_append_le _ _ _
        rw [if_pos hm] at hlh
        have hn : l.lh.n = w.st.log.lh.n := by rw [Logheader.n,hlh,Logheader.n]
        omega
      · have ht := total_reserve_append_lt hi v hp hm (hw p b op rfl hp)
        rw [if_neg hm] at hlh
        have hn : l.lh.n = w.st.log.lh.n + 1 := by simp [Logheader.n,hlh]
        omega
    exact fun _ => key
  | @endOp p op r l hp hl =>
    obtain ⟨-,-,rfl⟩ := Log.endOp_eq_ok hl
    have hres := hr fun q => hi.counters.not_inCommit_of_inOp hp
    have ht := total_update (reserve w.logged) w.pos p (if r then .inCommit commit else .idle)
    have hzero : reserve w.logged (if r then .inCommit commit else .idle) = 0 := by cases r <;> rfl
    have key : w.st.log.lh.n + total (reserve w.logged)
        (update w.pos p (if r then .inCommit commit else .idle)) + 2 ≤ LOGSIZE := by omega
    exact fun _ => key
  | @commit p o k r t hp ho ht => exact fun h => absurd ⟨k r,update_self ..⟩ (h p)
  | @writeHead p k hp => exact fun h => absurd ⟨k (),update_self ..⟩ (h p)
  | @commitDone p hp =>
    obtain ⟨s,hs⟩ := hi.running p _ hp
    have hlh : w.st.log.lh = Logheader.empty := hs.rest.2.2.1
    have hzero : total (reserve w.logged) w.pos = 0 := by
      refine total_eq_zero.mpr fun q => Nat.le_zero.mp ((reserve_le_busy w.logged (w.pos q)).trans ?_)
      rw [total_eq_zero.mp (hi.counters.alone p ⟨_,hp⟩) q]
      rfl
    have ht := total_update (reserve w.logged) w.pos p .idle
    simp only [hp,reserve] at ht
    have key : w.st.log.lh.n + total (reserve w.logged) (update w.pos p .idle) + 2 ≤ LOGSIZE := by
      rw [hlh,Logheader.empty_n]
      simp only [LOGSIZE]
      omega
    exact fun _ => key

theorem Reaches.room (h : Reaches start LOGSIZE (fun w a => Within w a ∧ Spare w a) d w) : Room w := by
  induction h with
  | @init w h =>
    intro _
    have hzero : total (reserve w.logged) w.pos = 0 := total_eq_zero.mpr fun p => by rw [h.idle p]; rfl
    rw [hzero,h.log]
    exact (by decide : Logheader.empty.n + 0 + 2 ≤ LOGSIZE)
  | step hreach ha h ih => exact ih.step hreach.inv ha.1 ha.2 h

omit [DecidableEq P] in
theorem Inv.header_le {size : ℕ} (hi : Inv start size d w) : w.st.log.lh.n + 1 ≤ size := by
  by_cases hc : ∃ p, w.InCommit p
  · obtain ⟨p,k,hp⟩ := hc
    obtain ⟨s,hs⟩ := hi.running p k hp
    have hroom := hs.fits.room
    rcases hs.rest.here.2.2.1 with h | h
    · exact (congrArg Logheader.n h) ▸ hroom
    · have hn : w.st.log.lh.n = 0 := congrArg Logheader.n h
      omega
  · exact (hi.quiet fun p hp => hc ⟨p,hp⟩).fits.room

/-- If every operation is admitted with a data block to spare and logs at most
`MAXOPBLOCKS` distinct blocks, `log_write` never finds the log full. -/
theorem logWrite_never_too_big (h : Reaches start LOGSIZE (fun w a => Within w a ∧ Spare w a) d w) :
    (∀ p op b, w.pos p = .inOp op → (insert b (used w.logged op)).card ≤ MAXOPBLOCKS →
      w.st.log.logWrite b ≠ .error .tooBigTransaction) ∧
    w.st.log.lh.n ≤ LOGSIZE - 1 := by
  have hi := h.inv
  have hheader := hi.header_le
  refine ⟨?_,by simp only [LOGSIZE] at *; omega⟩
  intro p op b hp _
  have hroom := h.room fun q => hi.counters.not_inCommit_of_inOp hp
  have hsize := hi.logsize
  unfold Log.logWrite
  rw [dif_neg (by simp only [LOGSIZE] at *; omega)]
  split
  · simp
  · split <;> simp

end

/-- Two operations are admitted with room to spare and have logged a block each. -/
theorem logWrite_never_too_big_two : ∃ w : World (Fin 2),
    Reaches 2 LOGSIZE (fun w a => Within w a ∧ Spare w a) (fun _ => Bytes.zero) w ∧
    w.pos 0 = .inOp 0 ∧ w.pos 1 = .inOp 1 ∧ w.st.log.lh.block = [60,61] ∧
    w.st.log.logWrite 62 ≠ .error .tooBigTransaction := by
  have hbegin : ∀ {w : World (Fin 2)} {p : Fin 2}, Within w (.beginOp p) := fun _ _ _ he => by cases he
  have hwrite : ∀ {w : World (Fin 2)} {p : Fin 2} {b : ℕ}, Spare w (.logWrite p b) := fun _ he => by cases he
  have h₁ := Reaches.step (A := fun w a => Within w a ∧ Spare w a) (.init (freshWorld_initial (Fin 2)))
    ⟨hbegin,fun _ _ => by decide⟩ (.beginOp (p := 0) rfl rfl)
  have h₂ := Reaches.step h₁ ⟨hbegin,fun _ _ => by decide⟩ (.beginOp (p := 1) rfl rfl)
  have h₃ := Reaches.step h₂ ⟨fun p b op he hp => by cases he; cases hp; decide,hwrite⟩
    (.logWrite (p := 0) (b := 60) Bytes.zero rfl (by simp [InFs,InArea,LOGSIZE]) rfl)
  have h₄ := Reaches.step h₃ ⟨fun p b op he hp => by cases he; cases hp; decide,hwrite⟩
    (.logWrite (p := 1) (b := 61) Bytes.zero rfl (by simp [InFs,InArea,LOGSIZE]) rfl)
  exact ⟨_,h₄,rfl,rfl,rfl,(logWrite_never_too_big h₄).1 0 0 62 rfl (by decide)⟩

section
variable {P : Type} [DecidableEq P] [Fintype P] {start : ℕ} {d : Blocks} {w : World P}

theorem Reaches.logAll {size : ℕ} (bs : List ℕ) {p : P} {op : ℕ}
    (h : Reaches start size Within d w) (hp : w.pos p = .inOp op)
    (hfs : ∀ b ∈ bs, InFs start size b) (hnew : ∀ b ∈ bs, b ∉ w.st.log.lh.block) (hnd : bs.Nodup)
    (hsize : w.st.log.lh.n + bs.length + 1 ≤ size) (hlog : size ≤ LOGSIZE)
    (hcard : (used w.logged op).card + bs.length ≤ MAXOPBLOCKS) :
    ∃ w', Reaches start size Within d w' ∧ w'.pos = w.pos ∧
      w'.st.log.lh.block = w.st.log.lh.block ++ bs ∧
      (used w'.logged op).card ≤ (used w.logged op).card + bs.length ∧
      ∀ op', op' ≠ op → used w'.logged op' = used w.logged op' := by
  induction bs generalizing w with
  | nil => exact ⟨w,h,rfl,by simp,Nat.le_refl _,fun _ _ => rfl⟩
  | cons b bs ih =>
    simp only [List.length_cons] at hsize hcard
    rw [List.nodup_cons] at hnd
    have hb := hnew b List.mem_cons_self
    have hi := h.inv
    have hout := hi.counters.outstanding_pos hp
    have hlogsize := hi.logsize
    obtain ⟨l,hl⟩ : ∃ l, w.st.log.logWrite b = .ok (true,l) := by
      unfold Log.logWrite
      rw [dif_neg (by omega),if_neg (by omega),if_neg hb]
      exact ⟨_,rfl⟩
    obtain ⟨-,-,-,-,-,-,-,hlh⟩ := Log.logWrite_eq_ok hl
    rw [if_neg hb] at hlh
    have hused := used_append w.logged op op b Bytes.zero
    have hle := Finset.card_insert_le b (used w.logged op)
    rw [if_pos rfl] at hused
    have hwithin : Within w (.logWrite p b) := by
      intro p' b' op' he hp'
      cases he
      rw [hp] at hp'
      cases hp'
      omega
    have hstep := Reaches.step h hwithin (.logWrite Bytes.zero hp (hfs b List.mem_cons_self) hl)
    have hn : l.lh.n = w.st.log.lh.n + 1 := by simp [Logheader.n,hlh]
    have hnew' : ∀ c ∈ bs, c ∉ l.lh.block := by
      intro c hc
      rw [hlh,List.mem_append,List.mem_singleton]
      rintro (h | rfl)
      · exact hnew c (List.mem_cons_of_mem b hc) h
      · exact hnd.1 hc
    obtain ⟨w',hw',hpos,hblock,hc,hother⟩ := ih hstep hp
      (fun c hc => hfs c (List.mem_cons_of_mem b hc)) hnew' hnd.2 (by change l.lh.n + _ + 1 ≤ _; omega)
      (by change (used (w.logged ++ _) op).card + _ ≤ _; rw [hused]; omega)
    refine ⟨w',hw',hpos,?_,?_,?_⟩
    · rw [hblock]
      change l.lh.block ++ bs = _
      rw [hlh,List.append_assoc,List.singleton_append]
    · change _ ≤ (used (w.logged ++ _) op).card + _ at hc
      rw [hused] at hc
      simp only [List.length_cons]
      omega
    · intro op' hne
      rw [hother op' hne]
      change used (w.logged ++ _) op' = _
      rw [used_append,if_neg (Ne.symm hne)]

end

/-- Three processes, each inside one operation of at most `MAXOPBLOCKS` blocks, reach
the panic: `begin_op` has admitted all three, and the thirtieth block finds 29 taken. -/
theorem three_operations_too_big : ∃ w : World (Fin 3),
    Reaches 2 LOGSIZE Within (fun _ => Bytes.zero) w ∧
    ∃ p op b, w.pos p = .inOp op ∧ InFs 2 LOGSIZE b ∧
      (insert b (used w.logged op)).card ≤ MAXOPBLOCKS ∧
      w.st.log.logWrite b = .error .tooBigTransaction := by
  have hbegin : ∀ {w : World (Fin 3)} {p : Fin 3}, Within w (.beginOp p) :=
    fun _ _ _ he => nomatch he
  have hfs : ∀ b, 100 ≤ b → b < 200 → InFs 2 LOGSIZE b := by
    intro b h₁ h₂
    simp only [InFs,InArea,LOGSIZE]
    omega
  obtain ⟨w₀,h₀,hpos,hlh,hlogged⟩ : ∃ w : World (Fin 3),
      Reaches 2 LOGSIZE Within (fun _ => Bytes.zero) w ∧
      (w.pos 0 = .inOp 0 ∧ w.pos 1 = .inOp 1 ∧ w.pos 2 = .inOp 2) ∧
      w.st.log.lh.block = [] ∧ w.logged = [] :=
    ⟨_,.step (.step (.step (.init (freshWorld_initial (Fin 3))) hbegin (.beginOp (p := 0) rfl rfl))
      hbegin (.beginOp (p := 1) rfl rfl)) hbegin (.beginOp (p := 2) rfl rfl),⟨rfl,rfl,rfl⟩,rfl,rfl⟩
  have hused : ∀ op, used w₀.logged op = ∅ := fun op => by rw [hlogged]; rfl
  have hbs : ∀ a n, (∀ b ∈ List.range' a n, a ≤ b ∧ b < a + n) := by
    intro a n b hb
    rw [List.mem_range'_1] at hb
    exact hb
  obtain ⟨w₁,h₁,hpos₁,hlh₁,-,hother₁⟩ := h₀.logAll (List.range' 100 10) hpos.1
    (fun b hb => by have := hbs _ _ b hb; exact hfs b (by omega) (by omega)) (by simp [hlh])
    (List.nodup_range' ..) (by simp [Logheader.n,hlh,LOGSIZE]) (Nat.le_refl _) (by simp [hused])
  obtain ⟨w₂,h₂,hpos₂,hlh₂,-,hother₂⟩ := h₁.logAll (List.range' 110 10)
    (show w₁.pos 1 = .inOp 1 by rw [hpos₁]; exact hpos.2.1)
    (fun b hb => by have := hbs _ _ b hb; exact hfs b (by omega) (by omega))
    (fun b hb hm => by
      rw [hlh₁,hlh,List.nil_append] at hm
      have := hbs _ _ b hb
      have := hbs _ _ b hm
      omega)
    (List.nodup_range' ..) (by simp [Logheader.n,hlh₁,hlh,LOGSIZE]) (Nat.le_refl _)
    (by rw [hother₁ 1 (by decide),hused]; simp)
  obtain ⟨w₃,h₃,hpos₃,hlh₃,hcard₃,-⟩ := h₂.logAll (List.range' 120 9)
    (show w₂.pos 2 = .inOp 2 by rw [hpos₂,hpos₁]; exact hpos.2.2)
    (fun b hb => by have := hbs _ _ b hb; exact hfs b (by omega) (by omega))
    (fun b hb hm => by
      rw [hlh₂,hlh₁,hlh,List.nil_append,List.mem_append] at hm
      have := hbs _ _ b hb
      rcases hm with hm | hm
      · have := hbs _ _ b hm
        omega
      · have := hbs _ _ b hm
        omega)
    (List.nodup_range' ..) (by simp [Logheader.n,hlh₂,hlh₁,hlh,LOGSIZE]) (Nat.le_refl _)
    (by rw [hother₂ 2 (by decide),hother₁ 2 (by decide),hused]; simp [MAXOPBLOCKS])
  rw [hother₂ 2 (by decide),hother₁ 2 (by decide),hused] at hcard₃
  refine ⟨w₃,h₃,2,2,129,by rw [hpos₃,hpos₂,hpos₁]; exact hpos.2.2,hfs 129 (by omega) (by omega),?_,?_⟩
  · refine (Finset.card_insert_le _ _).trans ?_
    simpa [MAXOPBLOCKS,Nat.lt_succ_iff] using hcard₃
  · have hn : w₃.st.log.lh.n = 29 := by simp [Logheader.n,hlh₃,hlh₂,hlh₁,hlh]
    have hsize := h₃.inv.logsize
    unfold Log.logWrite
    rw [dif_pos]
    right
    rw [hsize,hn]
    decide

end Xv6.LogProtocol
