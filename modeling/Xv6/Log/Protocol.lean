import Xv6.Log.Crash
import Xv6.Library.Pool

/-! # The group commit protocol

Any number of processes bracket their `log_write`s with `begin_op` and `end_op`. The
sections under `log.lock` are single steps; the process whose `end_op` brings
`outstanding` to zero then runs the text of `commit` one operation at a time, without
the lock, while the others go on. A recorded history says which operation logged
what, and which logged writes each header written to the disk stands for.
-/
namespace Xv6.LogProtocol
open Library LogCrash Pool
open Function (update update_of_ne update_self)

inductive Pos
  | idle
  /-- between `begin_op` and `end_op`, as operation number `op` -/
  | inOp (op : ℕ)
  /-- in `commit`, with what is left of it -/
  | inCommit (k : Code ℕ Unit)

structure Write where
  op : ℕ
  block : ℕ
  data : Block

structure Commit where
  header : List ℕ
  writes : List Write

structure World (P : Type) where
  st : St
  pos : P → Pos
  begun : ℕ
  logged : List Write
  /-- the logged writes no header stands for yet -/
  pending : List Write
  commits : List Commit
  /-- the blocks the running `commit` has written -/
  written : List ℕ

inductive Act (P : Type)
  | beginOp (p : P)
  | logWrite (p : P) (b : ℕ)
  | endOp (p : P)
  | commit (p : P)

namespace World
variable {P : Type}

def committed (w : World P) : List Write := w.commits.flatMap Commit.writes

/-- The operation has begun, and its `end_op` has run its first section. -/
def Ended (w : World P) (op : ℕ) : Prop := op < w.begun ∧ ∀ p, w.pos p ≠ .inOp op

def InCommit (w : World P) (p : P) : Prop := ∃ k, w.pos p = .inCommit k

end World

def replay (d : Blocks) (ws : List Write) : Blocks :=
  ws.foldl (fun d x => update d x.block x.data) d

theorem replay_append (d : Blocks) (xs ys : List Write) :
    replay d (xs ++ ys) = replay (replay d xs) ys := List.foldl_append

theorem replay_of_notMem {d : Blocks} {ws : List Write} {b : ℕ} (h : ∀ x ∈ ws, x.block ≠ b) :
    replay d ws b = d b := by
  induction ws generalizing d with
  | nil => rfl
  | cons x ws ih =>
    have hne : b ≠ x.block := (h x List.mem_cons_self).symm
    calc replay (update d x.block x.data) ws b
        = update d x.block x.data b := ih fun y hy => h y (List.mem_cons_of_mem x hy)
      _ = d b := update_of_ne hne _ _

section Machine
variable {P : Type} [DecidableEq P]
variable (start size : ℕ)

def InFs (b : ℕ) : Prop := ¬InArea start size b ∧ b < 2 ^ 32

/-- The steps of the processes. A write by the running `commit` to the header block
makes the header stand for all pending writes. -/
inductive Step : World P → Act P → World P → Prop
  | beginOp {w : World P} {p : P} {l : Log} : w.pos p = .idle → w.st.log.beginOp = some l →
      Step w (.beginOp p) { w with
        st := { w.st with log := l }
        pos := update w.pos p (.inOp w.begun)
        begun := w.begun + 1 }
  | logWrite {w : World P} {p : P} {op b : ℕ} {r : Bool} {l : Log} (d : Block) :
      w.pos p = .inOp op → InFs start size b → w.st.log.logWrite b = .ok (r,l) →
      Step w (.logWrite p b) { w with
        st := { w.st.setBlk b d with log := l }
        logged := w.logged ++ [⟨op,b,d⟩]
        pending := w.pending ++ [⟨op,b,d⟩] }
  | endOp {w : World P} {p : P} {op : ℕ} {r : Bool} {l : Log} :
      w.pos p = .inOp op → w.st.log.endOp = .ok (r,l) →
      Step w (.endOp p) { w with
        st := { w.st with log := l }
        pos := update w.pos p (if r then .inCommit commit else .idle)
        written := [] }
  -- `commit` does not depend on the process that runs it
  | commit {w : World P} {p : P} {o : Op ℕ} {k : o.Res → Code ℕ Unit} {r : o.Res} {t : Traced} :
      w.pos p = .inCommit (.op o k) → o ≠ .bwrite w.st.log.start →
      traced 0 o (w.st,w.written) = .ok (r,t) →
      Step w (.commit p) { w with
        st := t.1
        pos := update w.pos p (.inCommit (k r))
        written := t.2 }
  | writeHead {w : World P} {p : P} {k : Unit → Code ℕ Unit} :
      w.pos p = .inCommit (.op (.bwrite w.st.log.start) k) →
      Step w (.commit p) { w with
        st := w.st.setDisk w.st.log.start (w.st.blk w.st.log.start)
        pos := update w.pos p (.inCommit (k ()))
        written := w.written ++ [w.st.log.start]
        pending := []
        commits := w.commits ++ [⟨w.st.log.lh.block,w.pending⟩] }
  | commitDone {w : World P} {p : P} : w.pos p = .inCommit (.ret ()) →
      Step w (.commit p) { w with
        st := { w.st with log := w.st.log.commitDone }
        pos := update w.pos p .idle }

/-- The state `initlog` leaves: nothing outstanding, a clear header, a coherent cache. -/
structure Initial (d : Blocks) (w : World P) : Prop where
  room : 1 ≤ size
  log : w.st.log = ⟨start,size,0,false,Logheader.empty⟩
  disk : w.st.disk = d
  clear : Logheader.count (d start) = 0
  cache : ∀ b, InFs start size b → w.st.blk b = d b
  idle : ∀ p, w.pos p = .idle
  logged : w.logged = []
  pending : w.pending = []
  commits : w.commits = []

/-- The worlds reached from an initial one by steps that all satisfy `A`. -/
inductive Reaches (A : World P → Act P → Prop) (d : Blocks) : World P → Prop
  | init {w : World P} : Initial start size d w → Reaches A d w
  | step {w w' : World P} {a : Act P} : Reaches A d w → A w a → Step start size w a w' →
      Reaches A d w'

end Machine

/-! ## The invariant -/

section Invariant
variable {P : Type} [DecidableEq P] [Fintype P]

def Pos.busy : Pos → ℕ
  | inOp _ => 1
  | _ => 0

structure Counters (w : World P) : Prop where
  outstanding : w.st.log.outstanding = total Pos.busy w.pos
  committing : w.st.log.committing = true ↔ ∃ p, w.InCommit p
  unique : ∀ p q, w.InCommit p → w.InCommit q → p = q
  alone : ∀ p, w.InCommit p → total Pos.busy w.pos = 0

/-- The history: operations are numbered in the order they begin, and those a header
stands for have ended. -/
structure History (w : World P) : Prop where
  begun : ∀ p op, w.pos p = .inOp op → op < w.begun
  logged : w.logged = w.committed ++ w.pending
  ops : ∀ x ∈ w.logged, x.op < w.begun
  ended : ∀ x ∈ w.committed, w.Ended x.op
  whole : ∀ x ∈ w.committed, ∀ y ∈ w.pending, x.op ≠ y.op
  header : ∀ c ∈ w.commits, ∀ x ∈ c.writes, x.block ∈ c.header

/-- No `commit` is running: the disk holds what the written headers stand for, the
cache the pending writes as well. -/
structure Quiet (start size : ℕ) (d : Blocks) (w : World P) : Prop where
  fits : Fits start size w.st.log.lh
  clear : Logheader.count (w.st.disk start) = 0
  cache : ∀ b, InFs start size b → w.st.blk b = replay d w.logged b
  disk : ∀ b, InFs start size b → w.st.disk b = replay d w.committed b
  pending : ∀ x ∈ w.pending, x.block ∈ w.st.log.lh.block

/-- A `commit` begun in state `s` is running and `k` is left of it. -/
structure Running (start size : ℕ) (d : Blocks) (w : World P) (s : St) (k : Code ℕ Unit) : Prop where
  logstart : s.log.start = start
  logsize : s.log.size = size
  fits : Fits start size s.log.lh
  rest : k.cwp (traced 0) (fun _ => False)
    (fun t => LogCrash.Keeps s t.1 ∧ (start ∉ t.2 → t.1.log.lh = s.log.lh) ∧
      (t.1.log.lh = s.log.lh ∨ t.1.log.lh = Logheader.empty) ∧
      AtCrash start size s.log.lh s.disk s.blk t.2 t.1.disk)
    (fun _ t => LogCrash.Keeps s t.1 ∧ t.1.log.lh = Logheader.empty ∧ Logheader.count (t.1.disk start) = 0 ∧
      Installed start size s.log.lh s.disk s.blk t.1.disk ∧ (0 < s.log.lh.n → start ∈ t.2))
    (w.st,w.written)
  cache : ∀ b, InFs start size b → s.blk b = replay d w.logged b
  clean : ∀ b, InFs start size b → b ∉ s.log.lh.block → s.disk b = s.blk b
  before : start ∉ w.written → (∀ b, InFs start size b → s.disk b = replay d w.committed b) ∧
    ∀ x ∈ w.pending, x.block ∈ s.log.lh.block
  after : start ∈ w.written → w.pending = []

structure Inv (start size : ℕ) (d : Blocks) (w : World P) : Prop where
  logstart : w.st.log.start = start
  logsize : w.st.log.size = size
  counters : Counters w
  history : History w
  quiet : (∀ p, ¬w.InCommit p) → Quiet start size d w
  running : ∀ p k, w.pos p = .inCommit k → ∃ s, Running start size d w s k

variable {start size : ℕ} {d : Blocks} {w : World P} {p q : P}

omit [DecidableEq P] in
theorem Counters.not_inCommit_of_inOp (hc : Counters w) {op : ℕ} (hp : w.pos p = .inOp op) :
    ¬w.InCommit q := by
  intro hq
  have h := total_eq_zero.mp (hc.alone q hq) p
  simp [hp,Pos.busy] at h

omit [DecidableEq P] in
theorem Counters.committing_of_inOp (hc : Counters w) {op : ℕ} (hp : w.pos p = .inOp op) :
    w.st.log.committing = false := by
  rw [Bool.eq_false_iff,ne_eq,hc.committing]
  rintro ⟨q,hq⟩
  exact hc.not_inCommit_of_inOp hp hq

omit [DecidableEq P] in
theorem Counters.outstanding_pos (hc : Counters w) {op : ℕ} (hp : w.pos p = .inOp op) :
    1 ≤ w.st.log.outstanding := by
  have h := le_total Pos.busy w.pos p
  rw [hp,Pos.busy] at h
  rw [hc.outstanding]
  exact_mod_cast h

omit [Fintype P] in
theorem inCommit_update {x : Pos} (hp : ¬w.InCommit p) (hx : ∀ k, x ≠ .inCommit k) (q : P) :
    (∃ k, update w.pos p x q = .inCommit k) ↔ w.InCommit q := by
  by_cases hq : q = p
  · subst hq
    simp only [update_self]
    exact ⟨fun ⟨k,hk⟩ => absurd hk (hx k),fun h => absurd h hp⟩
  · rw [update_of_ne hq]
    rfl

omit [Fintype P] in
theorem inOp_update {x : Pos} (hx : ∀ op, x ≠ .inOp op) {op : ℕ}
    (h : update w.pos p x q = .inOp op) : w.pos q = .inOp op := by
  by_cases hq : q = p
  · subst hq
    rw [update_self] at h
    exact absurd h (hx op)
  · rwa [update_of_ne hq] at h

variable {w' : World P}

/-! ### One step -/

theorem Inv.beginOp (hi : Inv start size d w) (hp : w.pos p = .idle) {l : Log}
    (hl : w.st.log.beginOp = some l) :
    Inv start size d { w with
      st := { w.st with log := l }
      pos := update w.pos p (.inOp w.begun)
      begun := w.begun + 1 } := by
  obtain ⟨hcom,-,rfl⟩ := Log.beginOp_eq_some hl
  have hnone : ∀ q, ¬w.InCommit q := by
    intro q hq
    have h := hi.counters.committing.mpr ⟨q,hq⟩
    simp [hcom] at h
  have hback := inCommit_update (w := w) (x := .inOp w.begun) (hnone p) (by simp)
  have htotal := total_update Pos.busy w.pos p (.inOp w.begun)
  simp only [hp,Pos.busy] at htotal
  refine ⟨hi.logstart,hi.logsize,⟨?_,?_,?_,?_⟩,⟨?_,hi.history.logged,?_,?_,hi.history.whole,hi.history.header⟩,?_,?_⟩
  · change w.st.log.outstanding + 1 = _
    rw [hi.counters.outstanding]
    exact_mod_cast htotal.symm
  · refine ⟨fun h => absurd h (by simp [hcom]),?_⟩
    rintro ⟨q,hq⟩
    exact absurd ((hback q).mp hq) (hnone q)
  · exact fun q _ hq => absurd ((hback q).mp hq) (hnone q)
  · exact fun q hq => absurd ((hback q).mp hq) (hnone q)
  · intro q op hq
    change update w.pos p (.inOp w.begun) q = .inOp op at hq
    change op < w.begun + 1
    by_cases he : q = p
    · subst he
      rw [update_self] at hq
      cases hq
      omega
    · rw [update_of_ne he] at hq
      have := hi.history.begun q op hq
      omega
  · exact fun x hx => Nat.lt_succ_of_lt (hi.history.ops x hx)
  · intro x hx
    obtain ⟨hlt,hend⟩ := hi.history.ended x hx
    refine ⟨Nat.lt_succ_of_lt hlt,?_⟩
    intro q
    change update w.pos p (.inOp w.begun) q ≠ .inOp x.op
    by_cases he : q = p
    · subst he
      rw [update_self]
      intro h
      have := Pos.inOp.inj h
      omega
    · rw [update_of_ne he]
      exact hend q
  · intro _
    obtain ⟨hfits,hclear,hcache,hdisk,hpend⟩ := hi.quiet hnone
    exact ⟨hfits,hclear,hcache,hdisk,hpend⟩
  · exact fun q k hq => absurd ((hback q).mp ⟨k,hq⟩) (hnone q)

omit [DecidableEq P] in
theorem Inv.logWrite (hi : Inv start size d w) {op b : ℕ} {v : Block} {r : Bool} {l : Log}
    (hp : w.pos p = .inOp op) (hb : InFs start size b) (hl : w.st.log.logWrite b = .ok (r,l)) :
    Inv start size d { w with
      st := { w.st.setBlk b v with log := l }
      logged := w.logged ++ [⟨op,b,v⟩]
      pending := w.pending ++ [⟨op,b,v⟩] } := by
  obtain ⟨-,hroom,-,hstart,hsize,hout,hcom,hlh⟩ := Log.logWrite_eq_ok hl
  have hnone : ∀ q, ¬w.InCommit q := fun q => hi.counters.not_inCommit_of_inOp hp
  obtain ⟨hfits,hclear,hcache,hdisk,hpend⟩ := hi.quiet hnone
  have hmem : ∀ c, c ∈ l.lh.block ↔ c = b ∨ c ∈ w.st.log.lh.block := by
    intro c
    rw [hlh]
    split
    · rename_i h
      exact ⟨.inr,fun hc => hc.elim (fun h' => h' ▸ h) id⟩
    · simp [or_comm]
  refine ⟨hstart.trans hi.logstart,hsize.trans hi.logsize,⟨?_,?_,hi.counters.unique,hi.counters.alone⟩,
    ⟨hi.history.begun,?_,?_,hi.history.ended,?_,hi.history.header⟩,fun _ => ⟨⟨?_,?_,?_,?_⟩,hclear,?_,hdisk,?_⟩,?_⟩
  · exact hout.trans hi.counters.outstanding
  · exact (by rw [hcom] : (l.committing = true ↔ w.st.log.committing = true)).trans hi.counters.committing
  · change w.logged ++ _ = w.committed ++ (w.pending ++ _)
    rw [hi.history.logged,List.append_assoc]
  · intro x hx
    rcases List.mem_append.mp hx with hx | hx
    · exact hi.history.ops x hx
    · rw [List.mem_singleton] at hx
      subst hx
      exact hi.history.begun p op hp
  · intro x hx y hy
    rcases List.mem_append.mp hy with hy | hy
    · exact hi.history.whole x hx y hy
    · rw [List.mem_singleton] at hy
      subst hy
      rintro rfl
      exact (hi.history.ended x hx).2 p hp
  · have : l.lh.n ≤ w.st.log.lh.n + 1 := by
      rw [Logheader.n,hlh]
      split
      · exact Nat.le_succ _
      · simp [Logheader.n]
    change l.lh.n + 1 ≤ size
    rw [← hi.logsize]
    omega
  · change l.lh.block.Nodup
    rw [hlh]
    split
    · exact hfits.nodup
    · rename_i h
      exact List.nodup_append.mpr ⟨hfits.nodup,List.nodup_singleton b,by simpa using fun c hc => ne_of_mem_of_not_mem hc h⟩
  · intro c hc
    rcases (hmem c).mp hc with rfl | hc
    · exact hb.1
    · exact hfits.outside c hc
  · intro c hc
    rcases (hmem c).mp hc with rfl | hc
    · exact hb.2
    · exact hfits.uint c hc
  · intro c hc
    change update w.st.blk b v c = replay d (w.logged ++ [⟨op,b,v⟩]) c
    rw [replay_append]
    change _ = update (replay d w.logged) b v c
    by_cases he : c = b
    · subst he
      rw [update_self,update_self]
    · rw [update_of_ne he,update_of_ne he]
      exact hcache c hc
  · intro x hx
    apply (hmem x.block).mpr
    rcases List.mem_append.mp hx with hx | hx
    · exact .inr (hpend x hx)
    · rw [List.mem_singleton] at hx
      subst hx
      exact .inl rfl
  · exact fun q k hq => absurd ⟨k,hq⟩ (hnone q)

omit [DecidableEq P] in
theorem Inv.clean (hi : Inv start size d w) (hq : Quiet start size d w) {b : ℕ}
    (hb : InFs start size b) (hn : b ∉ w.st.log.lh.block) : w.st.disk b = w.st.blk b := by
  rw [hq.disk b hb,hq.cache b hb,hi.history.logged,replay_append]
  refine (replay_of_notMem fun x hx he => ?_).symm
  exact hn (he ▸ hq.pending x hx)

theorem Inv.ended_update (hi : Inv start size d w) {x : Pos} (hx : ∀ op, x ≠ .inOp op) {y : Write}
    (hy : y ∈ w.committed) : y.op < w.begun ∧ ∀ q, update w.pos p x q ≠ .inOp y.op :=
  ⟨(hi.history.ended y hy).1,fun q hq => (hi.history.ended y hy).2 q (inOp_update hx hq)⟩

theorem Inv.endOp (hi : Inv start size d w) {op : ℕ} {r : Bool} {l : Log}
    (hp : w.pos p = .inOp op) (hl : w.st.log.endOp = .ok (r,l)) :
    Inv start size d { w with
      st := { w.st with log := l }
      pos := update w.pos p (if r then .inCommit commit else .idle)
      written := [] } := by
  obtain ⟨hcom,hr,rfl⟩ := Log.endOp_eq_ok hl
  have hnone : ∀ q, ¬w.InCommit q := fun q => hi.counters.not_inCommit_of_inOp hp
  have hq := hi.quiet hnone
  obtain ⟨hfits,hclear,hcache,hdisk,hpend⟩ := hq
  have hx : ∀ op, (if r then Pos.inCommit commit else .idle) ≠ .inOp op := by cases r <;> simp
  have htotal := total_update Pos.busy w.pos p (if r then .inCommit commit else .idle)
  have hbusy : (if r then Pos.inCommit commit else .idle).busy = 0 := by cases r <;> rfl
  rw [hp,hbusy,Pos.busy] at htotal
  have hout := hi.counters.outstanding
  have hcount : w.st.log.outstanding - 1 =
      (total Pos.busy (update w.pos p (if r then .inCommit commit else .idle)) : ℕ) := by omega
  have hhist : History { w with
      st := { w.st with log := { w.st.log with outstanding := w.st.log.outstanding - 1, committing := r } }
      pos := update w.pos p (if r then .inCommit commit else .idle)
      written := [] } :=
    ⟨fun q op hq => hi.history.begun q op (inOp_update hx hq),hi.history.logged,hi.history.ops,
      fun y hy => hi.ended_update hx hy,hi.history.whole,hi.history.header⟩
  cases r with
  | false =>
    have hback := inCommit_update (w := w) (x := .idle) (hnone p) (by simp)
    refine ⟨hi.logstart,hi.logsize,⟨hcount,?_,?_,?_⟩,hhist,fun _ => ⟨hfits,hclear,hcache,hdisk,hpend⟩,?_⟩
    · refine ⟨fun h => absurd h (by simp),?_⟩
      rintro ⟨q,hq⟩
      exact absurd ((hback q).mp hq) (hnone q)
    · exact fun q _ hq => absurd ((hback q).mp hq) (hnone q)
    · exact fun q hq => absurd ((hback q).mp hq) (hnone q)
    · exact fun q k hq => absurd ((hback q).mp ⟨k,hq⟩) (hnone q)
  | true =>
    -- the last operation has ended: `p` alone is in `commit`
    have hone : w.st.log.outstanding = 1 := hr.mp rfl
    have honly : ∀ q k, update w.pos p (.inCommit commit) q = .inCommit k →
        q = p ∧ k = commit := by
      intro q k hq
      by_cases he : q = p
      · subst he
        rw [update_self] at hq
        exact ⟨rfl,(Pos.inCommit.inj hq).symm⟩
      · rw [update_of_ne he] at hq
        exact absurd ⟨k,hq⟩ (hnone q)
    refine ⟨hi.logstart,hi.logsize,⟨hcount,?_,?_,?_⟩,hhist,?_,?_⟩
    · exact ⟨fun _ => ⟨p,commit,update_self ..⟩,fun _ => rfl⟩
    · rintro q q' ⟨k,hk⟩ ⟨k',hk'⟩
      exact (honly q k hk).1.trans (honly q' k' hk').1.symm
    · intro _ _
      change total Pos.busy (update w.pos p (.inCommit commit)) = 0
      simp only [if_true] at hcount
      omega
    · exact fun h => absurd ⟨commit,update_self ..⟩ (h p)
    · intro q k hq
      obtain ⟨-,rfl⟩ := honly q k hq
      obtain rfl := hi.logstart
      obtain rfl := hi.logsize
      exact ⟨{ w.st with log := { w.st.log with outstanding := w.st.log.outstanding - 1, committing := true } },
        rfl,rfl,hfits,commit_cwp hfits hclear,hcache,
        fun b hb hn => hi.clean ⟨hfits,hclear,hcache,hdisk,hpend⟩ hb hn,fun _ => ⟨hdisk,hpend⟩,
        fun h => absurd h (by simp)⟩

omit [Fintype P] [DecidableEq P] in
theorem traced_snd {o : Op ℕ} {s : Traced} {r : o.Res} {t : Traced} (h : traced 0 o s = .ok (r,t)) :
    t.2 = s.2 ∨ ∃ b, o = .bwrite b ∧ t.2 = s.2 ++ [b] := by
  unfold traced at h
  split at h
  · cases h
    cases o with
    | bwrite b => exact .inr ⟨b,rfl,rfl⟩
    | _ => exact .inl rfl
  · cases h

theorem Counters.move (hc : Counters w) {k k' : Code ℕ Unit} (hp : w.pos p = .inCommit k)
    (hpos : w'.pos = update w.pos p (.inCommit k'))
    (hout : w'.st.log.outstanding = w.st.log.outstanding)
    (hcom : w'.st.log.committing = w.st.log.committing) : Counters w' := by
  have hsame : ∀ q, w'.InCommit q ↔ w.InCommit q := by
    intro q
    unfold World.InCommit
    rw [hpos]
    by_cases he : q = p
    · subst he
      exact ⟨fun _ => ⟨k,hp⟩,fun _ => ⟨k',update_self ..⟩⟩
    · rw [update_of_ne he]
  have htotal := total_update Pos.busy w.pos p (.inCommit k')
  simp only [hp,Pos.busy,Nat.add_zero] at htotal
  refine ⟨?_,?_,?_,?_⟩
  · rw [hout,hpos,htotal]
    exact hc.outstanding
  · simp only [hcom,hc.committing,hsame]
  · exact fun q q' hq hq' => hc.unique q q' ((hsame q).mp hq) ((hsame q').mp hq')
  · intro q hq
    rw [hpos,htotal]
    exact hc.alone q ((hsame q).mp hq)

theorem Inv.inCommit_update_eq (hi : Inv start size d w) {k k' k'' : Code ℕ Unit}
    (hp : w.pos p = .inCommit k) (hq : update w.pos p (.inCommit k') q = .inCommit k'') :
    k'' = k' := by
  by_cases he : q = p
  · subst he
    rw [update_self] at hq
    exact (Pos.inCommit.inj hq).symm
  · rw [update_of_ne he] at hq
    exact absurd (hi.counters.unique q p ⟨_,hq⟩ ⟨_,hp⟩) he

theorem Inv.commit (hi : Inv start size d w) {o : Op ℕ} {k : o.Res → Code ℕ Unit} {r : o.Res}
    {t : Traced} (hp : w.pos p = .inCommit (.op o k)) (ho : o ≠ .bwrite w.st.log.start)
    (ht : traced 0 o (w.st,w.written) = .ok (r,t)) :
    Inv start size d { w with
      st := t.1
      pos := update w.pos p (.inCommit (k r))
      written := t.2 } := by
  obtain ⟨s,hs⟩ := hi.running p _ hp
  have hkeep := hs.rest.here.1
  have hrest := ((Prog.cwp_op_ok ht).mp hs.rest).2
  have hkeep' := hrest.here.1
  have hwritten : start ∈ t.2 ↔ start ∈ w.written := by
    rcases traced_snd ht with h | ⟨b,rfl,h⟩
    · rw [h]
    · rw [h,List.mem_append,List.mem_singleton]
      refine ⟨fun hm => hm.resolve_right ?_,.inl⟩
      rintro rfl
      exact ho (by rw [hi.logstart])
  refine ⟨?_,?_,?_,?_,?_,?_⟩
  · exact (hkeep'.start.trans hkeep.start.symm).trans hi.logstart
  · exact (hkeep'.size.trans hkeep.size.symm).trans hi.logsize
  · exact hi.counters.move hp rfl (hkeep'.outstanding.trans hkeep.outstanding.symm)
      (hkeep'.committing.trans hkeep.committing.symm)
  · exact ⟨fun q op hq => hi.history.begun q op (inOp_update (by simp) hq),hi.history.logged,
      hi.history.ops,fun y hy => hi.ended_update (by simp) hy,hi.history.whole,hi.history.header⟩
  · exact fun h => absurd ⟨k r,update_self ..⟩ (h p)
  · intro q k' hq
    obtain rfl := hi.inCommit_update_eq hp hq
    exact ⟨s,hs.logstart,hs.logsize,hs.fits,hrest,hs.cache,hs.clean,
      fun h => hs.before (fun h' => h (hwritten.mpr h')),fun h => hs.after (hwritten.mp h)⟩

theorem Inv.writeHead (hi : Inv start size d w) {k : Unit → Code ℕ Unit}
    (hp : w.pos p = .inCommit (.op (.bwrite w.st.log.start) k)) :
    Inv start size d { w with
      st := w.st.setDisk w.st.log.start (w.st.blk w.st.log.start)
      pos := update w.pos p (.inCommit (k ()))
      written := w.written ++ [w.st.log.start]
      pending := []
      commits := w.commits ++ [⟨w.st.log.lh.block,w.pending⟩] } := by
  obtain ⟨s,hs⟩ := hi.running p _ hp
  have hrest := ((Prog.cwp_op_ok (h := traced 0) (o := .bwrite w.st.log.start) rfl).mp hs.rest).2
  have hcommitted : (w.commits ++ [Commit.mk w.st.log.lh.block w.pending]).flatMap Commit.writes =
      w.logged := by
    rw [hi.history.logged]
    simp [World.committed]
  have hnone : ∀ q op, w.pos q ≠ .inOp op := by
    intro q op hq
    exact hi.counters.not_inCommit_of_inOp hq ⟨_,hp⟩
  have hheader : ∀ x ∈ w.pending, x.block ∈ w.st.log.lh.block := by
    intro x hx
    by_cases hw : start ∈ w.written
    · simp [hs.after hw] at hx
    · rw [hs.rest.here.2.1 hw]
      exact (hs.before hw).2 x hx
  refine ⟨hi.logstart,hi.logsize,hi.counters.move hp rfl rfl rfl,⟨?_,?_,hi.history.ops,?_,?_,?_⟩,?_,?_⟩
  · exact fun q op hq => hi.history.begun q op (inOp_update (by simp) hq)
  · change w.logged = (w.commits ++ _).flatMap Commit.writes ++ []
    rw [hcommitted,List.append_nil]
  · intro x hx
    change x ∈ (w.commits ++ _).flatMap Commit.writes at hx
    rw [hcommitted] at hx
    exact ⟨hi.history.ops x hx,fun q hq => hnone q _ (inOp_update (by simp) hq)⟩
  · exact fun _ _ y hy => absurd hy List.not_mem_nil
  · intro c hc
    rcases List.mem_append.mp hc with hc | hc
    · exact hi.history.header c hc
    · rw [List.mem_singleton] at hc
      subst hc
      exact hheader
  · exact fun h => absurd ⟨k (),update_self ..⟩ (h p)
  · intro q k' hq
    obtain rfl := hi.inCommit_update_eq hp hq
    refine ⟨s,hs.logstart,hs.logsize,hs.fits,hrest,hs.cache,hs.clean,fun h => absurd ?_ h,fun _ => rfl⟩
    rw [hi.logstart]
    exact List.mem_append_right _ (List.mem_singleton_self _)

theorem Inv.commitDone (hi : Inv start size d w) (hp : w.pos p = .inCommit (.ret ())) :
    Inv start size d { w with
      st := { w.st with log := w.st.log.commitDone }
      pos := update w.pos p .idle } := by
  obtain ⟨s,hs⟩ := hi.running p _ hp
  obtain ⟨-,hkeep,hlh,hclear,hinst,hreached⟩ := hs.rest
  have hpend : w.pending = [] := by
    by_cases hw : start ∈ w.written
    · exact hs.after hw
    · have hn : ¬0 < s.log.lh.n := fun h => hw (hreached h)
      have hnil : s.log.lh.block = [] := List.eq_nil_of_length_eq_zero (Nat.eq_zero_of_not_pos hn)
      exact List.eq_nil_iff_forall_not_mem.mpr fun x hx => by
        have := (hs.before hw).2 x hx
        simp [hnil] at this
  have hlogged : w.committed = w.logged := by rw [hi.history.logged,hpend,List.append_nil]
  have hnone : ∀ q, ¬∃ k, update w.pos p .idle q = .inCommit k := by
    rintro q ⟨k,hk⟩
    by_cases he : q = p
    · subst he
      rw [update_self] at hk
      cases hk
    · rw [update_of_ne he] at hk
      exact he (hi.counters.unique q p ⟨k,hk⟩ ⟨_,hp⟩)
  have htotal := total_update Pos.busy w.pos p .idle
  simp only [hp,Pos.busy,Nat.add_zero] at htotal
  refine ⟨hi.logstart,hi.logsize,⟨?_,?_,?_,?_⟩,?_,fun _ => ⟨?_,hclear,?_,?_,?_⟩,?_⟩
  · change w.st.log.outstanding = _
    rw [hi.counters.outstanding,htotal]
  · exact ⟨fun h => absurd h (by simp [Log.commitDone]),fun ⟨q,hq⟩ => absurd hq (hnone q)⟩
  · exact fun q _ hq => absurd hq (hnone q)
  · exact fun q hq => absurd hq (hnone q)
  · exact ⟨fun q op hq => hi.history.begun q op (inOp_update (by simp) hq),hi.history.logged,
      hi.history.ops,fun y hy => hi.ended_update (by simp) hy,hi.history.whole,hi.history.header⟩
  · change Fits start size w.st.log.lh
    rw [show w.st.log.lh = Logheader.empty from hlh]
    exact hs.fits.empty
  · intro b hb
    rw [← hs.cache b hb]
    exact hkeep.blk b (by rw [hs.logstart,hs.logsize]; exact hb.1)
  · intro b hb
    change w.st.disk b = replay d w.committed b
    rw [hlogged,← hs.cache b hb]
    by_cases hm : b ∈ s.log.lh.block
    · exact hinst.fresh b hm
    · rw [← hs.clean b hb hm]
      exact hinst.rest b hm hb.1
  · intro x hx
    change x ∈ w.pending at hx
    simp [hpend] at hx
  · exact fun q k hq => absurd ⟨k,hq⟩ (hnone q)

theorem Step.inv {a : Act P} (h : Step start size w a w') (hi : Inv start size d w) :
    Inv start size d w' := by
  cases h with
  | beginOp hp hl => exact hi.beginOp hp hl
  | logWrite v hp hb hl => exact hi.logWrite hp hb hl
  | endOp hp hl => exact hi.endOp hp hl
  | commit hp ho ht => exact hi.commit hp ho ht
  | writeHead hp => exact hi.writeHead hp
  | commitDone hp => exact hi.commitDone hp

omit [DecidableEq P] in
theorem Initial.inv (h : Initial start size d w) : Inv start size d w := by
  have hnone : ∀ p, ¬w.InCommit p := by
    rintro p ⟨k,hk⟩
    rw [h.idle p] at hk
    cases hk
  have hbusy : ∀ p op, w.pos p ≠ .inOp op := by
    intro p op hp
    rw [h.idle p] at hp
    cases hp
  have hcommitted : w.committed = [] := by simp [World.committed,h.commits]
  refine ⟨by rw [h.log],by rw [h.log],⟨?_,?_,?_,?_⟩,⟨?_,?_,?_,?_,?_,?_⟩,fun _ => ⟨?_,?_,?_,?_,?_⟩,?_⟩
  · rw [h.log,total_eq_zero.mpr fun p => by rw [h.idle p]; rfl]
    rfl
  · rw [h.log]
    exact ⟨fun h => absurd h (by simp),fun ⟨p,hp⟩ => absurd hp (hnone p)⟩
  · exact fun p _ hp => absurd hp (hnone p)
  · exact fun p hp => absurd hp (hnone p)
  · exact fun p op hp => absurd hp (hbusy p op)
  · rw [h.logged,hcommitted,h.pending]
    rfl
  · simp [h.logged]
  · simp [hcommitted]
  · simp [hcommitted]
  · simp [h.commits]
  · rw [h.log]
    exact ⟨h.room,List.nodup_nil,by simp,by simp⟩
  · rw [h.disk]
    exact h.clear
  · intro b hb
    rw [h.logged]
    exact h.cache b hb
  · intro b _
    rw [hcommitted,h.disk]
    rfl
  · simp [h.pending]
  · exact fun p k hp => absurd ⟨k,hp⟩ (hnone p)

omit [DecidableEq P] in
theorem Inv.recovers (hi : Inv start size d w) {e : Blocks} (h : Recovers start size w.st.disk e)
    {b : ℕ} (hb : InFs start size b) : e b = replay d w.committed b := by
  by_cases hc : ∃ p, w.InCommit p
  · obtain ⟨p,k,hp⟩ := hc
    obtain ⟨s,hs⟩ := hi.running p k hp
    obtain ⟨hinst,-⟩ := h.atCrash hs.fits hs.rest.here.2.2.2
    by_cases hw : start ∈ w.written
    · have hall : w.committed = w.logged := by rw [hi.history.logged,hs.after hw,List.append_nil]
      rw [hall,← hs.cache b hb]
      by_cases hm : b ∈ s.log.lh.block
      · simpa only [if_pos hw] using hinst.fresh b hm
      · rw [← hs.clean b hb hm]
        exact hinst.rest b hm hb.1
    · rw [← (hs.before hw).1 b hb]
      by_cases hm : b ∈ s.log.lh.block
      · simpa only [if_neg hw] using hinst.fresh b hm
      · exact hinst.rest b hm hb.1
  · have hq := hi.quiet fun p hp => hc ⟨p,hp⟩
    have hd : AtCrash start size w.st.log.lh w.st.disk w.st.disk [] w.st.disk := by
      rw [AtCrash,if_neg (by simp)]
      exact ⟨Logheader.ofBlock_of_count_zero hq.clear,fun _ _ => rfl⟩
    obtain ⟨hinst,-⟩ := h.atCrash hq.fits hd
    rw [← hq.disk b hb]
    by_cases hm : b ∈ w.st.log.lh.block
    · simpa using hinst.fresh b hm
    · exact hinst.rest b hm hb.1

theorem Reaches.inv {A : World P → Act P → Prop} (h : Reaches start size A d w) :
    Inv start size d w := by
  induction h with
  | init h => exact h.inv
  | step _ _ h ih => exact h.inv ih

/-- Group commit contains only whole operations, in every interleaving. While a process
is in `commit` no operation is in progress, no other process is in `commit` and no step
but its own changes the log; bracketed callers meet neither panic; what an ended
operation has logged is in the header in memory or in one on the disk; and a crash at
any point leaves the writes of a set of operations, each of them complete. -/
theorem commit_whole_operations (h : Reaches start size (fun _ _ => True) d w) :
    (∀ p, w.InCommit p → (∀ q op, w.pos q ≠ .inOp op) ∧ ∀ q, w.InCommit q → q = p) ∧
    ((∃ p, w.InCommit p) ↔ w.st.log.committing = true) ∧
    (w.st.log.committing = true → ∀ a w', Step start size w a w' → ∃ p, a = .commit p ∧ w.InCommit p) ∧
    (∀ p op, w.pos p = .inOp op → w.st.log.endOp ≠ .error .logCommitting ∧
      ∀ b, w.st.log.logWrite b ≠ .error .logWriteOutsideTrans) ∧
    (∀ x ∈ w.logged, w.Ended x.op → x.block ∈ w.st.log.lh.block ∨
      ∃ c ∈ w.commits, x ∈ c.writes ∧ x.block ∈ c.header) ∧
    (∀ e, Recovers start size w.st.disk e → ∀ b, InFs start size b → e b = replay d w.committed b) ∧
    ∀ x ∈ w.committed, w.Ended x.op ∧ ∀ y ∈ w.logged, y.op = x.op → y ∈ w.committed := by
  have hi := h.inv
  refine ⟨?_,hi.counters.committing.symm,?_,?_,?_,fun e he b hb => hi.recovers he hb,?_⟩
  · intro p hp
    exact ⟨fun q op hq => hi.counters.not_inCommit_of_inOp hq hp,
      fun q hq => hi.counters.unique q p hq hp⟩
  · intro hcom a w' hstep
    obtain ⟨p,hp⟩ := hi.counters.committing.mp hcom
    cases hstep with
    | beginOp _ hl => exact absurd (Log.beginOp_eq_some hl).1 (by simp [hcom])
    | logWrite _ hq _ _ => exact absurd hp (hi.counters.not_inCommit_of_inOp hq)
    | endOp hq _ => exact absurd hp (hi.counters.not_inCommit_of_inOp hq)
    | commit hq _ _ => exact ⟨_,rfl,_,hq⟩
    | writeHead hq => exact ⟨_,rfl,_,hq⟩
    | commitDone hq => exact ⟨_,rfl,_,hq⟩
  · intro p op hp
    have hcom := hi.counters.committing_of_inOp hp
    have hout := hi.counters.outstanding_pos hp
    refine ⟨?_,?_⟩
    · simp only [Log.endOp,hcom,Bool.false_eq_true,if_false]
      split <;> simp
    · intro b
      unfold Log.logWrite
      split
      · simp
      · rw [if_neg (by omega)]
        split <;> simp
  · intro x hx _
    rw [hi.history.logged,List.mem_append] at hx
    rcases hx with hx | hx
    · obtain ⟨c,hc,hxc⟩ := List.mem_flatMap.mp hx
      exact .inr ⟨c,hc,hxc,hi.history.header c hc x hxc⟩
    · left
      by_cases hc : ∃ p, w.InCommit p
      · obtain ⟨p,k,hp⟩ := hc
        obtain ⟨s,hs⟩ := hi.running p k hp
        by_cases hw : start ∈ w.written
        · simp [hs.after hw] at hx
        · rw [hs.rest.here.2.1 hw]
          exact (hs.before hw).2 x hx
      · exact (hi.quiet fun p hp => hc ⟨p,hp⟩).pending x hx
  · intro x hx
    refine ⟨hi.history.ended x hx,?_⟩
    intro y hy hop
    rw [hi.history.logged,List.mem_append] at hy
    exact hy.resolve_right fun hy => hi.history.whole x hx y hy hop.symm

end Invariant

section Example

def freshWorld (P : Type) : World P where
  st := ⟨fun _ => Bytes.zero,fun _ => Bytes.zero,⟨2,LOGSIZE,0,false,Logheader.empty⟩,Env.zero⟩
  pos := fun _ => .idle
  begun := 0
  logged := []
  pending := []
  commits := []
  written := []

theorem freshWorld_initial (P : Type) : Initial 2 LOGSIZE (fun _ => Bytes.zero) (freshWorld P) where
  room := by decide
  log := rfl
  disk := rfl
  clear := by decide
  cache := fun _ _ => rfl
  idle := fun _ => rfl
  logged := rfl
  pending := rfl
  commits := rfl

/-- Of two processes one logs block 60 and starts to commit: the header has not been
written, so a crash loses the block. -/
theorem commit_whole_operations_two : ∃ w : World (Fin 2),
    Reaches 2 LOGSIZE (fun _ _ => True) (fun _ => Bytes.zero) w ∧ w.InCommit 0 ∧
    w.logged.length = 1 ∧ w.pos 1 ≠ .inOp 0 ∧
    ∀ e, Recovers 2 LOGSIZE w.st.disk e → e 60 = Bytes.zero := by
  have hfs : InFs 2 LOGSIZE 60 := ⟨by decide,by decide⟩
  obtain ⟨w,h,hin,hlen,hnone⟩ : ∃ w : World (Fin 2),
      Reaches 2 LOGSIZE (fun _ _ => True) (fun _ => Bytes.zero) w ∧ w.InCommit 0 ∧
      w.logged.length = 1 ∧ w.commits = [] := by
    refine ⟨_,.step (a := .endOp 0) (.step (a := .logWrite 0 60) (.step (a := .beginOp 0)
      (.init (freshWorld_initial (Fin 2))) trivial (.beginOp rfl rfl)) trivial
      (.logWrite ((Bytes.zero).splice 0 [7]) rfl hfs rfl)) trivial (.endOp rfl rfl),⟨commit,rfl⟩,rfl,rfl⟩
  obtain ⟨hc,-,-,-,-,hrec,-⟩ := commit_whole_operations h
  refine ⟨w,h,hin,hlen,(hc 0 hin).1 1 0,?_⟩
  intro e he
  rw [hrec e he 60 hfs,World.committed,hnone]
  rfl

end Example

end Xv6.LogProtocol
