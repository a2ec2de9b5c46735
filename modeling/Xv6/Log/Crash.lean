import Xv6.Log.Code

/-! # Crash atomicity of the redo log

The disk applies the `bwrite`s of `commit` and `recover_from_log` one whole block at
a time and in program order, and the machine may stop between any two operations. The
sequential machine is run with a record of the blocks written so far; a crash keeps
the disk and forgets the cache and the in-memory header.
-/
namespace Xv6.LogCrash
open Library Prog
open Function (update update_of_ne update_self)

/-- The machine together with the block numbers of the `bwrite`s applied so far. -/
abbrev Traced := St × List ℕ

def traced (p : Pid) : Handler (Op ℕ) Op.Res Traced Halt := fun o s =>
  match St.exec p o s.1 with
  | .ok (r,t) => .ok (r,(t,match o with
    | .bwrite b => s.2 ++ [b]
    | _ => s.2))
  | .error e => .error e

section Rules
variable {p : Pid} {X : Halt → Prop} {C : Traced → Prop} {α : Type} {Q : α → Traced → Prop} {f : Unit → Code ℕ α} {b : ℕ}
variable {s : St} {ws : List ℕ}

theorem cwp_getLog {f : Log → Code ℕ α} :
    ((getLog : Code ℕ Log).bind f).cwp (traced p) X C Q (s,ws) ↔
      C (s,ws) ∧ (f s.log).cwp (traced p) X C Q (s,ws) := Iff.rfl

theorem cwp_setLh {lh : Logheader} :
    ((setLh lh : Code ℕ Unit).bind f).cwp (traced p) X C Q (s,ws) ↔
      C (s,ws) ∧ (f ()).cwp (traced p) X C Q ({ s with log := { s.log with lh := lh } },ws) := Iff.rfl

theorem cwp_bread {f : ℕ → Code ℕ α} :
    ((bread b : Code ℕ ℕ).bind f).cwp (traced p) X C Q (s,ws) ↔
      C (s,ws) ∧ (f b).cwp (traced p) X C Q (s,ws) := by
  change C _ ∧ C _ ∧ C _ ∧ _ ↔ _
  simp only [and_self_left]
  rfl

theorem cwp_brelse :
    ((brelse b : Code ℕ Unit).bind f).cwp (traced p) X C Q (s,ws) ↔
      C (s,ws) ∧ (f ()).cwp (traced p) X C Q (s,ws) := by
  change C _ ∧ C _ ∧ _ ↔ _
  simp only [and_self_left]
  rfl

theorem cwp_brelse_last {Q : Unit → Traced → Prop} :
    (brelse b : Code ℕ Unit).cwp (traced p) X C Q (s,ws) ↔ C (s,ws) ∧ Q () (s,ws) := by
  change C _ ∧ C _ ∧ C _ ∧ _ ↔ _
  simp only [and_self_left]

theorem cwp_bunpin :
    ((bunpin b : Code ℕ Unit).bind f).cwp (traced p) X C Q (s,ws) ↔
      C (s,ws) ∧ (f ()).cwp (traced p) X C Q (s,ws) := Iff.rfl

theorem cwp_bdata {f : Block → Code ℕ α} :
    ((bdata b : Code ℕ Block).bind f).cwp (traced p) X C Q (s,ws) ↔
      C (s,ws) ∧ (f (s.blk b)).cwp (traced p) X C Q (s,ws) := Iff.rfl

theorem cwp_setData {d : Block} :
    ((setData b d : Code ℕ Unit).bind f).cwp (traced p) X C Q (s,ws) ↔
      C (s,ws) ∧ (f ()).cwp (traced p) X C Q (s.setBlk b d,ws) := Iff.rfl

theorem cwp_bwrite :
    ((bwrite b : Code ℕ Unit).bind f).cwp (traced p) X C Q (s,ws) ↔
      C (s,ws) ∧ (f ()).cwp (traced p) X C Q (s.setDisk b (s.blk b),ws ++ [b]) := Iff.rfl

end Rules

/-! ## Disk states at a crash -/

section
variable (start size : ℕ) (home : Logheader) (old new : Blocks)

def InArea (b : ℕ) : Prop := start ≤ b ∧ b < start + size

instance (b : ℕ) : Decidable (InArea start size b) := inferInstanceAs (Decidable (_ ∧ _))

structure Fits : Prop where
  room : home.n + 1 ≤ size
  nodup : home.block.Nodup
  outside : ∀ b ∈ home.block, ¬InArea start size b
  uint : ∀ b ∈ home.block, b < 2 ^ 32

/-- The header names the home blocks and the log holds their new contents, wherever
the installation has got to. -/
structure Logged (d : Blocks) : Prop where
  header : Logheader.ofBlock (d start) = home
  copies : ∀ i, i < home.n → d (start + i + 1) = new (home.block.getD i 0)
  rest : ∀ b, b ∉ home.block → ¬InArea start size b → d b = old b

structure Untouched (d : Blocks) : Prop where
  header : Logheader.ofBlock (d start) = Logheader.empty
  rest : ∀ b, ¬InArea start size b → d b = old b

structure Installed (d : Blocks) : Prop where
  header : Logheader.ofBlock (d start) = Logheader.empty
  fresh : ∀ b ∈ home.block, d b = new b
  rest : ∀ b, b ∉ home.block → ¬InArea start size b → d b = old b

end

section
variable {p : Pid} {X : Halt → Prop} {start size : ℕ} {home : Logheader} {old new : Blocks}
variable {s : St} {ws : List ℕ}

theorem InArea.ne {b c : ℕ} (hb : InArea start size b) (hc : ¬InArea start size c) : b ≠ c := by
  rintro rfl
  exact hc hb

theorem Fits.inArea (hf : Fits start size home) {i : ℕ} (hi : i < home.n) :
    InArea start size (start + i + 1) := by
  have := hf.room
  constructor <;> omega

theorem Fits.start_inArea (hf : Fits start size home) : InArea start size start := by
  have := hf.room
  constructor <;> omega

theorem Logged.install (hf : Fits start size home) {d : Blocks}
    (hd : Logged start size home old new d) {b : ℕ} (hb : b ∈ home.block) (v : Block) :
    Logged start size home old new (update d b v) := by
  have hout := hf.outside b hb
  refine ⟨?_,?_,?_⟩
  · rw [update_of_ne (hf.start_inArea.ne hout)]
    exact hd.header
  · intro i hi
    rw [update_of_ne ((hf.inArea hi).ne hout)]
    exact hd.copies i hi
  · intro c hc ho
    rw [update_of_ne (ne_of_mem_of_not_mem hb hc).symm]
    exact hd.rest c hc ho

/-- A property of the machine that the log code cannot disturb: it survives changes
of the disk, of the log area, of the in-memory header, and home blocks becoming new. -/
structure Stable (start size : ℕ) (home : Logheader) (new : Blocks) (K : St → Prop) : Prop where
  disk : ∀ t b v, K t → K (t.setDisk b v)
  area : ∀ t b v, InArea start size b → K t → K (t.setBlk b v)
  install : ∀ t b, b ∈ home.block → K t → K (t.setBlk b (new b))
  header : ∀ t lh, K t → K { t with log := { t.log with lh := lh } }

section Loops
variable {K : St → Prop} {M : List ℕ → Prop}

/-- The installation loop: interrupted anywhere the disk is still logged, and at the
end every home block is new. -/
theorem installTransFrom_cwp (hf : Fits start size home) (hK : Stable start size home new K)
    (hM : ∀ ws b, M ws → M (ws ++ [b])) (recovering : Bool) (fuel tail : ℕ)
    (hstart : s.log.start = start) (hlh : s.log.lh = home) (hfuel : home.n ≤ tail + fuel)
    (hcopy : ∀ i, i < home.n → s.blk (start + i + 1) = new (home.block.getD i 0))
    (hdone : ∀ i, i < tail → i < home.n → s.disk (home.block.getD i 0) = new (home.block.getD i 0))
    (hd : Logged start size home old new s.disk) (hs : K s) (hws : M ws) :
    (installTransFrom recovering fuel tail : Code ℕ Unit).cwp (traced p) X
      (fun t => M t.2 ∧ K t.1 ∧ Logged start size home old new t.1.disk ∧ t.1.log = s.log)
      (fun _ t => M t.2 ∧ K t.1 ∧ Logged start size home old new t.1.disk ∧ t.1.log = s.log ∧
        ∀ b ∈ home.block, t.1.disk b = new b) (s,ws) := by
  induction fuel generalizing tail s ws with
  | zero =>
    exact ⟨⟨hws,hs,hd,rfl⟩,hws,hs,hd,rfl,Logheader.forall_mem fun i hi => hdone i (by omega) hi⟩
  | succ fuel ih =>
    rw [installTransFrom,bind_eq,cwp_getLog]
    refine ⟨⟨hws,hs,hd,rfl⟩,?_⟩
    rw [hlh,hstart]
    by_cases ht : tail < home.n
    · rw [if_pos ht]
      have hmem := Logheader.getD_mem ht
      have hout := hf.outside _ hmem
      generalize hb : home.block.getD tail 0 = b at hmem hout
      have hnew : s.blk (start + tail + 1) = new b := by rw [hcopy tail ht,hb]
      have hd' := hd.install hf hmem (new b)
      have hs₁ := hK.install s b hmem hs
      have hs₂ := hK.disk _ b (new b) hs₁
      simp only [bind_eq,cwp_bread,cwp_bdata,cwp_setData,cwp_bwrite,St.setBlk_disk,St.setBlk_blk,
        update_self,hnew]
      refine ⟨⟨hws,hs,hd,trivial⟩,⟨hws,hs,hd,trivial⟩,⟨hws,hs,hd,trivial⟩,⟨hws,hs,hd,trivial⟩,
        ⟨hws,hs₁,hd,rfl⟩,?_⟩
      -- after the write the tail block is installed, and the log copies are as before
      have hnext := @ih ((s.setBlk b (new b)).setDisk b (new b)) (ws ++ [b]) (tail + 1)
        hstart hlh (by omega) ?_ ?_ hd' hs₂ (hM ws b hws)
      · have hC : M (ws ++ [b]) ∧ K ((s.setBlk b (new b)).setDisk b (new b)) ∧
            Logged start size home old new ((s.setBlk b (new b)).setDisk b (new b)).disk ∧
            ((s.setBlk b (new b)).setDisk b (new b)).log = s.log :=
          ⟨hM ws b hws,hs₂,hd',rfl⟩
        cases recovering with
        | true => simpa only [if_true,pure_eq,ret_bind,cwp_brelse] using ⟨hC,hC,hnext⟩
        | false =>
          simpa only [Bool.false_eq_true,if_false,cwp_bunpin,cwp_brelse] using ⟨hC,hC,hC,hnext⟩
      · intro i hi
        simp only [St.setDisk_blk,St.setBlk_blk]
        rw [update_of_ne ((hf.inArea hi).ne hout)]
        exact hcopy i hi
      · intro i hi hin
        simp only [St.setDisk_disk,St.setBlk_disk]
        by_cases he : home.block.getD i 0 = b
        · rw [he,update_self]
        · rw [update_of_ne he]
          refine hdone i ?_ hin
          rcases Nat.lt_succ_iff_lt_or_eq.mp hi with h | h
          · exact h
          · exact absurd (by rw [h,hb]) he
    · rw [if_neg ht]
      exact ⟨⟨hws,hs,hd,rfl⟩,hws,hs,hd,rfl,Logheader.forall_mem fun i hi => hdone i (by omega) hi⟩

theorem writeLogFrom_cwp (hf : Fits start size home) (hK : Stable start size home new K)
    (fuel tail : ℕ) (hstart : s.log.start = start) (hlh : s.log.lh = home)
    (hfuel : home.n ≤ tail + fuel) (hblk : ∀ b ∈ home.block, s.blk b = new b)
    (hcopy : ∀ i, i < tail → i < home.n → s.blk (start + i + 1) = new (home.block.getD i 0) ∧
      s.disk (start + i + 1) = new (home.block.getD i 0))
    (hd : Untouched start size old s.disk) (hs : K s) (hws : start ∉ ws) :
    (writeLogFrom fuel tail : Code ℕ Unit).cwp (traced p) X
      (fun t => start ∉ t.2 ∧ K t.1 ∧ Untouched start size old t.1.disk ∧ t.1.log = s.log)
      (fun _ t => start ∉ t.2 ∧ K t.1 ∧ Untouched start size old t.1.disk ∧ t.1.log = s.log ∧
        ∀ i, i < home.n → t.1.blk (start + i + 1) = new (home.block.getD i 0) ∧
          t.1.disk (start + i + 1) = new (home.block.getD i 0)) (s,ws) := by
  induction fuel generalizing tail s ws with
  | zero => exact ⟨⟨hws,hs,hd,rfl⟩,hws,hs,hd,rfl,fun i hi => hcopy i (by omega) hi⟩
  | succ fuel ih =>
    rw [writeLogFrom,bind_eq,cwp_getLog]
    refine ⟨⟨hws,hs,hd,rfl⟩,?_⟩
    rw [hlh,hstart]
    by_cases ht : tail < home.n
    · rw [if_pos ht]
      have hmem := Logheader.getD_mem ht
      have harea := hf.inArea ht
      generalize hb : home.block.getD tail 0 = b at hmem
      have hd' : Untouched start size old (update s.disk (start + tail + 1) (new b)) := by
        refine ⟨?_,?_⟩
        · rw [update_of_ne (by omega)]
          exact hd.header
        · intro c hc
          rw [update_of_ne (harea.ne hc).symm]
          exact hd.rest c hc
      have hs₁ := hK.area s _ (new b) harea hs
      have hs₂ := hK.disk _ (start + tail + 1) (new b) hs₁
      have hws' : start ∉ ws ++ [start + tail + 1] := by
        simp only [List.mem_append,List.mem_singleton,not_or]
        exact ⟨hws,by omega⟩
      simp only [bind_eq,cwp_bread,cwp_bdata,cwp_setData,cwp_bwrite,cwp_brelse,St.setBlk_disk,
        St.setBlk_blk,update_self,hblk b hmem]
      refine ⟨⟨hws,hs,hd,trivial⟩,⟨hws,hs,hd,trivial⟩,⟨hws,hs,hd,trivial⟩,⟨hws,hs,hd,trivial⟩,⟨hws,hs₁,hd,rfl⟩,
        ⟨hws',hs₂,hd',rfl⟩,⟨hws',hs₂,hd',rfl⟩,?_⟩
      refine ih (s := (s.setBlk (start + tail + 1) (new b)).setDisk (start + tail + 1) (new b))
        (tail + 1) hstart hlh (by omega) ?_ ?_ hd' hs₂ hws'
      · intro c hc
        simp only [St.setDisk_blk,St.setBlk_blk]
        rw [update_of_ne (harea.ne (hf.outside c hc)).symm]
        exact hblk c hc
      · intro i hi hin
        simp only [St.setDisk_blk,St.setBlk_blk,St.setDisk_disk,St.setBlk_disk]
        by_cases he : i = tail
        · subst he
          simp only [update_self,hb,and_self]
        · rw [update_of_ne (by omega),update_of_ne (by omega)]
          exact hcopy i (by omega) hin
    · rw [if_neg ht]
      exact ⟨⟨hws,hs,hd,rfl⟩,hws,hs,hd,rfl,fun i hi => hcopy i (by omega) hi⟩

theorem writeHead_cwp {C : Traced → Prop} {Q : Unit → Traced → Prop} {v : Block}
    (hv : v = s.log.lh.toBlock (s.blk s.log.start))
    (hC : C (s,ws)) (hC₁ : C (s.setBlk s.log.start v,ws))
    (hC' : C ((s.setBlk s.log.start v).setDisk s.log.start v,ws ++ [s.log.start]))
    (hQ : Q () ((s.setBlk s.log.start v).setDisk s.log.start v,ws ++ [s.log.start])) :
    (writeHead : Code ℕ Unit).cwp (traced p) X C Q (s,ws) := by
  subst hv
  rw [writeHead]
  simp only [bind_eq,cwp_getLog,cwp_bread,cwp_bdata,cwp_setData,cwp_bwrite,cwp_brelse_last,
    St.setBlk_blk,update_self]
  exact ⟨hC,hC,hC,hC,hC₁,hC',hQ⟩

theorem Untouched.log (hf : Fits start size home) {d : Blocks} (hd : Untouched start size old d)
    (hcopy : ∀ i, i < home.n → d (start + i + 1) = new (home.block.getD i 0)) (w : Block) :
    Logged start size home old new (update d start (home.toBlock w)) := by
  refine ⟨?_,?_,?_⟩
  · rw [update_self]
    exact Logheader.ofBlock_toBlock w home hf.uint
  · intro i hi
    rw [update_of_ne (by omega)]
    exact hcopy i hi
  · intro b _ ho
    rw [update_of_ne (hf.start_inArea.ne ho).symm]
    exact hd.rest b ho

theorem Logged.clear (hf : Fits start size home) {d : Blocks}
    (hd : Logged start size home old new d) (hnew : ∀ b ∈ home.block, d b = new b) (w : Block) :
    Installed start size home old new (update d start (Logheader.empty.toBlock w)) := by
  refine ⟨?_,?_,?_⟩
  · rw [update_self]
    exact Logheader.ofBlock_toBlock w _ (by simp)
  · intro b hb
    rw [update_of_ne (hf.start_inArea.ne (hf.outside b hb)).symm]
    exact hnew b hb
  · intro b hb ho
    rw [update_of_ne (hf.start_inArea.ne ho).symm]
    exact hd.rest b hb ho

theorem install_cwp (hf : Fits start size home) (hK : Stable start size home new K)
    (hM : ∀ ws b, M ws → M (ws ++ [b])) (recovering : Bool)
    (hstart : s.log.start = start) (hlh : s.log.lh = home)
    (hcopy : ∀ i, i < home.n → s.blk (start + i + 1) = new (home.block.getD i 0))
    (hd : Logged start size home old new s.disk) (hs : K s) (hws : M ws) :
    (do
      installTrans recovering
      setLh Logheader.empty
      writeHead : Code ℕ Unit).cwp (traced p) X
      (fun t => M t.2 ∧ K t.1 ∧ (Logged start size home old new t.1.disk ∨
        Installed start size home old new t.1.disk) ∧
        (t.1.log.lh = home ∨ t.1.log.lh = Logheader.empty))
      (fun _ t => M t.2 ∧ K t.1 ∧ Installed start size home old new t.1.disk ∧
        t.1.log.lh = Logheader.empty ∧ Logheader.count (t.1.disk start) = 0) (s,ws) := by
  have hloop := installTransFrom_cwp (p := p) (X := X) hf hK hM recovering LOGSIZE 0 hstart hlh
    (by have := home.length_le; simp only [Logheader.n]; omega) hcopy
    (fun i hi => absurd hi (Nat.not_lt_zero i)) hd hs hws
  refine (hloop.mono (fun t ht => ⟨ht.1,ht.2.1,.inl ht.2.2.1,.inl (by rw [ht.2.2.2,hlh])⟩)
    fun _ _ => id).seq ?_
  rintro _ ⟨t,ws'⟩ ⟨hws',ht,hd',hlog,hnew⟩
  rw [bind_eq,cwp_setLh]
  refine ⟨⟨hws',ht,.inl hd',.inl ((congrArg Log.lh hlog).trans hlh)⟩,?_⟩
  have hst : t.log.start = start := by rw [hlog,hstart]
  have hclear := hd'.clear hf hnew (t.blk start)
  have ht' := hK.header t Logheader.empty ht
  have hhead := fun v => hK.area _ start v hf.start_inArea ht'
  refine writeHead_cwp rfl ⟨hws',ht',.inl hd',.inr rfl⟩ ⟨hws',?_,.inl hd',.inr rfl⟩
    ⟨hM _ _ hws',?_,.inr ?_,.inr rfl⟩
    ⟨hM _ _ hws',?_,?_,rfl,?_⟩
  · simpa only [hst] using hhead _
  · simpa only [hst] using hK.disk _ start _ (hhead _)
  · simpa only [St.setDisk_disk,St.setBlk_disk,hst] using hclear
  · simpa only [hst] using hK.disk _ start _ (hhead _)
  · simpa only [St.setDisk_disk,St.setBlk_disk,hst] using hclear
  · simp only [St.setDisk_disk,St.setBlk_disk,hst,update_self]
    exact Logheader.count_toBlock _ _

end Loops

theorem recoverFromLog_cwp (hf : Fits start size home)
    (hstart : s.log.start = start) (hblk : s.blk = s.disk)
    (hd : Logged start size home old new s.disk) :
    (recoverFromLog : Code ℕ Unit).cwp (traced p) X
      (fun t => Logged start size home old new t.1.disk ∨
        Installed start size home old new t.1.disk)
      (fun _ t => Installed start size home old new t.1.disk ∧
        Logheader.count (t.1.disk start) = 0) (s,ws) := by
  simp only [recoverFromLog,readHead,bind_eq,bind_assoc,cwp_getLog,cwp_bread,cwp_bdata,cwp_setLh,
    cwp_brelse]
  refine ⟨.inl hd,.inl hd,.inl hd,.inl hd,.inl hd,?_⟩
  have hhead : Logheader.ofBlock (s.blk s.log.start) = home := by rw [hblk,hstart,hd.header]
  rw [hhead]
  have hcopy : ∀ i, i < home.n → s.blk (start + i + 1) = new (home.block.getD i 0) := by
    intro i hi
    rw [hblk]
    exact hd.copies i hi
  have hK : Stable start size home new (fun _ => True) :=
    ⟨by simp,by simp,by simp,by simp⟩
  exact (install_cwp (M := fun _ => True) (s := { s with log := { s.log with lh := home } }) hf hK
    (fun _ _ _ => trivial) true hstart rfl hcopy hd trivial trivial).mono (fun t ht => ht.2.2.1)
    fun _ t ht => ⟨ht.2.2.1,ht.2.2.2.2⟩

/-- What `commit` leaves alone: the cache outside the log area, the counters of the
log and everything outside the log. -/
structure Keeps (s t : St) : Prop where
  blk : ∀ b, ¬InArea s.log.start s.log.size b → t.blk b = s.blk b
  start : t.log.start = s.log.start
  size : t.log.size = s.log.size
  outstanding : t.log.outstanding = s.log.outstanding
  committing : t.log.committing = s.log.committing
  env : t.env = s.env

theorem Keeps.refl (s : St) : Keeps s s := ⟨fun _ _ => rfl,rfl,rfl,rfl,rfl,rfl⟩

theorem Keeps.setBlk {s t : St} (h : Keeps s t) {b : ℕ} {v : Block}
    (hv : InArea s.log.start s.log.size b ∨ v = s.blk b) : Keeps s (t.setBlk b v) where
  blk := by
    intro c hc
    by_cases he : c = b
    · subst he
      rw [St.setBlk_blk,update_self]
      exact hv.resolve_left hc
    · rw [St.setBlk_blk,update_of_ne he]
      exact h.blk c hc
  start := h.start
  size := h.size
  outstanding := h.outstanding
  committing := h.committing
  env := h.env

theorem Keeps.stable (s : St) (home : Logheader) :
    Stable s.log.start s.log.size home s.blk (Keeps s) where
  disk := fun _ _ _ h => ⟨h.blk,h.start,h.size,h.outstanding,h.committing,h.env⟩
  area := fun _ _ _ hb h => h.setBlk (.inl hb)
  install := fun _ _ _ h => h.setBlk (.inr rfl)
  header := fun _ _ h => ⟨h.blk,h.start,h.size,h.outstanding,h.committing,h.env⟩

/-- The disk after a crash in a commit of `home`: old before its header is written,
redone by recovery afterwards. -/
def AtCrash (start size : ℕ) (home : Logheader) (old new : Blocks) (ws : List ℕ) (d : Blocks) : Prop :=
  if start ∈ ws then Logged start size home old new d ∨ Installed start size home old new d
  else Untouched start size old d

theorem commit_cwp (hf : Fits s.log.start s.log.size s.log.lh)
    (hd : Logheader.count (s.disk s.log.start) = 0) :
    (commit : Code ℕ Unit).cwp (traced p) X
      (fun t => Keeps s t.1 ∧ (s.log.start ∉ t.2 → t.1.log.lh = s.log.lh) ∧
        (t.1.log.lh = s.log.lh ∨ t.1.log.lh = Logheader.empty) ∧
        AtCrash s.log.start s.log.size s.log.lh s.disk s.blk t.2 t.1.disk)
      (fun _ t => Keeps s t.1 ∧ t.1.log.lh = Logheader.empty ∧
        Logheader.count (t.1.disk s.log.start) = 0 ∧
        Installed s.log.start s.log.size s.log.lh s.disk s.blk t.1.disk ∧
        (0 < s.log.lh.n → s.log.start ∈ t.2)) (s,[]) := by
  have hclear : Untouched s.log.start s.log.size s.disk s.disk :=
    ⟨Logheader.ofBlock_of_count_zero hd,fun _ _ => rfl⟩
  have hold : ∀ t : St, ∀ ws, s.log.start ∉ ws → Untouched s.log.start s.log.size s.disk t.disk →
      AtCrash s.log.start s.log.size s.log.lh s.disk s.blk ws t.disk := by
    intro t ws hws ht
    rw [AtCrash,if_neg hws]
    exact ht
  have h0 : s.log.start ∉ ([] : List ℕ) := by simp
  have hC := And.intro (Keeps.refl s) (And.intro (fun _ : s.log.start ∉ ([] : List ℕ) =>
    (rfl : s.log.lh = s.log.lh)) (And.intro (.inl rfl : s.log.lh = s.log.lh ∨ s.log.lh = Logheader.empty)
      (hold s [] h0 hclear)))
  rw [commit,bind_eq,cwp_getLog]
  refine ⟨hC,?_⟩
  by_cases hn : 0 < s.log.lh.n
  · rw [if_pos hn]
    have hloop := writeLogFrom_cwp (p := p) (X := X) hf (Keeps.stable s s.log.lh) LOGSIZE 0 rfl rfl
      (by have := s.log.lh.length_le; simp only [Logheader.n]; omega) (fun b _ => rfl)
      (fun i hi => absurd hi (Nat.not_lt_zero i)) hclear (Keeps.refl s) h0
    refine (hloop.mono (fun t ht => ⟨ht.2.1,fun _ => by rw [ht.2.2.2],.inl (by rw [ht.2.2.2]),
      hold _ _ ht.1 ht.2.2.1⟩)
      fun _ _ => id).seq ?_
    rintro _ ⟨t,ws⟩ ⟨hws,hk,hd',hlog,hcopy⟩
    have hlogged := hd'.log hf (fun i hi => (hcopy i hi).2) (t.blk s.log.start)
    generalize hv : s.log.lh.toBlock (t.blk s.log.start) = v at hlogged
    have hk₁ := (Keeps.stable s s.log.lh).area t _ v hf.start_inArea hk
    have hk₂ := (Keeps.stable s s.log.lh).disk _ s.log.start v hk₁
    have hin : s.log.start ∈ ws ++ [s.log.start] := by simp
    have hlh : t.log.lh = s.log.lh := congrArg Log.lh hlog
    refine cwp.seq (Q := fun _ u => u = ((t.setBlk s.log.start v).setDisk s.log.start v,
      ws ++ [s.log.start])) ?_ ?_
    · refine writeHead_cwp (v := v) (by rw [hlog,hv]) ⟨hk,fun _ => hlh,.inl hlh,hold _ _ hws hd'⟩ ?_ ?_ ?_
      · rw [hk.start]
        exact ⟨hk₁,fun _ => hlh,.inl hlh,hold _ _ hws hd'⟩
      · rw [hk.start,AtCrash,if_pos hin]
        exact ⟨hk₂,fun h => absurd hin h,.inl hlh,.inl hlogged⟩
      · rw [hk.start]
    · rintro _ _ rfl
      have hcopy' : ∀ i, i < s.log.lh.n →
          ((t.setBlk s.log.start v).setDisk s.log.start v).blk (s.log.start + i + 1) =
            s.blk (s.log.lh.block.getD i 0) := by
        intro i hi
        simp only [St.setDisk_blk,St.setBlk_blk]
        rw [update_of_ne (by omega)]
        exact (hcopy i hi).1
      refine (install_cwp (M := fun ws => s.log.start ∈ ws)
        (s := (t.setBlk s.log.start v).setDisk s.log.start v) hf (Keeps.stable s s.log.lh)
        (fun ws b h => List.mem_append_left _ h) false hk.start hlh hcopy' hlogged hk₂
        hin).mono ?_ ?_
      · rintro u ⟨hu,hku,hdu,hlhu⟩
        rw [AtCrash,if_pos hu]
        exact ⟨hku,fun h => absurd hu h,hlhu,hdu⟩
      · rintro _ u ⟨hu,hku,hdu,hlh,hz⟩
        exact ⟨hku,hlh,hz,hdu,fun _ => hu⟩
  · rw [if_neg hn]
    have hnil : s.log.lh = Logheader.empty := by
      apply Logheader.ext_block
      exact List.eq_nil_of_length_eq_zero (by simpa [Logheader.n] using hn)
    refine ⟨hC,Keeps.refl s,hnil,hd,⟨hclear.header,?_,fun _ _ _ => rfl⟩,fun h => absurd h hn⟩
    simp [hnil]

end

/-! ## Crashes and recoveries -/

section
variable (start size : ℕ)

/-- Power-up after a crash: the disk survives, the cache is cold, and `initlog` sets
up the log. -/
structure Reboot (d : Blocks) (u : St) : Prop where
  disk : u.disk = d
  cold : u.blk = d
  log : u.log = ⟨start,size,0,false,Logheader.empty⟩

/-- Any number of recoveries cut short by further crashes, then one that runs to its end. -/
inductive Recovers : Blocks → Blocks → Prop
  | done {d : Blocks} {u v : St} {p : Pid} {ws : List ℕ} : Reboot start size d u →
      (recoverFromLog : Code ℕ Unit).run (traced p) (u,[]) = .ok ((),(v,ws)) → Recovers d v.disk
  | crashed {d e : Blocks} {u v : St} {p : Pid} {ws : List ℕ} : Reboot start size d u →
      Interrupted (traced p) (recoverFromLog : Code ℕ Unit) (u,[]) (v,ws) → Recovers v.disk e →
      Recovers d e

end

section
variable {start size : ℕ} {home : Logheader} {old new d e : Blocks} {p : Pid} {u : St}

theorem Fits.empty (hf : Fits start size home) : Fits start size Logheader.empty where
  room := by have := hf.room; simp only [Logheader.empty_n]; omega
  nodup := List.nodup_nil
  outside := by simp
  uint := by simp

/-- An untouched disk is one on which the home blocks are installed with their old
contents. -/
theorem Untouched.installed (hf : Fits start size home) (hd : Untouched start size old d) :
    Installed start size home old old d :=
  ⟨hd.header,fun b hb => hd.rest b (hf.outside b hb),fun b _ hb => hd.rest b hb⟩

theorem Installed.untouched (hd : Installed start size home old old d) : Untouched start size old d := by
  refine ⟨hd.header,fun b hb => ?_⟩
  by_cases h : b ∈ home.block
  · exact hd.fresh b h
  · exact hd.rest b h hb

theorem recoverFromLog_installed_cwp (hf : Fits start size home) (hu : Reboot start size d u)
    (hd : Installed start size home old new d) :
    (recoverFromLog : Code ℕ Unit).cwp (traced p) (fun _ => False)
      (fun t => Installed start size home old new t.1.disk)
      (fun _ t => Installed start size home old new t.1.disk ∧
        Logheader.count (t.1.disk start) = 0) (u,[]) := by
  have hlogged : Logged start size Logheader.empty d d u.disk :=
    ⟨by rw [hu.disk,hd.header],by simp,fun b _ _ => by rw [hu.disk]⟩
  have hback : ∀ e : Blocks, Logheader.ofBlock (e start) = Logheader.empty →
      (∀ b, b ∉ Logheader.empty.block → ¬InArea start size b → e b = d b) →
      Installed start size home old new e := by
    intro e he hrest
    refine ⟨he,fun b hb => ?_,fun b hb ho => ?_⟩
    · rw [hrest b (by simp) (hf.outside b hb),hd.fresh b hb]
    · rw [hrest b (by simp) ho,hd.rest b hb ho]
  refine (recoverFromLog_cwp hf.empty (by rw [hu.log]) (by rw [hu.cold,hu.disk]) hlogged).mono ?_ ?_
  · rintro t (ht | ht)
    · exact hback _ ht.header ht.rest
    · exact hback _ ht.header ht.rest
  · rintro _ t ⟨ht,hz⟩
    exact ⟨hback _ ht.header ht.rest,hz⟩

theorem recoverFromLog_atCrash_cwp {ws : List ℕ} (hf : Fits start size home)
    (hu : Reboot start size d u) (hd : AtCrash start size home old new ws d) :
    (recoverFromLog : Code ℕ Unit).cwp (traced p) (fun _ => False)
      (fun t => AtCrash start size home old new ws t.1.disk)
      (fun _ t => Installed start size home old (if start ∈ ws then new else old) t.1.disk ∧
        Logheader.count (t.1.disk start) = 0) (u,[]) := by
  unfold AtCrash at hd ⊢
  by_cases hws : start ∈ ws
  · simp only [if_pos hws] at hd ⊢
    rcases hd with hd | hd
    · exact recoverFromLog_cwp hf (by rw [hu.log]) (by rw [hu.cold,hu.disk]) (by rwa [hu.disk])
    · exact (recoverFromLog_installed_cwp hf hu hd).mono (fun t ht => .inr ht) fun _ _ => id
  · simp only [if_neg hws] at hd ⊢
    exact (recoverFromLog_installed_cwp hf hu (hd.installed hf)).mono (fun t ht => ht.untouched)
      fun _ _ => id

theorem Recovers.atCrash {ws : List ℕ} (hf : Fits start size home) (h : Recovers start size d e)
    (hd : AtCrash start size home old new ws d) :
    Installed start size home old (if start ∈ ws then new else old) e ∧
      Logheader.count (e start) = 0 := by
  induction h with
  | done hu hrun => exact (recoverFromLog_atCrash_cwp hf hu hd).of_run_ok hrun
  | crashed hu hint _ ih => exact ih ((recoverFromLog_atCrash_cwp hf hu hd).interrupted hint)

end

/-- Crash atomicity of the redo log: after a crash anywhere in `commit` and any number
of crashes during recovery, a completed recovery leaves the home blocks all new if the
header had been written and all old otherwise, and touches nothing else. -/
theorem commit_recover_atomic (p : Pid) (s t : St) (ws : List ℕ)
    (hzero : Logheader.count (s.disk s.log.start) = 0)
    (hfits : Fits s.log.start s.log.size s.log.lh)
    (hcrash : Interrupted (traced p) (commit : Code ℕ Unit) (s,[]) (t,ws)) :
    (∀ q u, Reboot s.log.start s.log.size t.disk u →
      ∃ v, (recoverFromLog : Code ℕ Unit).run (traced q) (u,[]) = .ok ((),v)) ∧
    ∀ d, Recovers s.log.start s.log.size t.disk d →
      Logheader.count (d s.log.start) = 0 ∧
      (∀ b, ¬InArea s.log.start s.log.size b → b ∉ s.log.lh.block → d b = s.disk b) ∧
      (s.log.start ∈ ws → ∀ b ∈ s.log.lh.block, d b = s.blk b) ∧
      (s.log.start ∉ ws → ∀ b ∈ s.log.lh.block, d b = s.disk b) := by
  obtain ⟨-,-,-,hd⟩ := (commit_cwp (X := fun _ => False) hfits hzero).interrupted hcrash
  refine ⟨?_,?_⟩
  · intro q u hu
    obtain ⟨_,v,hv⟩ := (recoverFromLog_atCrash_cwp (p := q) hfits hu hd).returns
    exact ⟨v,hv⟩
  · intro d hrecovers
    obtain ⟨hdone,hz⟩ := hrecovers.atCrash hfits hd
    refine ⟨hz,?_,?_,?_⟩
    · intro b hb hn
      exact hdone.rest b hn hb
    · intro hws b hb
      simpa only [if_pos hws] using hdone.fresh b hb
    · intro hws b hb
      simpa only [if_neg hws] using hdone.fresh b hb

def twoBlocks : St where
  blk := fun b => if b = 60 then (Bytes.zero).splice 0 [7] else if b = 61 then (Bytes.zero).splice 0 [9] else Bytes.zero
  disk := fun _ => Bytes.zero
  log := ⟨2,30,0,true,⟨[60,61],by decide⟩⟩
  env := Env.zero

/-- A crash of `twoBlocks`' commit right after its first `write_head`: recovery installs both blocks. -/
theorem commit_recover_atomic_twoBlocks : ∃ t ws,
    Interrupted (traced 0) (commit : Code ℕ Unit) (twoBlocks,[]) (t,ws) ∧ 2 ∈ ws ∧
    ∀ d, Recovers 2 30 t.disk d → (d 60).get 0 = 7 ∧ (d 61).get 0 = 9 := by
  have hrun : ∃ t ws, (do writeLog; writeHead : Code ℕ Unit).run (traced 0) (twoBlocks,[]) =
      .ok ((),(t,ws)) ∧ 2 ∈ ws := ⟨_,_,rfl,by decide⟩
  obtain ⟨t,ws,hr,hws⟩ := hrun
  have hint : Interrupted (traced 0) (commit : Code ℕ Unit) (twoBlocks,[]) (t,ws) := by
    have hcut := Interrupted.of_run (f := fun _ => (do
      installTrans false
      setLh Logheader.empty
      writeHead : Code ℕ Unit)) hr
    simp only [bind_eq,bind_assoc] at hcut
    exact .later rfl hcut
  have hfits : Fits twoBlocks.log.start twoBlocks.log.size twoBlocks.log.lh :=
    ⟨by decide,by decide,by decide,by decide⟩
  have hnew := ((commit_recover_atomic 0 twoBlocks t ws (by decide) hfits hint).2 · ·)
  refine ⟨t,ws,hint,hws,?_⟩
  intro d hd
  have hall := (hnew d hd).2.2.1 hws
  rw [hall 60 (by decide),hall 61 (by decide)]
  decide

end Xv6.LogCrash
