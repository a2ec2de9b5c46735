import Xv6.Fs.Ownership
import Xv6.Log.Crash

/-! # `balloc` and `bfree`

The code runs inside a transaction whose log has room for a known number of further
`log_write`s; with room for none, `log_write` may panic with "too big a transaction".
-/
namespace Xv6
open Library Prog

/-- One of `o` operations is running, and `k` more blocks fit the log. -/
structure InOp (sb : Superblock) (o : ℤ) (k : ℕ) (s : St) : Prop where
  start : s.log.start = sb.logstart
  size : s.log.size = sb.nlog
  pos : 1 ≤ o
  outstanding : s.log.outstanding = o
  committing : s.log.committing = false
  fits : LogCrash.Fits sb.logstart sb.nlog s.log.lh
  clear : Logheader.count (s.disk sb.logstart) = 0
  room : s.log.lh.n + k ≤ LOGSIZE ∧ s.log.lh.n + k + 1 ≤ sb.nlog

section
variable {sb : Superblock} {p : Pid} {X : Halt → Prop} {α : Type} {s t : St} {o : ℤ} {k b : ℕ}

theorem InOp.congr (h : InOp sb o k s) (hlog : t.log = s.log) (hdisk : t.disk = s.disk) : InOp sb o k t where
  start := by rw [hlog,h.start]
  size := by rw [hlog,h.size]
  pos := h.pos
  outstanding := by rw [hlog,h.outstanding]
  committing := by rw [hlog,h.committing]
  fits := by rw [hlog]; exact h.fits
  clear := by rw [hdisk,h.clear]
  room := by rw [hlog]; exact h.room

theorem InOp.mono {j : ℕ} (h : InOp sb o k s) (hj : j ≤ k) : InOp sb o j s :=
  { h with room := by have := h.room; omega }

private theorem logWrite_eq_error {l : Log} {e : Panic} (hout : 1 ≤ l.outstanding)
    (hl : l.logWrite b = .error e) : e = .tooBigTransaction ∧ (LOGSIZE ≤ l.lh.n ∨ (l.size : ℤ) - 1 ≤ l.lh.n) := by
  unfold Log.logWrite at hl
  split at hl
  · rename_i hfull
    cases hl
    exact ⟨rfl,hfull⟩
  · rw [if_neg (by omega)] at hl
    split at hl <;> cases hl

/-- The room that `log_write` of a block takes: none when the block is in the log already. -/
def Log.takes (l : Log) (b : ℕ) : ℕ := if b ∈ l.lh.block then 0 else 1

theorem Log.takes_le (l : Log) (b : ℕ) : l.takes b ≤ 1 := by
  rw [takes]
  split <;> omega

theorem Log.takes_logged {l : Log} (h : b ∈ l.lh.block) : l.takes b = 0 := if_pos h

/-- `log_write` of a file system block, within the room of the log or at the risk of a panic. -/
theorem wp_logWrite_absorb {f : Unit → Code ℕ α} {Q : α → St → Prop} (h : InOp sb o k s)
    (hb : ¬sb.InLog b) (hlt : b < sb.size) (hX : 1 ≤ k ∨ X (.panic .tooBigTransaction))
    (hf : ∀ l, b ∈ l.lh.block → s.log.lh.block ⊆ l.lh.block →
      InOp sb o (k - s.log.takes b) { s with log := l } → (f ()).wp (St.exec p) X Q { s with log := l }) :
    ((logWrite b : Code ℕ Unit).bind f).wp (St.exec p) X Q s := by
  have hsize := sb.size_lt
  cases hl : s.log.logWrite b with
  | error e =>
    obtain ⟨rfl,hfull⟩ := logWrite_eq_error (h.outstanding ▸ h.pos) hl
    have he : St.exec p (.logWrite b) s = .error (.panic .tooBigTransaction) := by
      simp only [St.exec,hl]
    refine (wp_op_error he).mpr (hX.resolve_left fun hk => ?_)
    have := h.room
    have := h.size
    omega
  | ok q =>
    obtain ⟨r,l⟩ := q
    have he : St.exec p (.logWrite b) s = .ok ((),{ s with log := l }) := by
      simp only [St.exec,hl]
    obtain ⟨h₁,h₂,-,hstart,hlsize,hout,hcom,hlh⟩ := Log.logWrite_eq_ok hl
    have hmem : ∀ c, c ∈ l.lh.block ↔ c ∈ s.log.lh.block ∨ c = b := by
      intro c
      rw [hlh]
      split
      · rename_i hb
        exact ⟨.inl,fun hc => hc.elim id fun hc => hc ▸ hb⟩
      · rw [List.mem_append,List.mem_singleton]
    have hn : l.lh.n = s.log.lh.n + s.log.takes b := by
      rw [Logheader.n,hlh,Log.takes]
      split <;> simp [Logheader.n]
    have hle := s.log.takes_le b
    refine (wp_op_ok he).mpr (hf l ((hmem b).mpr (.inr rfl)) (fun c hc => (hmem c).mpr (.inl hc)) ?_)
    refine ⟨hstart.trans h.start,hlsize.trans h.size,h.pos,hout.trans h.outstanding,
      hcom.trans h.committing,⟨?_,?_,?_,?_⟩,h.clear,?_⟩
    · have := h.size
      change l.lh.n + 1 ≤ sb.nlog
      omega
    · rw [hlh]
      split
      · exact h.fits.nodup
      · rename_i hnot
        exact List.Nodup.append h.fits.nodup (List.nodup_singleton b) (by simpa using hnot)
    · intro c hc
      rcases (hmem c).mp hc with hc | rfl
      · exact h.fits.outside c hc
      · exact hb
    · intro c hc
      rcases (hmem c).mp hc with hc | rfl
      · exact h.fits.uint c hc
      · omega
    · have := h.room
      have := h.size
      change l.lh.n + (k - s.log.takes b) ≤ LOGSIZE ∧ l.lh.n + (k - s.log.takes b) + 1 ≤ sb.nlog
      omega

theorem wp_logWrite {f : Unit → Code ℕ α} {Q : α → St → Prop} (h : InOp sb o k s)
    (hb : ¬sb.InLog b) (hlt : b < sb.size) (hX : 1 ≤ k ∨ X (.panic .tooBigTransaction))
    (hf : ∀ l, InOp sb o (k - 1) { s with log := l } → (f ()).wp (St.exec p) X Q { s with log := l }) :
    ((logWrite b : Code ℕ Unit).bind f).wp (St.exec p) X Q s :=
  wp_logWrite_absorb h hb hlt hX fun l _ _ hl => hf l (hl.mono (Nat.sub_le_sub_left (Log.takes_le _ _) _))

def St.unloggedMaps (sb : Superblock) (s : St) : ℕ :=
  ((Finset.range (sb.size / BPB + 1)).filter fun i => i + sb.bmapstart ∉ s.log.lh.block).card

theorem St.unloggedMaps_le_nbitmap : s.unloggedMaps sb ≤ sb.size / BPB + 1 := by
  rw [unloggedMaps]
  exact (Finset.card_filter_le _ _).trans_eq (Finset.card_range _)

theorem St.unloggedMaps_le (h : s.log.lh.block ⊆ t.log.lh.block) : t.unloggedMaps sb ≤ s.unloggedMaps sb :=
  Finset.card_le_card (Finset.monotone_filter_right _ fun _ _ hi hs => hi (h hs))

theorem St.unloggedMaps_logged (h : s.log.lh.block ⊆ t.log.lh.block) (hb : b < sb.size)
    (ht : sb.bblock b ∈ t.log.lh.block) :
    t.unloggedMaps sb + s.log.takes (sb.bblock b) ≤ s.unloggedMaps sb := by
  rw [Log.takes]
  split
  · exact St.unloggedMaps_le h
  · rename_i hs
    refine Finset.card_lt_card (Finset.ssubset_iff_subset_ne.mpr
      ⟨Finset.monotone_filter_right _ fun _ _ hi hs => hi (h hs),fun he => ?_⟩)
    have hmem : b / BPB ∈ (Finset.range (sb.size / BPB + 1)).filter fun i => i + sb.bmapstart ∉ s.log.lh.block :=
      Finset.mem_filter.mpr ⟨Finset.mem_range.mpr (Nat.lt_succ_of_le (Nat.div_le_div_right (Nat.le_of_lt hb))),hs⟩
    rw [← he] at hmem
    exact (Finset.mem_filter.mp hmem).2 ht

theorem St.image_setBlk_log (s : St) (c : ℕ) (d : Block) (l : Log) :
    St.image sb { s.setBlk c d with log := l } = Image.ofBlocks sb (Function.update s.blk c d) := rfl

theorem bzero_wp (h : InOp sb o k s) (hb : sb.IsData b) (hX : 1 ≤ k ∨ X (.panic .tooBigTransaction)) :
    (bzero b : Code ℕ Unit).wp (St.exec p) X
      (fun _ t => InOp sb o (k - 1) t ∧ b ∈ t.log.lh.block ∧ s.log.lh.block ⊆ t.log.lh.block ∧ t.env = s.env ∧
        t.image sb = (s.image sb).setBlk b Bytes.zero) s := by
  rw [bzero,bind_eq,wp_bread,bind_eq,wp_setData]
  refine wp_logWrite_absorb (h.congr rfl rfl) hb.not_inLog hb.2 hX fun l hmem hsub hl => ?_
  rw [wp_brelse_last]
  exact ⟨hl.mono (Nat.sub_le_sub_left (Log.takes_le _ _) _),hmem,hsub,rfl,Image.ofBlocks_setData hb _⟩

/-! ## `balloc` -/

private theorem bit_test (d : Block) (i : ℕ) :
    d.get (i / 8) &&& (1#8 <<< (i % 8)) = 0#8 ↔ d.bit i = false :=
  Bytes.and_shiftOne_eq_zero _ (Nat.mod_lt _ (by omega))

theorem freeBit_eq_some {d : Block} {fuel bi r : ℕ} (h : freeBit sb d b fuel bi = some r) :
    r < BPB ∧ b + r < sb.size ∧ d.bit r = false := by
  induction fuel generalizing bi with
  | zero => cases h
  | succ fuel ih =>
    unfold freeBit at h
    split at h
    · rename_i hbi
      split at h
      · rename_i hbit
        cases h
        exact ⟨hbi.1,hbi.2,(bit_test d r).mp hbit⟩
      · exact ih h
    · cases h

theorem freeBit_eq_none {d : Block} {fuel bi : ℕ} (h : freeBit sb d b fuel bi = none)
    (hfuel : BPB ≤ bi + fuel) {r : ℕ} (hr : bi ≤ r) (hlt : r < BPB) (hsize : b + r < sb.size) :
    d.bit r = true := by
  induction fuel generalizing bi with
  | zero => omega
  | succ fuel ih =>
    unfold freeBit at h
    rw [if_pos ⟨by omega,by omega⟩] at h
    split at h
    · cases h
    · rename_i hbit
      rcases Nat.eq_or_lt_of_le hr with he | hlt'
      · subst he
        rw [bit_test] at hbit
        simpa using hbit
      · exact ih h (by omega) hlt'

/-- `balloc` took the free block `addr`, zeroed it and logged it, and logged `m` bitmap blocks that were not in the
log before. -/
structure Allocated (sb : Superblock) (o : ℤ) (k m : ℕ) (s : St) (addr : ℕ) (t : St) : Prop where
  pos : addr ≠ 0
  lt : addr < sb.size
  free : (s.image sb).used addr = false
  op : InOp sb o (k - (m + 1)) t
  le : m ≤ 1
  maps : t.unloggedMaps sb + m ≤ s.unloggedMaps sb
  logged : addr ∈ t.log.lh.block
  keeps : s.log.lh.block ⊆ t.log.lh.block
  env : t.env = s.env
  image : t.image sb = ((s.image sb).setUsed addr true).setBlk addr Bytes.zero

/-- What `balloc` leaves behind: nothing when every bit is set, else one block taken. -/
def Balloc (sb : Superblock) (o : ℤ) (k : ℕ) (s : St) (addr : ℕ) (t : St) : Prop :=
  (addr = 0 ∧ t = s ∧ ∀ c, c < sb.size → (s.image sb).used c = true) ∨ ∃ m, Allocated sb o k m s addr t

private theorem bblock_add (sb : Superblock) {bi : ℕ} (hb : BPB ∣ b) (hbi : bi < BPB) :
    sb.bblock (b + bi) = sb.bblock b ∧ (b + bi) % BPB = bi := by
  obtain ⟨c,rfl⟩ := hb
  simp only [Superblock.bblock,BPB] at *
  omega

private theorem ballocFrom_wp (h : InOp sb o k s)
    (hX : min 1 (s.unloggedMaps sb) + 1 ≤ k ∨ X (.panic .tooBigTransaction))
    (hfree : ∀ c, c < sb.size → (s.image sb).used c = false → sb.IsData c) (fuel : ℕ) (hb : BPB ∣ b)
    (hfuel : sb.size ≤ b + BPB * fuel) (hbelow : ∀ c, c < b → c < sb.size → (s.image sb).used c = true) :
    (ballocFrom sb fuel b : Code ℕ ℕ).wp (St.exec p) X (Balloc sb o k s) s := by
  induction fuel generalizing b with
  | zero =>
    rw [ballocFrom,wp_pure]
    exact .inl ⟨rfl,rfl,fun c hc => hbelow c (by omega) hc⟩
  | succ fuel ih =>
    rw [ballocFrom]
    split
    · rename_i hlt
      rw [bind_eq,wp_bread,bind_eq,wp_bdata]
      have hused : ∀ bi, bi < BPB → b + bi < sb.size →
          (s.image sb).used (b + bi) = (s.blk (sb.bblock b)).bit bi := by
        intro bi hbi hsize
        obtain ⟨h₁,h₂⟩ := bblock_add sb hb hbi
        rw [St.image,Image.ofBlocks_used hsize,h₁,h₂]
      cases hbit : freeBit sb (s.blk (sb.bblock b)) b BPB 0 with
      | none =>
        rw [bind_eq,wp_brelse]
        refine ih (Dvd.dvd.add hb dvd_rfl) (by rw [Nat.mul_succ] at hfuel; omega) fun c hc hsize => ?_
        by_cases hcb : c < b
        · exact hbelow c hcb hsize
        · have hc' := hused (c - b) (by omega) (by omega)
          rw [Nat.add_sub_cancel' (Nat.not_lt.mp hcb)] at hc'
          rw [hc']
          exact freeBit_eq_none hbit (by omega) (Nat.zero_le _) (by omega) (by omega)
      | some bi =>
        obtain ⟨hbi,hsize,hclear⟩ := freeBit_eq_some hbit
        have hfreebi : (s.image sb).used (b + bi) = false := by rw [hused bi hbi hsize,hclear]
        have hdata := hfree _ hsize hfreebi
        obtain ⟨h₁,h₂⟩ := bblock_add sb hb hbi
        have himage : Image.ofBlocks sb (Function.update s.blk (sb.bblock b)
            ((s.blk (sb.bblock b)).setBit bi)) = (s.image sb).setUsed (b + bi) true := by
          have := @Image.ofBlocks_setBit sb s.blk _ hsize
          rwa [h₁,h₂] at this
        dsimp only
        rw [bind_eq,wp_setData]
        refine wp_logWrite_absorb (h.congr rfl rfl) (Superblock.not_inLog_bblock b)
          (Nat.lt_of_lt_of_le (Superblock.bblock_lt hlt) Superblock.nmeta_le_size) (hX.imp_left fun h => by omega)
          fun l hmem hsub hl => ?_
        rw [bind_eq,wp_brelse,bind_eq]
        have hmaps := St.unloggedMaps_logged (s := s) (t := { s with log := l }) hsub hlt hmem
        have hle := s.log.takes_le (sb.bblock b)
        refine (bzero_wp hl hdata (hX.imp_left fun h => ?_)).seq ?_
        · change 1 ≤ k - s.log.takes (sb.bblock b)
          omega
        rintro ⟨⟩ t ⟨ht,hlogged,hsub',henv,himg⟩
        rw [wp_pure]
        refine .inr ⟨s.log.takes (sb.bblock b),hdata.pos,hsize,hfreebi,?_,hle,?_,hlogged,List.Subset.trans hsub hsub',henv,?_⟩
        · rwa [← Nat.sub_sub]
        · exact Nat.le_trans (Nat.add_le_add_right (St.unloggedMaps_le hsub') _) hmaps
        · rw [himg,St.image_setBlk_log,himage]
    · rw [wp_pure]
      exact .inl ⟨rfl,rfl,fun c hc => hbelow c (by omega) hc⟩

theorem balloc_wp (h : InOp sb o k s) (hX : min 1 (s.unloggedMaps sb) + 1 ≤ k ∨ X (.panic .tooBigTransaction))
    (hfree : ∀ c, c < sb.size → (s.image sb).used c = false → sb.IsData c) :
    (balloc sb : Code ℕ ℕ).wp (St.exec p) X (Balloc sb o k s) s :=
  ballocFrom_wp h hX hfree _ (dvd_zero _) (by simp only [BPB]; omega) fun c hc => absurd hc (Nat.not_lt_zero c)

theorem bfree_wp (h : InOp sb o k s) (hb : sb.IsData b) (hused : (s.image sb).used b = true)
    (hX : 1 ≤ k ∨ X (.panic .tooBigTransaction)) :
    (bfree sb b : Code ℕ Unit).wp (St.exec p) X
      (fun _ t => InOp sb o (k - 1) t ∧ t.env = s.env ∧ t.image sb = (s.image sb).setUsed b false) s := by
  rw [bfree,bind_eq,wp_bread,bind_eq,wp_bdata]
  rw [St.image,Image.ofBlocks_used hb.2] at hused
  dsimp only
  rw [if_neg (by rw [bit_test,hused]; decide),bind_eq,wp_setData]
  refine wp_logWrite (h.congr rfl rfl) (Superblock.not_inLog_bblock b)
    (Nat.lt_of_lt_of_le (Superblock.bblock_lt hb.2) Superblock.nmeta_le_size) hX fun l hl => ?_
  rw [wp_brelse_last]
  exact ⟨hl,rfl,Image.ofBlocks_clearBit hb.2⟩

end

end Xv6
