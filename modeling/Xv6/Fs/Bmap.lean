import Xv6.Fs.Alloc

/-! # `bmap`

A locked inode may be ahead of its copy on the disk. The view of an inode is the image
with that inode replaced by the one in memory; `iupdate` makes the image equal to it.
-/
namespace Xv6
open Library Prog

def St.view (sb : Superblock) (s : St) (ip : Fin NINODE) : Image :=
  (s.image sb).setIno (s.env.itable ip).inum (s.env.itable ip).din

section
variable {sb : Superblock} {p : Pid} {X : Halt → Prop} {α : Type} {s t : St} {o : ℤ} {k : ℕ} {ip : Fin NINODE}
variable {bn : ℕ}

theorem wp_setDin {d : Dinode} {f : Unit → Code ℕ α} {Q : α → St → Prop} :
    ((setDin ip d : Code ℕ Unit).bind f).wp (St.exec p) X Q s ↔
      (f ()).wp (St.exec p) X Q { s with env := s.env.setDin ip d } := by
  with_unfolding_all exact Iff.rfl

@[simp] theorem St.view_ino_self : ((s.view sb ip).ino (s.env.itable ip).inum) = (s.env.itable ip).din :=
  Function.update_self _ _ _

theorem St.view_blk : (s.view sb ip).blk = (s.image sb).blk := rfl

theorem St.view_eq_image (h : (s.env.itable ip).din = (s.image sb).ino (s.env.itable ip).inum) :
    s.view sb ip = s.image sb := by
  rw [view,h,Image.setIno_self]

/-- The second half of `bmap`, once the indirect block is known. -/
private def bmapEntry (sb : Superblock) (a bn : ℕ) : Code ℕ ℕ := do
  let bp ← bread a
  let d ← bdata bp
  let addr := ofLe (d.slice (4 * (bn - NDIRECT)) 4)
  if addr = 0 then
    let addr ← balloc sb
    if addr = 0 then
      brelse bp
      pure 0
    else
      let d ← bdata bp
      setData bp (d.splice (4 * (bn - NDIRECT)) (leBytes 4 addr))
      logWrite bp
      brelse bp
      pure addr
  else
    brelse bp
    pure addr

/-- `bmap` for one of the thirteen addresses. -/
private def bmapAddr (sb : Superblock) (ip : Fin NINODE) (a : Fin 13) : Code ℕ ℕ := do
  let i : Inode ← env (.inode ip)
  if (i.din.addrs a).toNat = 0 then
    let addr ← balloc sb
    if addr = 0 then pure 0
    else
      setDin ip { i.din with addrs := Function.update i.din.addrs a (BitVec.ofNat 32 addr) }
      pure addr
  else pure (i.din.addrs a).toNat

private theorem bmap_direct (h : bn < NDIRECT) :
    (bmap sb ip bn : Code ℕ ℕ) = bmapAddr sb ip (Fin.ofNat 13 bn) := by
  simp only [bmap,bmapAddr,if_pos h]

private theorem bmap_indirect (h : ¬bn < NDIRECT) (hbn : bn < MAXFILE) :
    (bmap sb ip bn : Code ℕ ℕ) = (bmapAddr sb ip 12).bind fun a =>
      if a = 0 then pure 0 else bmapEntry sb a bn := by
  have hlt : bn - NDIRECT < NINDIRECT := by
    simp only [NDIRECT,NINDIRECT,MAXFILE] at *
    omega
  simp only [bmap,bmapAddr,if_neg h,if_pos hlt]
  rfl

def St.Full (sb : Superblock) (s : St) : Prop := ∀ c, c < sb.size → (s.image sb).used c = true

/-- From `s` to `t` inode `ip` has been edited in memory and in its blocks, and its copy on
the disk has not been written yet. -/
structure Editing (sb : Superblock) (o : ℤ) (k : ℕ) (ip : Fin NINODE) (P : ℕ → Prop) (s t : St) : Prop where
  op : InOp sb o k t
  env : t.env = s.env.setDin ip (t.env.itable ip).din
  size : (t.env.itable ip).din.size = (s.env.itable ip).din.size
  ino : (t.image sb).ino = (s.image sb).ino
  edits : Image.Edits sb (s.view sb ip) (t.view sb ip) (s.env.itable ip).inum P

variable {P : ℕ → Prop}

theorem Editing.inum (h : Editing sb o k ip P s t) : (t.env.itable ip).inum = (s.env.itable ip).inum := by
  rw [h.env,Env.setDin_itable_self]

theorem Editing.proc (h : Editing sb o k ip P s t) : t.env.proc = s.env.proc := by
  rw [h.env]
  rfl

theorem Editing.refl (h : InOp sb o k s) (ho : (s.view sb ip).Own sb)
    (ha : (s.view sb ip).Alloc sb (s.env.itable ip).inum) : Editing sb o k ip P s s :=
  ⟨h,by simp,rfl,rfl,.refl ho ha⟩

theorem Editing.mono {Q : ℕ → Prop} {j : ℕ} (h : Editing sb o k ip P s t) (hj : j ≤ k) (hPQ : ∀ x, P x → Q x) :
    Editing sb o j ip Q s t := ⟨h.op.mono hj,h.env,h.size,h.ino,h.edits.mono hPQ⟩

theorem Editing.trans {u : St} {j : ℕ} (h : Editing sb o k ip P s t) (h' : Editing sb o j ip P t u) :
    Editing sb o j ip P s u where
  op := h'.op
  env := by rw [h'.env,h.env,Env.setDin_setDin,Env.setDin_itable_self]
  size := h'.size.trans h.size
  ino := h'.ino.trans h.ino
  edits := h.edits.trans (h.inum ▸ h'.edits)

theorem Editing.alloc (h : Editing sb o k ip P s t) : (t.view sb ip).Alloc sb (t.env.itable ip).inum := by
  rw [h.inum,h.edits.alloc_iff]
  exact h.edits.alloc

def St.unloggedIndirect (ip : Fin NINODE) (s : St) : ℕ :=
  if ((s.env.itable ip).din.addrs 12).toNat = 0 then 1 else s.log.takes ((s.env.itable ip).din.addrs 12).toNat

theorem St.unloggedIndirect_le : s.unloggedIndirect ip ≤ 1 := by
  rw [unloggedIndirect]
  split
  · exact Nat.le_refl 1
  · exact Log.takes_le _ _

theorem St.unloggedIndirect_logged {a : ℕ} (ha : ((s.env.itable ip).din.addrs 12).toNat = a) (h0 : a ≠ 0)
    (h : a ∈ s.log.lh.block) : s.unloggedIndirect ip = 0 := by
  rw [unloggedIndirect,ha,if_neg h0,Log.takes_logged h]

theorem St.unloggedIndirect_mono (h : s.log.lh.block ⊆ t.log.lh.block)
    (ha : (t.env.itable ip).din.addrs 12 = (s.env.itable ip).din.addrs 12) :
    t.unloggedIndirect ip ≤ s.unloggedIndirect ip := by
  rw [unloggedIndirect,unloggedIndirect,ha]
  split
  · exact Nat.le_refl 1
  · rw [Log.takes,Log.takes]
    split
    · exact Nat.zero_le _
    · rename_i ht
      rw [if_neg fun hs => ht (h hs)]

/-- Mapping a block brought the room of the log from `k` to `j` blocks: it logged the block itself, `m` bitmap blocks
and at most the indirect block. -/
structure Charged (sb : Superblock) (ip : Fin NINODE) (k j m : ℕ) (s t : St) : Prop where
  keeps : s.log.lh.block ⊆ t.log.lh.block
  indirect : t.unloggedIndirect ip ≤ s.unloggedIndirect ip
  maps : t.unloggedMaps sb + m ≤ s.unloggedMaps sb
  le : m + t.unloggedIndirect ip ≤ 1 + s.unloggedIndirect ip
  room : k + t.unloggedIndirect ip ≤ j + m + 1 + s.unloggedIndirect ip

theorem Charged.refl : Charged sb ip k k 0 s s :=
  ⟨List.Subset.refl _,Nat.le_refl _,Nat.le_refl _,by omega,by omega⟩

theorem Allocated.charged {m b a : ℕ} {u : St} (h : Allocated sb o k m s b t) (hsub : t.log.lh.block ⊆ u.log.lh.block)
    (htakes : t.log.takes a ≤ s.unloggedIndirect ip) (hzero : u.unloggedIndirect ip = 0) :
    Charged sb ip k (k - (m + 1) - t.log.takes a) m s u := by
  have := h.maps
  have := h.le
  have : u.unloggedMaps sb ≤ t.unloggedMaps sb := St.unloggedMaps_le hsub
  exact ⟨List.Subset.trans h.keeps hsub,by omega,by omega,by omega,by omega⟩

private theorem free_isData (ho : (s.view sb ip).Own sb) (c : ℕ) (hc : c < sb.size)
    (hf : (s.image sb).used c = false) : sb.IsData c := (ho.free hc hf).1

private theorem bmapAddr_wp (h : InOp sb o k s)
    (hX : min 1 (s.unloggedMaps sb) + 1 ≤ k ∨ X (.panic .tooBigTransaction))
    (ho : (s.view sb ip).Own sb) (ha : (s.view sb ip).Alloc sb (s.env.itable ip).inum) (a : Fin 13) :
    (bmapAddr sb ip a).wp (St.exec p) X (fun r t => r = (t.view sb ip).ref (s.env.itable ip).inum (.addr a) ∧
      ((r = (s.view sb ip).ref (s.env.itable ip).inum (.addr a) ∧ t = s ∧ (r = 0 → t.Full sb)) ∨
        (s.view sb ip).ref (s.env.itable ip).inum (.addr a) = 0 ∧ ∃ m, m ≤ 1 ∧ t.unloggedMaps sb + m ≤ s.unloggedMaps sb ∧
          Editing sb o (k - (m + 1)) ip P s t ∧ r ≠ 0 ∧ r ∈ t.log.lh.block ∧ s.log.lh.block ⊆ t.log.lh.block ∧
          (t.view sb ip).blk r = Bytes.zero ∧ ∀ c, c ≠ a → (t.env.itable ip).din.addrs c = (s.env.itable ip).din.addrs c)) s := by
  rw [bmapAddr,bind_eq,wp_inode]
  have href : (s.view sb ip).ref (s.env.itable ip).inum (.addr a) = ((s.env.itable ip).din.addrs a).toNat := by
    rw [Image.ref,St.view_ino_self]
  split
  · rename_i h0
    rw [bind_eq]
    refine (balloc_wp h hX (free_isData ho)).seq ?_
    rintro b t (⟨rfl,rfl,hfull⟩ | ⟨m,hall⟩)
    · rw [if_pos rfl,wp_pure,href,h0]
      exact ⟨rfl,.inl ⟨rfl,rfl,fun _ => hfull⟩⟩
    · have henv := hall.env
      rw [if_neg hall.pos,bind_eq,wp_setDin]
      have hassign := Image.assign_addr (a := a) ho ha (by rw [St.view_ino_self,h0]) hall.lt hall.free
      rw [St.view_ino_self] at hassign
      have hview (d : Dinode) : ({ t with env := t.env.setDin ip d } : St).view sb ip =
          (((s.view sb ip).setUsed b true).setBlk b Bytes.zero).setIno (s.env.itable ip).inum d := by
        rw [St.view,St.view,Env.setDin_itable_self,henv]
        change (t.image sb).setIno _ _ = _
        rw [hall.image,← Image.setIno_setUsed,← Image.setIno_setBlk,Image.setIno_setIno]
      rw [← hview] at hassign
      rw [wp_pure]
      refine ⟨hassign.self.symm,.inr ⟨by rw [href,h0],m,hall.le,hall.maps,
        ⟨hall.op.congr rfl rfl,?_,by simp [henv],?_,hassign.edits ho⟩,hall.pos,hall.logged,hall.keeps,hassign.zero,?_⟩⟩
      · simp [henv]
      · change (t.image sb).ino = _
        rw [hall.image]
        rfl
      · intro c hc
        simp [hc]
  · rename_i h0
    rw [wp_pure]
    exact ⟨href.symm,.inl ⟨href.symm,rfl,fun hr => absurd hr h0⟩⟩

private theorem ofBlock_indirect (h : ¬bn < NDIRECT) (hbn : bn < MAXFILE) :
    ∃ e : Fin NINDIRECT, Slot.ofBlock bn = .entry e ∧ e.val = bn - NDIRECT := by
  refine ⟨Fin.ofNat NINDIRECT (bn - NDIRECT),?_,?_⟩
  · rw [Slot.ofBlock,if_neg h]
  · simp only [Fin.val_ofNat,NINDIRECT,NDIRECT,MAXFILE] at *
    omega

theorem St.blk_of_ref {l : Slot} (ho : (s.view sb ip).Own sb) {i : ℕ} (ha : (s.view sb ip).Alloc sb i)
    (hr : (s.view sb ip).ref i l ≠ 0) :
    s.blk ((s.view sb ip).ref i l) = (s.image sb).blk ((s.view sb ip).ref i l) :=
  (Image.ofBlocks_blk (ho.isData ha hr)).symm

theorem St.blk_of_addr (ho : (s.view sb ip).Own sb) {i : ℕ} (ha : (s.view sb ip).Alloc sb i)
    (h : (s.view sb ip).addr i bn ≠ 0) :
    s.blk ((s.view sb ip).addr i bn) = (s.image sb).blk ((s.view sb ip).addr i bn) :=
  (Image.ofBlocks_blk (ho.addr_isData ha h)).symm

private theorem bmapEntry_wp (h : InOp sb o k s)
    (hX : min 1 (s.unloggedMaps sb) + 2 ≤ k ∨ X (.panic .tooBigTransaction))
    (ho : (s.view sb ip).Own sb) (ha : (s.view sb ip).Alloc sb (s.env.itable ip).inum)
    (hdir : ¬bn < NDIRECT) (hbn : bn < MAXFILE) {a : ℕ}
    (hind : (s.view sb ip).indirect (s.env.itable ip).inum = a) (ha0 : a ≠ 0) :
    (bmapEntry sb a bn).wp (St.exec p) X (fun r t => (∃ j m, Editing sb o j ip P s t ∧ Charged sb ip k j m s t) ∧
      r = (t.view sb ip).addr (s.env.itable ip).inum bn ∧ (r = 0 → t.Full sb) ∧
      ((s.view sb ip).addr (s.env.itable ip).inum bn = 0 → r ≠ 0 → r ∈ t.log.lh.block)) s := by
  obtain ⟨e,hslot,hval⟩ := ofBlock_indirect hdir hbn
  have hdin : ((s.env.itable ip).din.addrs 12).toNat = a := by
    rw [← hind,Image.indirect,St.view_ino_self]
  have hdata : sb.IsData a := by
    have := ho.isData (k := .addr 12) ha (by rw [Image.ref]; change (s.view sb ip).indirect _ ≠ 0; rwa [hind])
    rwa [← hind]
  have hblk : s.blk a = (s.view sb ip).blk a := (Image.ofBlocks_blk hdata).symm
  have hentry : (s.view sb ip).ref (s.env.itable ip).inum (.entry e) =
      ofLe ((s.blk a).slice (4 * (bn - NDIRECT)) 4) := by
    rw [Image.ref_entry hind ha0,hblk,hval]
  have haddr {m : Image} : m.addr (s.env.itable ip).inum bn = m.ref (s.env.itable ip).inum (.entry e) := by
    rw [Image.addr_of_lt hbn,hslot]
  rw [bmapEntry,bind_eq,wp_bread,bind_eq,wp_bdata]
  dsimp only
  split
  · rename_i h0
    rw [bind_eq]
    refine (balloc_wp h (hX.imp_left fun h => by omega) (free_isData ho)).seq ?_
    rintro b t (⟨rfl,rfl,hfull⟩ | ⟨m,hall⟩)
    · rw [if_pos rfl,bind_eq,wp_brelse,wp_pure]
      exact ⟨⟨k,0,.refl h ho ha,.refl⟩,by rw [haddr,hentry,h0],fun _ => hfull,fun _ hr => absurd rfl hr⟩
    · have henv := hall.env
      rw [if_neg hall.pos,bind_eq,wp_bdata,bind_eq,wp_setData]
      have hab : a ≠ b := by
        have := (ho.free hall.lt hall.free).2 _ (.addr 12) ha
        rwa [← hind]
      have htblk : t.blk a = (s.view sb ip).blk a := by
        rw [← @Image.ofBlocks_blk sb t.blk _ hdata]
        change (t.image sb).blk a = _
        rw [hall.image,Image.setBlk_blk,Function.update_of_ne hab]
        rfl
      have hassign := Image.assign_entry (e := e) ho ha (by rwa [hind]) (by rw [hentry,h0]) hall.lt hall.free
      rw [hind,hval,← htblk] at hassign
      have hmaps := hall.maps
      have hle := hall.le
      refine wp_logWrite_absorb (hall.op.congr rfl rfl) hdata.not_inLog hdata.2 (hX.imp_left fun h => by omega)
        fun l hmem hsub hl => ?_
      rw [bind_eq,wp_brelse,wp_pure]
      have hview : ({ t.setBlk a ((t.blk a).splice (4 * (bn - NDIRECT)) (leBytes 4 b)) with log := l } : St).view sb ip =
          (((s.view sb ip).setUsed b true).setBlk b Bytes.zero).setBlk a
            ((t.blk a).splice (4 * (bn - NDIRECT)) (leBytes 4 b)) := by
        rw [St.view,St.view,St.image_setBlk_log,Image.ofBlocks_setData hdata]
        change ((t.image sb).setBlk a _).setIno (t.env.itable ip).inum (t.env.itable ip).din = _
        rw [hall.image,henv]
        rfl
      rw [← hview] at hassign
      -- the indirect block is in the log from now on, and took room only if it was not before
      have hzero : St.unloggedIndirect ip
          { t.setBlk a ((t.blk a).splice (4 * (bn - NDIRECT)) (leBytes 4 b)) with log := l } = 0 :=
        St.unloggedIndirect_logged (by rw [← hdin]; simp [henv]) ha0 hmem
      have htakes : t.log.takes a ≤ s.unloggedIndirect ip := by
        have hle : t.unloggedIndirect ip ≤ s.unloggedIndirect ip := St.unloggedIndirect_mono hall.keeps (by rw [henv])
        rwa [St.unloggedIndirect,henv,hdin,if_neg ha0] at hle
      refine ⟨⟨_,m,⟨hl,?_,by simp [henv],?_,hassign.edits ho⟩,hall.charged hsub htakes hzero⟩,?_,
        fun h0 => absurd h0 hall.pos,fun _ _ => hsub hall.logged⟩
      · simp [henv]
      · rw [St.image_setBlk_log,Image.ofBlocks_setData hdata]
        change (t.image sb).ino = _
        rw [hall.image]
        rfl
      · rw [haddr]
        exact hassign.self.symm
  · rename_i h0
    rw [bind_eq,wp_brelse,wp_pure]
    exact ⟨⟨k,0,.refl h ho ha,.refl⟩,by rw [haddr,hentry],fun hr => absurd hr h0,
      fun hr => absurd (hentry.symm.trans (haddr.symm.trans hr)) h0⟩

private theorem addr_direct (hdir : bn < NDIRECT) (m : Image) (i : ℕ) :
    m.addr i bn = m.ref i (.addr (Fin.ofNat 13 bn)) := by
  rw [Image.addr_of_lt (Nat.lt_trans hdir (by decide)),Slot.ofBlock,if_pos hdir]

theorem bmap_direct_wp (h : InOp sb o k s) (hX : 2 ≤ k ∨ X (.panic .tooBigTransaction))
    (ho : (s.view sb ip).Own sb) (ha : (s.view sb ip).Alloc sb (s.env.itable ip).inum) (hdir : bn < NDIRECT) :
    (bmap sb ip bn : Code ℕ ℕ).wp (St.exec p) X (fun r t => Editing sb o (k - 2) ip P s t ∧
      r = (t.view sb ip).addr (s.env.itable ip).inum bn ∧ (r = 0 → t = s ∧ t.Full sb) ∧
      ((s.view sb ip).addr (s.env.itable ip).inum bn = 0 → r ≠ 0 → (t.view sb ip).blk r = Bytes.zero)) s := by
  rw [bmap_direct hdir,addr_direct hdir]
  refine (bmapAddr_wp (P := P) h (hX.imp_left fun h => by omega) ho ha _).imp ?_
  rintro r t ⟨hr,⟨hr',rfl,hfull⟩ | ⟨-,m,hm,-,hedit,hr0,-,-,hzero,-⟩⟩
  · rw [addr_direct hdir]
    exact ⟨.refl (h.mono (Nat.sub_le _ _)) ho ha,hr,fun h0 => ⟨rfl,hfull h0⟩,fun h0 hr0 => absurd (hr'.trans h0) hr0⟩
  · rw [addr_direct hdir]
    exact ⟨hedit.mono (by omega) fun _ hx => hx,hr,fun h0 => absurd h0 hr0,fun _ _ => hzero⟩

/-- `bmap` of a block that is not mapped, in a log with room for the blocks that this logs. -/
theorem bmap_wp (h : InOp sb o k s)
    (hX : min (1 + s.unloggedIndirect ip) (s.unloggedMaps sb) + s.unloggedIndirect ip + 2 ≤ k ∨
      X (.panic .tooBigTransaction))
    (ho : (s.view sb ip).Own sb) (ha : (s.view sb ip).Alloc sb (s.env.itable ip).inum) (hbn : bn < MAXFILE) :
    (bmap sb ip bn : Code ℕ ℕ).wp (St.exec p) X (fun r t => (∃ j m, Editing sb o j ip P s t ∧ Charged sb ip k j m s t) ∧
      r = (t.view sb ip).addr (s.env.itable ip).inum bn ∧ (r = 0 → t.Full sb) ∧
      ((s.view sb ip).addr (s.env.itable ip).inum bn = 0 → r ≠ 0 → r ∈ t.log.lh.block)) s := by
  have hX' : min 1 (s.unloggedMaps sb) + 1 ≤ k ∨ X (.panic .tooBigTransaction) := hX.imp_left fun h => by omega
  by_cases hdir : bn < NDIRECT
  · rw [bmap_direct hdir,addr_direct hdir]
    refine (bmapAddr_wp (P := P) h hX' ho ha _).imp ?_
    rintro r t ⟨hr,⟨hr',rfl,hfull⟩ | ⟨-,m,hm,hmaps,hedit,hr0,hlog,hsub,-,hother⟩⟩
    · rw [addr_direct hdir]
      exact ⟨⟨k,0,.refl h ho ha,.refl⟩,hr,hfull,fun h0 hr0 => absurd (hr'.trans h0) hr0⟩
    · have hind : t.unloggedIndirect ip ≤ s.unloggedIndirect ip := by
        refine St.unloggedIndirect_mono hsub (hother 12 fun h12 => ?_)
        have h12 := congrArg Fin.val h12
        simp only [NDIRECT,Fin.val_ofNat] at *
        omega
      rw [addr_direct hdir]
      exact ⟨⟨_,m,hedit,hsub,hind,hmaps,by omega,by omega⟩,hr,fun h0 => absurd h0 hr0,fun _ _ => hlog⟩
  · rw [bmap_indirect hdir hbn]
    obtain ⟨e,hslot,-⟩ := ofBlock_indirect hdir hbn
    have hdin (u : St) : (u.view sb ip).ref (u.env.itable ip).inum (.addr 12) = ((u.env.itable ip).din.addrs 12).toNat := by
      rw [Image.ref,St.view_ino_self]
    refine (bmapAddr_wp (P := P) h hX' ho ha 12).seq ?_
    rintro a t ⟨hr,⟨hr',rfl,hfull⟩ | ⟨hold,m,hm,hmaps,hedit,ha0,hlog,hsub,hnew,-⟩⟩
    · split
      · rename_i h0
        rw [wp_pure]
        exact ⟨⟨k,0,.refl h ho ha,.refl⟩,by rw [Image.addr_of_lt hbn,hslot,Image.ref_entry_zero (hr.symm.trans h0)],
          fun _ => hfull h0,fun _ h0 => absurd rfl h0⟩
      · rename_i h0
        exact bmapEntry_wp h (hX.imp_left fun h => by omega) ho ha hdir hbn hr.symm h0
    · rw [← hedit.inum,hdin] at hr
      have hone : s.unloggedIndirect ip = 1 := by rw [St.unloggedIndirect,if_pos (hdin s ▸ hold)]
      have hzero : t.unloggedIndirect ip = 0 := St.unloggedIndirect_logged hr.symm ha0 hlog
      rw [if_neg ha0]
      refine (bmapEntry_wp (P := P) hedit.op (hX.imp_left fun h => by omega) hedit.edits.own hedit.alloc hdir hbn
        ((hdin t).trans hr.symm) ha0).imp ?_
      rintro r u ⟨⟨j,m',hedit',hch⟩,hr',hfull,hlog'⟩
      rw [hedit.inum] at hr' hlog'
      have := hch.indirect
      have := hch.maps
      have := hch.le
      have := hch.room
      refine ⟨⟨j,m + m',hedit.trans hedit',List.Subset.trans hsub hch.keeps,by omega,by omega,by omega,by omega⟩,hr',hfull,?_⟩
      intro _ hr0
      -- the new indirect block has no entries
      refine hlog' ?_ hr0
      rw [Image.addr_of_lt hbn,hslot,Image.ref_entry (hedit.inum ▸ (hdin t).trans hr.symm) ha0,hnew,Bytes.slice_zero,
        ofLe_replicate_zero]

theorem bmap_mapped {Q : ℕ → St → Prop} (ho : (s.view sb ip).Own sb)
    (ha : (s.view sb ip).Alloc sb (s.env.itable ip).inum)
    (h : (s.view sb ip).addr (s.env.itable ip).inum bn ≠ 0)
    (hQ : Q ((s.view sb ip).addr (s.env.itable ip).inum bn) s) :
    (bmap sb ip bn : Code ℕ ℕ).wp (St.exec p) X Q s := by
  have hbn := Image.addr_lt h
  rw [Image.addr_of_lt hbn] at h hQ
  have haddr (a : Fin 13) : (s.view sb ip).ref (s.env.itable ip).inum (.addr a) =
      ((s.env.itable ip).din.addrs a).toNat := by
    rw [Image.ref,St.view_ino_self]
  by_cases hdir : bn < NDIRECT
  · rw [Slot.ofBlock,if_pos hdir,haddr] at h hQ
    rw [bmap_direct hdir,bmapAddr,bind_eq,wp_inode,if_neg h,wp_pure]
    exact hQ
  · obtain ⟨e,hslot,hval⟩ := ofBlock_indirect hdir hbn
    rw [hslot] at h hQ
    have hind : (s.view sb ip).ref (s.env.itable ip).inum (.addr 12) ≠ 0 := fun h0 => h (Image.ref_entry_zero h0)
    have hdata := St.blk_of_ref ho ha hind
    rw [Image.ref_entry rfl hind,hval] at h hQ
    rw [bmap_indirect hdir hbn,wp_bind,bmapAddr,bind_eq,wp_inode,if_neg (by rwa [haddr] at hind)]
    rw [haddr] at hind hdata
    have hslice : ofLe ((s.blk ((s.env.itable ip).din.addrs 12).toNat).slice (4 * (bn - NDIRECT)) 4) =
        ofLe (((s.view sb ip).blk ((s.view sb ip).indirect (s.env.itable ip).inum)).slice
          (4 * (bn - NDIRECT)) 4) := by
      rw [hdata,Image.indirect,St.view_ino_self]
      rfl
    rw [wp_pure,if_neg hind,bmapEntry,bind_eq,wp_bread,bind_eq,wp_bdata]
    dsimp only
    rw [if_neg (by rwa [hslice]),bind_eq,wp_brelse,hslice,wp_pure]
    exact hQ

theorem iupdate_wp (h : InOp sb o k s) (hi : (s.env.itable ip).inum < sb.ninodes)
    (hX : 1 ≤ k ∨ X (.panic .tooBigTransaction)) :
    (iupdate sb ip : Code ℕ Unit).wp (St.exec p) X
      (fun _ t => InOp sb o (k - 1) t ∧ t.env = s.env ∧ t.image sb = s.view sb ip) s := by
  have hlt : sb.iblock (s.env.itable ip).inum < sb.size := Nat.lt_of_lt_of_le (Superblock.iblock_lt hi)
    (Superblock.bmapstart_le_nmeta.trans Superblock.nmeta_le_size)
  rw [iupdate,bind_eq,wp_inode,bind_eq,wp_bread,bind_eq,wp_bdata,bind_eq,wp_setData]
  refine wp_logWrite (h.congr rfl rfl) (Superblock.not_inLog_iblock _) hlt hX fun l hl => ?_
  rw [wp_brelse_last]
  exact ⟨hl,rfl,Image.ofBlocks_toBlock hi _⟩

end

end Xv6
