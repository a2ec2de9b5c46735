import Xv6.Mkfs.Code
import Xv6.Fs.Ownership

/-! # `iappend`

`mkfs` hands out blocks in order, so that the blocks below `freeblock` are the ones in
use; the bit map says so only at the very end. The image of a state is therefore what its
blocks mean, with the bit map that `balloc` will write. Appending to a file is an edit of
that image which leaves every other file alone.
-/
namespace Xv6
open Library
open Function (update update_eq_self update_of_ne update_self)

def Slot.start : Slot → ℕ
  | .addr k => k.val * BSIZE
  | .entry j => (NDIRECT + j.val) * BSIZE

theorem Slot.start_ofBlock {bn : ℕ} (h : bn < MAXFILE) : (Slot.ofBlock bn).start = bn * BSIZE := by
  unfold ofBlock
  split
  · simp only [start,Fin.val_ofNat,NDIRECT] at *
    rw [Nat.mod_eq_of_lt (by omega)]
  · simp only [start,Fin.val_ofNat,NDIRECT,NINDIRECT,MAXFILE] at *
    rw [Nat.mod_eq_of_lt (by omega),Nat.add_sub_cancel' (by omega)]

theorem Slot.dvd_start (k : Slot) : BSIZE ∣ k.start := by
  cases k <;> exact Nat.dvd_mul_left _ _

theorem Slot.start_eq (bn : ℕ) (h : bn < MAXFILE) (k : Slot) :
    k.start = bn * BSIZE ↔ k = .ofBlock bn ∨ bn = NDIRECT ∧ k = .addr 12 := by
  constructor
  · intro he
    cases k with
    | addr a =>
      have ha := a.isLt
      simp only [start,BSIZE,NDIRECT] at *
      by_cases h12 : bn = 12
      · refine .inr ⟨h12,?_⟩
        rw [show a = 12 from Fin.ext (show a.val = 12 by omega)]
      · refine .inl ?_
        rw [ofBlock,if_pos (by simp only [NDIRECT]; omega)]
        congr 1
        refine Fin.ext ?_
        simp only [Fin.val_ofNat]
        omega
    | entry j =>
      refine .inl ?_
      have hj := j.isLt
      simp only [start,BSIZE,NDIRECT,NINDIRECT] at *
      rw [ofBlock,if_neg (by simp only [NDIRECT]; omega)]
      congr 1
      refine Fin.ext ?_
      simp only [Fin.val_ofNat,NDIRECT,NINDIRECT]
      omega
  · rintro (rfl | ⟨rfl,rfl⟩)
    · exact start_ofBlock h
    · rfl

namespace Image
variable {m m' : Image} {sb : Superblock} {i n fb fb' : ℕ} {k : Slot} {c : List Byte} {t : BitVec 16}

/-- Exactly the places that the first `n` bytes of inode `i` need are in use. -/
def Mapped (m : Image) (i n : ℕ) : Prop := ∀ k, m.ref i k ≠ 0 ↔ k.start < n

theorem Mapped.addr (h : m.Mapped i n) (hn : n ≤ MAXFILE * BSIZE) (bn : ℕ) : m.addr i bn ≠ 0 ↔ bn * BSIZE < n := by
  by_cases hbn : bn < MAXFILE
  · rw [addr_of_lt hbn,h,Slot.start_ofBlock hbn]
  · constructor
    · exact fun ha => absurd (addr_lt ha) hbn
    · intro hlt
      have := Nat.mul_le_mul_right BSIZE (Nat.not_lt.mp hbn)
      omega

/-- The bytes of inode `i` are `c`, followed by zeros to the end of the last block. -/
structure Holds (m : Image) (i : ℕ) (c : List Byte) : Prop where
  mapped : m.Mapped i c.length
  bytes : ∀ x, m.addr i (x / BSIZE) ≠ 0 → m.byteAt i x = c.getD x 0

theorem Holds.setSize (h : m.Holds i c) (z : BitVec 32) :
    (m.setIno i { m.ino i with size := z }).Holds i c := by
  have href : (m.setIno i { m.ino i with size := z }).ref i = m.ref i :=
    ref_congr (by simp) fun _ => rfl
  refine ⟨fun k => by rw [href,h.mapped k],fun x hx => ?_⟩
  rw [addr_congr href] at hx
  rw [byteAt,addr_congr href]
  exact h.bytes x hx

structure IsFile (m : Image) (i : ℕ) (t : BitVec 16) (c : List Byte) : Prop extends m.Holds i c where
  type : (m.ino i).type = t
  nlink : (m.ino i).nlink = 1
  size : m.size i = c.length

structure Pool (sb : Superblock) (fb : ℕ) (m : Image) : Prop where
  used : m.used = fun b => decide (b < fb)
  own : m.Own sb
  zero : ∀ b, fb ≤ b → m.blk b = Bytes.zero

theorem Pool.ref_lt (h : Pool sb fb m) (hi : m.Alloc sb i) (hr : m.ref i k ≠ 0) : m.ref i k < fb := by
  have := h.own.used hi hr
  rw [h.used] at this
  simpa using this

/-- Place `k` of inode `i` is in use, or has been given the next free block. -/
def Provides (sb : Superblock) (m m' : Image) (i : ℕ) (k : Slot) (fb fb' : ℕ) : Prop :=
  m.ref i k ≠ 0 ∧ m' = m ∧ fb' = fb ∨ Assign sb m m' i k fb ∧ fb' = fb + 1

theorem Assign.pool (h : Assign sb m m' i k fb) (hm : Pool sb fb m) : Pool sb (fb + 1) m' where
  used := by
    rw [h.used,hm.used]
    funext b
    by_cases hb : b = fb
    · subst hb
      simp
    · rw [update_of_ne hb]
      simp only [decide_eq_decide]
      omega
  own := h.own hm.own
  zero := by
    intro b hb
    rw [h.data b (by omega),hm.zero b (by omega)]
    intro he
    subst he
    by_cases h0 : m.indirect i = 0
    · omega
    · have : m.indirect i < fb := hm.ref_lt (k := .addr 12) h.alloc h0
      omega

theorem Provides.pool (h : Provides sb m m' i k fb fb') (hm : Pool sb fb m) : Pool sb fb' m' := by
  obtain ⟨-,rfl,rfl⟩ | ⟨ha,rfl⟩ := h
  · exact hm
  · exact ha.pool hm

theorem Provides.edits {P : ℕ → Prop} (h : Provides sb m m' i k fb fb') (hm : Pool sb fb m)
    (hi : m.Alloc sb i) : Edits sb m m' i P := by
  obtain ⟨-,rfl,rfl⟩ | ⟨ha,rfl⟩ := h
  · exact .refl hm.own hi
  · exact ha.edits hm.own

theorem Provides.ne_zero (h : Provides sb m m' i k fb fb') (hm : Pool sb fb m) : m'.ref i k ≠ 0 := by
  obtain ⟨hr,rfl,rfl⟩ | ⟨ha,rfl⟩ := h
  · exact hr
  · rw [ha.self]
    exact (hm.own.free ha.lt ha.free).1.pos

theorem Provides.other {l : Slot} (h : Provides sb m m' i k fb fb') (hi : m.Alloc sb i) (hl : l ≠ k) :
    m'.ref i l = m.ref i l := by
  obtain ⟨-,rfl,rfl⟩ | ⟨ha,rfl⟩ := h
  · rfl
  · exact ha.other i l hi fun he => hl (Prod.mk.inj he).2

theorem Provides.fresh (h : Provides sb m m' i k fb fb') (hr : m.ref i k = 0) :
    m'.blk (m'.ref i k) = Bytes.zero := by
  obtain ⟨hr',-,-⟩ | ⟨ha,-⟩ := h
  · exact absurd hr hr'
  · rw [ha.self,ha.zero]

theorem Provides.count (h : Provides sb m m' i k fb fb') : fb' = fb + if m.ref i k = 0 then 1 else 0 := by
  obtain ⟨hr,-,rfl⟩ | ⟨ha,rfl⟩ := h
  · rw [if_neg hr]
    rfl
  · rw [if_pos ha.empty]

/-! ## Mapping one more block -/

/-- The number of blocks that a file of `n` bytes takes, its indirect block included. -/
def blocks (n : ℕ) : ℕ := (n + (BSIZE - 1)) / BSIZE + if NDIRECT * BSIZE < n then 1 else 0

theorem blocks_mono {a b : ℕ} (h : a ≤ b) : blocks a ≤ blocks b := by
  unfold blocks
  have := Nat.div_le_div_right (c := BSIZE) (Nat.add_le_add_right h (BSIZE - 1))
  split <;> split <;> omega

theorem blocks_inside (h : n % BSIZE ≠ 0) : blocks (n + 1) = blocks n := by
  simp only [blocks,BSIZE,NDIRECT] at *
  split <;> split <;> omega

theorem blocks_next (h : n % BSIZE = 0) : blocks (n + 1) = blocks n + 1 + if n / BSIZE = NDIRECT then 1 else 0 := by
  simp only [blocks,BSIZE,NDIRECT] at *
  split <;> split <;> split <;> omega

theorem Mapped.inside (h : m.Mapped i n) (hn : n % BSIZE ≠ 0) : m.Mapped i (n + 1) := by
  intro k
  rw [h]
  have := k.dvd_start
  simp only [BSIZE] at *
  omega

theorem Mapped.next (h : m.Mapped i n) (hn : n % BSIZE = 0) (hlt : n < MAXFILE * BSIZE)
    (hnew : m'.ref i (.ofBlock (n / BSIZE)) ≠ 0) (hind : n / BSIZE = NDIRECT → m'.ref i (.addr 12) ≠ 0)
    (hold : ∀ l, l ≠ .ofBlock (n / BSIZE) → ¬(n / BSIZE = NDIRECT ∧ l = .addr 12) → m'.ref i l = m.ref i l) :
    m'.Mapped i (n + 1) := by
  intro l
  have he := Slot.start_eq (n / BSIZE) (by simp only [BSIZE,MAXFILE] at *; omega) l
  rw [show n / BSIZE * BSIZE = n by simp only [BSIZE] at *; omega] at he
  rw [Nat.lt_succ_iff_lt_or_eq,he]
  by_cases h₁ : l = .ofBlock (n / BSIZE)
  · subst h₁
    simp [hnew]
  by_cases h₂ : n / BSIZE = NDIRECT ∧ l = .addr 12
  · obtain ⟨h₂,rfl⟩ := h₂
    simp [hind h₂,h₂]
  · rw [hold l h₁ h₂,h l]
    simp [h₁,h₂]

end Image

namespace Mkfs

/-! ## Runs that come to their end -/

section
variable {α β : Type} {Q : α → State → Prop} {s : State} {sb : Superblock}

/-- `c` started in `s` comes to its end, and then `Q` holds. -/
def Ends (c : M α) (Q : α → State → Prop) (s : State) : Prop := ∃ a t, c s = some (a,t) ∧ Q a t

theorem ends_pure {a : α} : Ends (pure a) Q s ↔ Q a s := by
  constructor
  · rintro ⟨b,t,h,hQ⟩
    cases h
    exact hQ
  · exact fun h => ⟨a,s,rfl,h⟩

theorem ends_bind {c : M β} {f : β → M α} : Ends (c >>= f) Q s ↔ Ends c (fun b => Ends (f b) Q) s := by
  have hrun : (c >>= f) s = (c s).bind fun r => f r.1 r.2 := rfl
  constructor
  · rintro ⟨a,t,h,hQ⟩
    rw [hrun] at h
    obtain ⟨r,hr,h⟩ := Option.bind_eq_some_iff.mp h
    exact ⟨r.1,r.2,hr,a,t,h,hQ⟩
  · rintro ⟨b,u,hc,a,t,h,hQ⟩
    refine ⟨a,t,?_,hQ⟩
    rw [hrun,hc]
    exact h

theorem Ends.imp {Q' : α → State → Prop} {c : M α} (h : Ends c Q s) (hQ : ∀ a t, Q a t → Q' a t) : Ends c Q' s := by
  obtain ⟨a,t,hc,hq⟩ := h
  exact ⟨a,t,hc,hQ a t hq⟩

theorem Ends.seq {Q' : β → State → Prop} {c : M β} {f : β → M α} (h : Ends c Q' s)
    (hf : ∀ b t, Q' b t → Ends (f b) Q t) : Ends (c >>= f) Q s := ends_bind.mpr (h.imp hf)

theorem ends_wsect {sec : ℕ} {buf : Block} {Q : Unit → State → Prop} :
    Ends (wsect sec buf) Q s ↔ Q () { s with img := update s.img sec buf } := by
  constructor
  · rintro ⟨a,t,h,hQ⟩
    cases h
    exact hQ
  · exact fun h => ⟨_,_,rfl,h⟩

theorem ends_rsect {sec : ℕ} {Q : Block → State → Prop} (h : sec < sb.size) (hQ : Q (s.img sec) s) :
    Ends (rsect sb sec) Q s := ⟨_,_,by rw [rsect,if_pos h],hQ⟩

theorem ends_nextBlock {Q : ℕ → State → Prop} (hQ : Q s.freeblock { s with freeblock := s.freeblock + 1 }) :
    Ends nextBlock Q s := ⟨_,_,rfl,hQ⟩

theorem ends_assert {p : Prop} [Decidable p] {Q : Unit → State → Prop} (h : p) (hQ : Q () s) :
    Ends (assert p) Q s := by
  rw [assert,if_pos h,ends_pure]
  exact hQ

end

/-! ## The image of a state -/

def State.image (sb : Superblock) (s : State) : Image :=
  { Image.ofBlocks sb s.img with used := fun b => decide (b < s.freeblock) }

/-- The image with inode `inum` as the local variable `din` has it. -/
def State.view (sb : Superblock) (s : State) (inum : ℕ) (din : Dinode) : Image := (s.image sb).setIno inum din

structure Kept (sb : Superblock) (s t : State) : Prop where
  freeinode : t.freeinode = s.freeinode
  img : ∀ b, b < sb.nmeta → (∀ i, i < sb.ninodes → b ≠ sb.iblock i) → t.img b = s.img b

section
variable {sb : Superblock} {s t u : State} {inum n : ℕ} {din : Dinode} {Q : Unit → State → Prop}

theorem Kept.refl (sb : Superblock) (s : State) : Kept sb s s := ⟨rfl,fun _ _ _ => rfl⟩

theorem Kept.trans (h : Kept sb s t) (h' : Kept sb t u) : Kept sb s u :=
  ⟨h'.freeinode.trans h.freeinode,fun b hb hi => (h'.img b hb hi).trans (h.img b hb hi)⟩

theorem Kept.data {b : ℕ} (hb : sb.IsData b) (d : Block) : Kept sb s { s with img := update s.img b d } := by
  refine ⟨rfl,fun c hc _ => update_of_ne ?_ _ _⟩
  have := hb.1
  omega

theorem iblock_lt_size (hi : inum < sb.ninodes) : sb.iblock inum < sb.size :=
  Nat.lt_of_lt_of_le (Superblock.iblock_lt hi) (Superblock.bmapstart_le_nmeta.trans Superblock.nmeta_le_size)

theorem rinode_ends {Q : Dinode → State → Prop} (hi : inum < sb.ninodes) (hQ : Q ((s.image sb).ino inum) s) :
    Ends (rinode sb inum) Q s := by
  refine ends_bind.mpr (ends_rsect (iblock_lt_size hi) (ends_pure.mpr ?_))
  rwa [← Image.ofBlocks_ino hi]

theorem winode_ends {d : Dinode} (hi : inum < sb.ninodes)
    (hQ : ∀ t, t.freeblock = s.freeblock → t.image sb = (s.image sb).setIno inum d → Kept sb s t → Q () t) :
    Ends (winode sb inum d) Q s := by
  refine ends_bind.mpr (ends_rsect (iblock_lt_size hi) (ends_wsect.mpr (hQ _ rfl ?_ ⟨rfl,?_⟩)))
  · rw [State.image,Image.ofBlocks_toBlock hi]
    rfl
  · exact fun b _ hb => update_of_ne (hb inum hi) _ _

theorem State.image_setData {b : ℕ} (hb : sb.IsData b) (d : Block) :
    State.image sb { s with img := update s.img b d } = (s.image sb).setBlk b d := by
  rw [State.image,Image.ofBlocks_setData hb]
  rfl

theorem State.img_of_data {b : ℕ} (hb : sb.IsData b) : (s.image sb).blk b = s.img b := Image.ofBlocks_blk hb

/-! ## Finding the block -/

theorem State.view_ino_self : (s.view sb inum din).ino inum = din := update_self _ _ _

theorem State.view_setData {b : ℕ} (hb : sb.IsData b) (d : Block) :
    State.view sb { s with img := update s.img b d } inum din = (s.view sb inum din).setBlk b d := by
  rw [State.view,State.image_setData hb,Image.setIno_setBlk]
  rfl

theorem State.view_next {d : Dinode} (hp : Image.Pool sb s.freeblock (s.view sb inum din)) :
    State.view sb { s with freeblock := s.freeblock + 1 } inum d =
      (((s.view sb inum din).setUsed s.freeblock true).setBlk s.freeblock Bytes.zero).setIno inum d := by
  ext1
  · funext b
    rw [Image.setIno_used,Image.setBlk_used,Image.setUsed_used,hp.used]
    by_cases hb : b = s.freeblock
    · subst hb
      simp [State.view,State.image]
    · rw [update_of_ne hb]
      simp only [State.view,State.image,Image.setIno_used,decide_eq_decide]
      omega
  · simp [State.view,State.image]
  · rw [Image.setIno_blk,Image.setBlk_blk,Image.setUsed_blk,← hp.zero _ (Nat.le_refl _),update_eq_self]
    rfl

theorem free_next (hp : Image.Pool sb s.freeblock (s.view sb inum din)) :
    (s.view sb inum din).used s.freeblock = false := by
  rw [hp.used]
  simp

theorem allocAddr_ends {k : Fin 13} (hp : Image.Pool sb s.freeblock (s.view sb inum din))
    (hi : (s.view sb inum din).Alloc sb inum)
    (hroom : (s.view sb inum din).ref inum (.addr k) = 0 → s.freeblock < sb.size) :
    Ends (allocAddr din k) (fun din' t => Kept sb s t ∧ Image.Provides sb (s.view sb inum din)
      (t.view sb inum din') inum (.addr k) s.freeblock t.freeblock) s := by
  have href : (s.view sb inum din).ref inum (.addr k) = (din.addrs k).toNat := by
    rw [Image.ref,State.view_ino_self]
  rw [href] at hroom
  rw [allocAddr]
  split
  · rename_i h0
    refine ends_bind.mpr (ends_nextBlock (ends_pure.mpr ⟨⟨rfl,fun _ _ _ => rfl⟩,.inr ⟨?_,rfl⟩⟩))
    have ha := Image.assign_addr (a := k) hp.own hi (by rw [State.view_ino_self,h0]) (hroom h0) (free_next hp)
    rw [State.view_ino_self] at ha
    rwa [State.view_next hp]
  · rename_i h0
    exact ends_pure.mpr ⟨.refl sb s,.inl ⟨by rwa [href],rfl,rfl⟩⟩

theorem allocEntry_ends {a : ℕ} {e : Fin NINDIRECT} (hp : Image.Pool sb s.freeblock (s.view sb inum din))
    (hi : (s.view sb inum din).Alloc sb inum) (ha : (s.view sb inum din).ref inum (.addr 12) = a) (ha0 : a ≠ 0)
    (hroom : (s.view sb inum din).ref inum (.entry e) = 0 → s.freeblock < sb.size) :
    Ends (allocEntry sb a e.val) (fun x t => Kept sb s t ∧ x = (t.view sb inum din).ref inum (.entry e) ∧
      Image.Provides sb (s.view sb inum din) (t.view sb inum din) inum (.entry e) s.freeblock t.freeblock) s := by
  have hdata : sb.IsData a := ha ▸ hp.own.isData hi (ha ▸ ha0)
  have hblk : s.img a = (s.view sb inum din).blk a := (State.img_of_data hdata).symm
  have href : (s.view sb inum din).ref inum (.entry e) = ofLe ((s.img a).slice (4 * e.val) 4) := by
    rw [hblk]
    exact Image.ref_entry ha ha0
  refine ends_bind.mpr (ends_rsect hdata.2 ?_)
  split
  · rename_i h0
    refine ends_bind.mpr (ends_nextBlock (ends_bind.mpr (ends_wsect.mpr (ends_pure.mpr ?_))))
    have hassign := Image.assign_entry hp.own hi (by rw [← ha] at ha0; exact ha0) (href.trans h0)
      (hroom (href.trans h0)) (free_next hp)
    have hview : State.view sb { s with
          img := update s.img a ((s.img a).splice (4 * e.val) (leBytes 4 s.freeblock)),
          freeblock := s.freeblock + 1 } inum din =
        (((s.view sb inum din).setUsed s.freeblock true).setBlk s.freeblock Bytes.zero).setBlk a
          (((s.view sb inum din).blk a).splice (4 * e.val) (leBytes 4 s.freeblock)) := by
      refine (State.view_setData (s := { s with freeblock := s.freeblock + 1 }) hdata _).trans ?_
      rw [State.view_next hp,hblk]
      congr 1
      ext1
      · rfl
      · simp [State.view]
      · rfl
    have hind : (s.view sb inum din).indirect inum = a := ha
    rw [hind,← hview] at hassign
    exact ⟨Kept.data hdata _ |>.trans ⟨rfl,fun _ _ _ => rfl⟩,hassign.self.symm,.inr ⟨hassign,rfl⟩⟩
  · rename_i h0
    exact ends_pure.mpr ⟨.refl sb s,href.symm,.inl ⟨by rwa [href],rfl,rfl⟩⟩

/-- The block for the byte at offset `n` has been found. -/
structure Found (sb : Superblock) (inum n : ℕ) (s : State) (din : Dinode) (x : ℕ) (t : State) (din' : Dinode) : Prop where
  kept : Kept sb s t
  pool : Image.Pool sb t.freeblock (t.view sb inum din')
  edits : Image.Edits sb (s.view sb inum din) (t.view sb inum din') inum (fun _ => False)
  mapped : (t.view sb inum din').Mapped inum (n + 1)
  addr : x = (t.view sb inum din').addr inum (n / BSIZE)
  fresh : (s.view sb inum din).addr inum (n / BSIZE) = 0 → (t.view sb inum din').blk x = Bytes.zero
  count : t.freeblock + Image.blocks n = s.freeblock + Image.blocks (n + 1)

theorem fileBlock_ends (hp : Image.Pool sb s.freeblock (s.view sb inum din))
    (hi : (s.view sb inum din).Alloc sb inum) (hm : (s.view sb inum din).Mapped inum n) (hn : n < MAXFILE * BSIZE)
    (hroom : s.freeblock + Image.blocks (n + 1) ≤ sb.size + Image.blocks n) :
    Ends (fileBlock sb din (n / BSIZE)) (fun r t => Found sb inum n s din r.2 t r.1) s := by
  have hbn : n / BSIZE < MAXFILE := by
    simp only [BSIZE,MAXFILE] at *
    omega
  have hstart : ∀ l, (s.view sb inum din).ref inum l = 0 ↔ n ≤ l.start := by
    intro l
    rw [← Nat.not_lt,← hm l,not_not]
  have hof := hstart (.ofBlock (n / BSIZE))
  rw [Slot.start_ofBlock hbn] at hof
  have hle : n / BSIZE * BSIZE ≤ n := Nat.div_mul_le_self _ _
  have halign : (s.view sb inum din).ref inum (.ofBlock (n / BSIZE)) = 0 ↔ n % BSIZE = 0 := by
    rw [hof]
    simp only [BSIZE] at *
    omega
  rw [fileBlock]
  split
  · rename_i hlt
    have hslot : Slot.ofBlock (n / BSIZE) = .addr (Fin.ofNat 13 (n / BSIZE)) := if_pos hlt
    rw [hslot] at halign
    refine (allocAddr_ends hp hi fun h0 => ?_).seq ?_
    · rw [Image.blocks_next (halign.mp h0)] at hroom
      omega
    rintro din' t ⟨hk,hpr⟩
    refine ends_pure.mpr ⟨hk,hpr.pool hp,hpr.edits hp hi,?_,?_,?_,?_⟩
    · by_cases h0 : n % BSIZE = 0
      · refine hm.next h0 hn (hslot ▸ hpr.ne_zero hp) (fun h => ?_) fun l hl _ => hpr.other hi (hslot ▸ hl)
        simp only [NDIRECT] at *
        omega
      · obtain ⟨-,he,-⟩ := hpr.resolve_right fun ha => h0 (halign.mp ha.1.empty)
        rw [he]
        exact hm.inside h0
    · rw [Image.addr_of_lt hbn,hslot,Image.ref,State.view_ino_self]
    · intro h0
      rw [Image.addr_of_lt hbn,hslot] at h0
      have hf := hpr.fresh h0
      rwa [Image.ref,State.view_ino_self] at hf
    · rw [hpr.count]
      by_cases h0 : n % BSIZE = 0
      · rw [if_pos (halign.mpr h0),Image.blocks_next h0,if_neg (by simp only [NDIRECT] at *; omega)]
        omega
      · rw [if_neg (fun h => h0 (halign.mp h)),Image.blocks_inside h0]
        omega
  · rename_i hge
    have hlt : n / BSIZE - NDIRECT < NINDIRECT := by
      simp only [NDIRECT,NINDIRECT,MAXFILE] at *
      omega
    have hslot : Slot.ofBlock (n / BSIZE) = .entry (Fin.ofNat NINDIRECT (n / BSIZE - NDIRECT)) := if_neg hge
    have hval : (Fin.ofNat NINDIRECT (n / BSIZE - NDIRECT)).val = n / BSIZE - NDIRECT := Nat.mod_eq_of_lt hlt
    generalize he : Fin.ofNat NINDIRECT (n / BSIZE - NDIRECT) = e at hslot hval
    have hind : (s.view sb inum din).ref inum (.addr 12) = 0 ↔ n % BSIZE = 0 ∧ n / BSIZE = NDIRECT := by
      rw [hstart]
      change n ≤ 12 * BSIZE ↔ _
      simp only [BSIZE,NDIRECT] at *
      omega
    rw [hslot] at halign
    have hne : Slot.entry e ≠ .addr 12 := by simp
    refine (allocAddr_ends hp hi fun h0 => ?_).seq ?_
    · rw [Image.blocks_next (hind.mp h0).1] at hroom
      omega
    rintro din' t ⟨hk,hpr⟩
    have hp' := hpr.pool hp
    have hedit := hpr.edits (P := fun _ => False) hp hi
    have hi' := (hedit.alloc_iff inum).mpr hi
    have hother := hpr.other hi hne
    have hcount := hpr.count
    have ha : (t.view sb inum din').ref inum (.addr 12) = (din'.addrs 12).toNat := by
      rw [Image.ref,State.view_ino_self]
    rw [← hval]
    refine (allocEntry_ends hp' hi' ha (ha ▸ hpr.ne_zero hp) fun h0 => ?_).seq ?_
    · rw [hother] at h0
      rw [Image.blocks_next (halign.mp h0)] at hroom
      split at hcount
      · rename_i h
        rw [if_pos (hind.mp h).2] at hroom
        omega
      · omega
    rintro x u ⟨hk',hx,hpr'⟩
    refine ends_pure.mpr ⟨hk.trans hk',hpr'.pool hp',hedit.trans (hpr'.edits hp' hi'),?_,?_,?_,?_⟩
    · by_cases h0 : n % BSIZE = 0
      · refine hm.next h0 hn (hslot ▸ hpr'.ne_zero hp') (fun _ => ?_) fun l hl hl' => ?_
        · rw [hpr'.other hi' hne.symm]
          exact hpr.ne_zero hp
        · rw [hpr'.other hi' (hslot ▸ hl)]
          by_cases hl12 : l = .addr 12
          · subst hl12
            obtain ⟨-,he,-⟩ := hpr.resolve_right fun ha => hl' ⟨(hind.mp ha.1.empty).2,rfl⟩
            rw [he]
          · exact hpr.other hi hl12
      · obtain ⟨-,he,-⟩ := hpr.resolve_right fun ha => h0 (hind.mp ha.1.empty).1
        obtain ⟨-,he',-⟩ := hpr'.resolve_right fun ha => h0 (halign.mp (hother ▸ ha.1.empty))
        rw [he',he]
        exact hm.inside h0
    · rw [Image.addr_of_lt hbn,hslot,hx]
    · intro h0
      rw [Image.addr_of_lt hbn,hslot,← hother] at h0
      rw [hx]
      exact hpr'.fresh h0
    · rw [hpr'.count,hcount,hother]
      by_cases h0 : n % BSIZE = 0
      · rw [if_pos (halign.mpr h0),Image.blocks_next h0]
        by_cases h12 : n / BSIZE = NDIRECT
        · rw [if_pos (hind.mpr ⟨h0,h12⟩),if_pos h12]
          omega
        · rw [if_neg (fun h => h12 (hind.mp h).2),if_neg h12]
          omega
      · rw [if_neg (fun h => h0 (halign.mp h)),if_neg (fun h => h0 (hind.mp h).1),Image.blocks_inside h0]
        omega

/-! ## Writing the bytes -/

theorem Found.bytes {c : List Byte} {x y : ℕ} {t : State} {din' : Dinode}
    (h : Found sb inum c.length s din x t din') (hc : (s.view sb inum din).Holds inum c)
    (hlen : c.length < MAXFILE * BSIZE) (hy : (t.view sb inum din').addr inum (y / BSIZE) ≠ 0) :
    (t.view sb inum din').byteAt inum y = c.getD y 0 := by
  by_cases h0 : (s.view sb inum din).addr inum (y / BSIZE) = 0
  · -- the block is the new one
    have hnew := (h.mapped.addr (by omega) _).mp hy
    have hold := (hc.mapped.addr (by omega) (y / BSIZE)).not.mp (not_not.mpr h0)
    have hbn : y / BSIZE = c.length / BSIZE := by
      simp only [BSIZE] at *
      omega
    have hge : c.length ≤ y := by
      simp only [BSIZE] at *
      omega
    rw [hbn] at h0
    rw [Image.byteAt,hbn,← h.addr,h.fresh h0,Bytes.get_zero,List.getD_eq_default _ _ hge]
  · rw [h.edits.bytes y not_false h0]
    exact hc.bytes y h0

theorem Found.addr_ne_zero {x : ℕ} {t : State} {din' : Dinode} (h : Found sb inum n s din x t din')
    (hn : n < MAXFILE * BSIZE) : (t.view sb inum din').addr inum (n / BSIZE) ≠ 0 := by
  rw [h.mapped.addr (by omega)]
  have := Nat.div_mul_le_self n BSIZE
  omega

theorem Found.write {c q : List Byte} {x : ℕ} {t : State} {din' : Dinode}
    (h : Found sb inum c.length s din x t din') (hi : (s.view sb inum din).Alloc sb inum)
    (hc : (s.view sb inum din).Holds inum c) (hlen : c.length < MAXFILE * BSIZE) (hq : q ≠ [])
    (hfit : c.length % BSIZE + q.length ≤ BSIZE) :
    ((t.view sb inum din').setBlk x (((t.view sb inum din').blk x).splice (c.length % BSIZE) q)).Holds inum (c ++ q) := by
  have hne := h.addr_ne_zero hlen
  have hi' := (h.edits.alloc_iff inum).mpr hi
  have href := h.pool.own.ref_setBlk (j := inum) hi' hne
    (((t.view sb inum din').blk x).splice (c.length % BSIZE) q) hi'
  rw [← h.addr] at href
  have hpos : 0 < q.length := List.length_pos_iff.mpr hq
  constructor
  · intro k
    have := k.dvd_start
    rw [href,h.mapped k,List.length_append]
    simp only [BSIZE] at *
    omega
  · intro y hy
    rw [Image.addr_congr href] at hy
    rw [Image.byteAt,Image.addr_congr href,Image.setBlk_blk]
    have hold := h.bytes hc hlen hy
    have hmod := Nat.mod_lt y (show 0 < BSIZE by decide)
    by_cases hbn : y / BSIZE = c.length / BSIZE
    · rw [hbn,← h.addr,update_self,Bytes.get_splice _ _ _ hmod]
      rw [Image.byteAt,hbn,← h.addr] at hold
      split
      · rename_i hin
        rw [List.getD_append_right _ _ _ _ (by simp only [BSIZE] at *; omega)]
        congr 1
        simp only [BSIZE] at *
        omega
      · rename_i hout
        rw [hold]
        by_cases hlt : y < c.length
        · rw [List.getD_append _ _ _ _ hlt]
        · have hge : c.length + q.length ≤ y := by
            simp only [BSIZE] at *
            omega
          rw [List.getD_eq_default _ _ (by omega),List.getD_eq_default _ _ (by rw [List.length_append]; omega)]
    · have hyx : (t.view sb inum din').addr inum (y / BSIZE) ≠ x := by
        rw [h.addr]
        exact fun he => hbn (h.pool.own.addr_inj hi' hi' hne he).2
      rw [update_of_ne hyx]
      refine hold.trans ?_
      have hlt := (h.mapped.addr (by omega) _).mp hy
      rw [List.getD_append _ _ _ _ (by simp only [BSIZE] at *; omega)]

/-- Where the loop of `iappend` has got to: inode `inum` holds `c`, and `din` is ahead of its copy. -/
structure Appending (sb : Superblock) (inum : ℕ) (m : Image) (s₀ : State) (c : List Byte) (s : State) (din : Dinode) :
    Prop where
  kept : Kept sb s₀ s
  edits : Image.Edits sb m (s.view sb inum din) inum (fun _ => True)
  pool : Image.Pool sb s.freeblock (s.view sb inum din)
  holds : (s.view sb inum din).Holds inum c

theorem Appending.alloc {m : Image} {c : List Byte} (h : Appending sb inum m t c s din) :
    (s.view sb inum din).Alloc sb inum := (h.edits.alloc_iff inum).mpr h.edits.alloc

theorem Found.isData {x : ℕ} {t : State} {din' : Dinode} (h : Found sb inum n s din x t din')
    (hi : (s.view sb inum din).Alloc sb inum) (hn : n < MAXFILE * BSIZE) : sb.IsData x := by
  rw [h.addr]
  exact h.pool.own.addr_isData ((h.edits.alloc_iff inum).mpr hi) (h.addr_ne_zero hn)

theorem Found.lt {x : ℕ} {t : State} {din' : Dinode} (h : Found sb inum n s din x t din')
    (hi : (s.view sb inum din).Alloc sb inum) (hn : n < MAXFILE * BSIZE) : x < t.freeblock := by
  have hne := h.addr_ne_zero hn
  have hbn := Image.addr_lt hne
  rw [h.addr]
  rw [Image.addr_of_lt hbn] at hne ⊢
  exact h.pool.ref_lt ((h.edits.alloc_iff inum).mpr hi) hne

theorem Appending.write {m : Image} {s₀ : State} {c q : List Byte} {x : ℕ} {din' : Dinode}
    (h : Appending sb inum m s₀ c s din) (hf : Found sb inum c.length s din x t din')
    (hlen : c.length < MAXFILE * BSIZE) (hq : q ≠ []) (hfit : c.length % BSIZE + q.length ≤ BSIZE) :
    Appending sb inum m s₀ (c ++ q)
      { t with img := update t.img x ((t.img x).splice (c.length % BSIZE) q) } din' := by
  have hdata := hf.isData h.alloc hlen
  have hi := (hf.edits.alloc_iff inum).mpr h.alloc
  have hview : State.view sb { t with img := update t.img x ((t.img x).splice (c.length % BSIZE) q) } inum din' =
      (t.view sb inum din').setBlk x ((t.img x).splice (c.length % BSIZE) q) := State.view_setData hdata _
  have hblk : t.img x = (t.view sb inum din').blk x := (State.img_of_data hdata).symm
  have hedit := Image.edits_setBlk (P := fun _ => True) (d := (t.img x).splice (c.length % BSIZE) q)
    hf.pool.own hi (hf.addr_ne_zero hlen) fun _ _ hP => absurd trivial hP
  rw [← hf.addr,← hview] at hedit
  refine ⟨(h.kept.trans hf.kept).trans (.data hdata _),
    (h.edits.trans (hf.edits.mono fun _ hx => hx.elim)).trans hedit,⟨hf.pool.used,hedit.own,fun b hb => ?_⟩,?_⟩
  · have hb : t.freeblock ≤ b := hb
    have hlt := hf.lt h.alloc hlen
    rw [hview,Image.setBlk_blk,update_of_ne (by omega),hf.pool.zero b hb]
  · rw [hview,hblk]
    exact hf.write h.alloc h.holds hlen hq hfit

theorem iappendLoop_ends {m : Image} {s₀ : State} (fuel : ℕ) {c p : List Byte} (hfuel : p.length ≤ fuel)
    (h : Appending sb inum m s₀ c s din) (hlen : c.length + p.length ≤ MAXFILE * BSIZE)
    (hroom : s.freeblock + Image.blocks (c.length + p.length) ≤ sb.size + Image.blocks c.length) :
    Ends (iappendLoop sb fuel din c.length p) (fun r t => Appending sb inum m s₀ (c ++ p) t r.1 ∧
      r.2 = c.length + p.length ∧
      t.freeblock + Image.blocks c.length = s.freeblock + Image.blocks (c.length + p.length)) s := by
  induction fuel generalizing s din c p with
  | zero =>
    have hnil : p = [] := List.eq_nil_of_length_eq_zero (by omega)
    subst hnil
    rw [iappendLoop,ends_pure,List.append_nil]
    exact ⟨h,rfl,rfl⟩
  | succ fuel ih =>
    rw [iappendLoop]
    split
    · rename_i hpos
      have hlt : c.length < MAXFILE * BSIZE := by omega
      refine ends_bind.mpr (ends_assert (by simp only [BSIZE,MAXFILE] at *; omega) ?_)
      have hmono := Image.blocks_mono (show c.length + 1 ≤ c.length + p.length by omega)
      refine (fileBlock_ends h.pool h.alloc h.holds.mapped hlt (by omega)).seq ?_
      rintro ⟨din',x⟩ t hf
      change Found sb inum c.length s din x t din' at hf
      generalize hn1 : min p.length ((c.length / BSIZE + 1) * BSIZE - c.length) = n1
      have hmod : c.length - c.length / BSIZE * BSIZE = c.length % BSIZE := by
        simp only [BSIZE]
        omega
      have hfit : 0 < n1 ∧ n1 ≤ p.length ∧ c.length % BSIZE + n1 ≤ BSIZE := by
        simp only [BSIZE] at *
        omega
      have htake : (p.take n1).length = n1 := List.length_take_of_le hfit.2.1
      refine ends_bind.mpr (ends_rsect (hf.isData h.alloc hlt).2 (ends_bind.mpr (ends_wsect.mpr ?_)))
      dsimp only
      rw [hmod]
      have hstep := h.write hf hlt (q := p.take n1) (List.length_pos_iff.mp (by omega)) (by omega)
      have hl : (c ++ p.take n1).length = c.length + n1 := by rw [List.length_append,htake]
      have hdrop : (p.drop n1).length = p.length - n1 := List.length_drop
      have hsum : c.length + n1 + (p.length - n1) = c.length + p.length := by omega
      have hsame : Image.blocks (c.length + n1) = Image.blocks (c.length + 1) := by
        simp only [Image.blocks,BSIZE,NDIRECT] at *
        split <;> split <;> omega
      have hcount := hf.count
      have hrec := ih (p := p.drop n1) (by omega) hstep (by omega) (by
        rw [hl,hdrop,hsum,hsame]
        change t.freeblock + _ ≤ _
        omega)
      rw [hl] at hrec
      refine hrec.imp ?_
      rintro r u ⟨hu,hr,hfb⟩
      rw [hdrop,hsum] at hr hfb
      rw [List.append_assoc,List.take_append_drop] at hu
      rw [hsame] at hfb
      change u.freeblock + _ = t.freeblock + _ at hfb
      exact ⟨hu,hr,by omega⟩
    · rename_i hpos
      have hnil : p = [] := List.eq_nil_of_length_eq_zero (by omega)
      subst hnil
      rw [ends_pure,List.append_nil]
      exact ⟨h,rfl,rfl⟩

/-! ## Files -/

abbrev Files := ℕ → Option (BitVec 16 × List Byte)

structure Laid (sb : Superblock) (fb : ℕ) (m : Image) (fs : Files) : Prop where
  pool : Image.Pool sb fb m
  file : ∀ i t c, fs i = some (t,c) → m.Alloc sb i ∧ m.IsFile i t c
  rest : ∀ i, fs i = none → ¬m.Alloc sb i

variable {m m' : Image} {fb fb' : ℕ} {fs : Files} {ty : BitVec 16} {c p : List Byte}

theorem Laid.edits {P : ℕ → Prop} (h : Laid sb fb m fs) (he : Image.Edits sb m m' inum P)
    (hp : Image.Pool sb fb' m') (hf : m'.IsFile inum ty c) :
    Laid sb fb' m' (update fs inum (some (ty,c))) where
  pool := hp
  file := by
    intro j t d hj
    by_cases hji : j = inum
    · subst hji
      rw [update_self] at hj
      cases hj
      exact ⟨(he.alloc_iff j).mpr he.alloc,hf⟩
    · rw [update_of_ne hji] at hj
      obtain ⟨ha,hd⟩ := h.file j t d hj
      have href := he.other j ha hji
      refine ⟨(he.alloc_iff j).mpr ha,⟨⟨fun k => by rw [href,hd.mapped k],fun x hx => ?_⟩,?_,?_,?_⟩⟩
      · rw [Image.addr_congr href] at hx
        rw [he.byteAt_other ha hji hx,hd.bytes x hx]
      · rw [he.ino_ne hji,hd.type]
      · rw [he.ino_ne hji,hd.nlink]
      · rw [he.size_ne hji,hd.size]
  rest := by
    intro j hj
    have hji : j ≠ inum := by
      rintro rfl
      simp at hj
    rw [update_of_ne hji] at hj
    rw [he.alloc_iff]
    exact h.rest j hj

theorem iappend_ends (h : Laid sb s.freeblock (s.image sb) fs) (hf : fs inum = some (ty,c))
    (hlen : c.length + p.length ≤ MAXFILE * BSIZE)
    (hroom : s.freeblock + Image.blocks (c.length + p.length) ≤ sb.size + Image.blocks c.length) :
    Ends (iappend sb inum p) (fun _ t => Kept sb s t ∧
      Laid sb t.freeblock (t.image sb) (update fs inum (some (ty,c ++ p))) ∧
      t.freeblock + Image.blocks c.length = s.freeblock + Image.blocks (c.length + p.length)) s := by
  obtain ⟨hi,hfile⟩ := h.file inum ty c hf
  refine ends_bind.mpr (rinode_ends hi.2.1 ?_)
  have hview : s.view sb inum ((s.image sb).ino inum) = s.image sb := Image.setIno_self _ _
  have hstart : Appending sb inum (s.image sb) s c s ((s.image sb).ino inum) := by
    refine ⟨.refl sb s,?_,?_,?_⟩
    · rw [hview]
      exact .refl h.pool.own hi
    · rw [hview]
      exact h.pool
    · rw [hview]
      exact hfile.toHolds
  have hsize : ((s.image sb).ino inum).size.toNat = c.length := hfile.size
  rw [hsize]
  refine (iappendLoop_ends _ (Nat.le_refl _) hstart hlen hroom).seq ?_
  rintro ⟨din,off⟩ t ⟨ha,hoff,hcount⟩
  change Appending sb inum (s.image sb) s (c ++ p) t din at ha
  change off = c.length + p.length at hoff
  refine winode_ends hi.2.1 fun u hfb himage hkept => ?_
  have himage' : u.image sb = (t.view sb inum din).setIno inum
      { (t.view sb inum din).ino inum with size := BitVec.ofNat 32 off } := by
    rw [himage,State.view_ino_self,State.view,Image.setIno_setIno]
  have hedit := Image.edits_size (P := fun _ => True) ha.pool.own ha.alloc (BitVec.ofNat 32 off)
  have hholds := ha.holds.setSize (BitVec.ofNat 32 off)
  have hself := ha.edits.ino_self
  rw [← himage'] at hedit hholds
  have hpool : Image.Pool sb u.freeblock (u.image sb) := by
    refine ⟨?_,hedit.own,?_⟩
    · rfl
    · intro b hb
      rw [himage']
      exact ha.pool.zero b (hfb ▸ hb)
  refine ⟨ha.kept.trans hkept,h.edits (ha.edits.trans hedit) hpool ⟨hholds,?_,?_,?_⟩,by omega⟩
  · rw [himage',Image.setIno_ino,update_self,hself]
    exact hfile.type
  · rw [himage',Image.setIno_ino,update_self,hself]
    exact hfile.nlink
  · rw [Image.size,himage',Image.setIno_ino,update_self,List.length_append,← hoff,BitVec.toNat_ofNat]
    exact Nat.mod_eq_of_lt (by simp only [BSIZE,MAXFILE] at *; omega)

end

end Mkfs

end Xv6
