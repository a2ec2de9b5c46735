import Xv6.Fs.Image
import Xv6.Library.Owned

/-! # Block ownership and the mapping of file blocks

The places of an inode that can refer to a block are its thirteen addresses and the
entries of its indirect block. Ownership says that allocated inodes own exactly the
data blocks marked in the bit map, each at one place.
-/
namespace Xv6
open Library
open Function (update update_of_ne update_self)

inductive Slot
  | addr (k : Fin 13)
  | entry (j : Fin NINDIRECT)
  deriving DecidableEq

def Slot.ofBlock (bn : ℕ) : Slot :=
  if bn < NDIRECT then .addr (Fin.ofNat 13 bn) else .entry (Fin.ofNat NINDIRECT (bn - NDIRECT))

theorem Slot.ofBlock_inj {a b : ℕ} (ha : a < MAXFILE) (hb : b < MAXFILE)
    (h : Slot.ofBlock a = Slot.ofBlock b) : a = b := by
  unfold Slot.ofBlock at h
  simp only [NDIRECT,NINDIRECT,MAXFILE] at *
  split at h <;> split at h <;>
    simp only [Slot.addr.injEq,Slot.entry.injEq,reduceCtorEq,Fin.ext_iff,Fin.val_ofNat] at h
  · omega
  · omega

theorem Slot.ofBlock_ne_indirect (bn : ℕ) : Slot.ofBlock bn ≠ .addr 12 := by
  unfold Slot.ofBlock
  split
  · intro h
    simp only [Slot.addr.injEq,Fin.ext_iff,Fin.val_ofNat,NDIRECT] at *
    omega
  · simp

namespace Image
variable (m : Image)

def indirect (i : ℕ) : ℕ := ((m.ino i).addrs 12).toNat

def ref (i : ℕ) : Slot → ℕ
  | .addr k => ((m.ino i).addrs k).toNat
  | .entry j => if m.indirect i = 0 then 0 else ofLe ((m.blk (m.indirect i)).slice (4 * j.val) 4)

/-- The block that holds the `bn`th block of inode `i`, 0 if there is none. -/
def addr (i bn : ℕ) : ℕ := if bn < MAXFILE then m.ref i (Slot.ofBlock bn) else 0

def size (i : ℕ) : ℕ := (m.ino i).size.toNat

def byteAt (i x : ℕ) : Byte := (m.blk (m.addr i (x / BSIZE))).get (x % BSIZE)

def bytesAt (i off n : ℕ) : List Byte := (List.range n).map (fun k => m.byteAt i (off + k))

def content (i : ℕ) : List Byte := m.bytesAt i 0 (m.size i)

variable (sb : Superblock)

def Alloc (i : ℕ) : Prop := 1 ≤ i ∧ i < sb.ninodes ∧ (m.ino i).type ≠ 0

instance (i : ℕ) : Decidable (m.Alloc sb i) := inferInstanceAs (Decidable (_ ∧ _ ∧ _))

def place (x : ℕ × Slot) : Option ℕ :=
  if m.Alloc sb x.1 ∧ m.ref x.1 x.2 ≠ 0 then some (m.ref x.1 x.2) else none

structure Own : Prop where
  owned : Owned sb.IsData m.used (m.place sb)
  metadata : ∀ b, b < sb.nmeta → m.used b = true

def NoHole : Prop := ∀ i bn, m.Alloc sb i → bn * BSIZE < m.size i → m.addr i bn ≠ 0

end Image

namespace Image
variable {m m' : Image} {sb : Superblock} {i j b : ℕ} {k : Slot}

theorem place_eq_some : m.place sb (i,k) = some b ↔ m.Alloc sb i ∧ m.ref i k = b ∧ b ≠ 0 := by
  simp only [place]
  split
  · rename_i h
    simp only [Option.some.injEq]
    exact ⟨fun he => ⟨h.1,he,he ▸ h.2⟩,fun he => he.2.1⟩
  · rename_i h
    simp only [reduceCtorEq,false_iff,not_and]
    intro ha he hb
    exact h ⟨ha,he ▸ hb⟩

theorem place_eq_none : m.place sb (i,k) = none ↔ m.Alloc sb i → m.ref i k = 0 := by
  simp only [place]
  split
  · rename_i h
    simp only [reduceCtorEq,false_iff]
    exact fun he => h.2 (he h.1)
  · rename_i h
    simp only [true_iff]
    intro ha
    by_contra hr
    exact h ⟨ha,hr⟩

theorem Own.isData (h : m.Own sb) (hi : m.Alloc sb i) (hr : m.ref i k ≠ 0) : sb.IsData (m.ref i k) :=
  h.owned.mem (i,k) _ (place_eq_some.mpr ⟨hi,rfl,hr⟩)

theorem Own.inj (h : m.Own sb) {l : Slot} (hi : m.Alloc sb i) (hj : m.Alloc sb j) (hr : m.ref i k ≠ 0)
    (he : m.ref j l = m.ref i k) : (j,l) = (i,k) :=
  h.owned.inj (j,l) (i,k) _ (place_eq_some.mpr ⟨hj,he,hr⟩) (place_eq_some.mpr ⟨hi,rfl,hr⟩)

theorem Own.used (h : m.Own sb) (hi : m.Alloc sb i) (hr : m.ref i k ≠ 0) : m.used (m.ref i k) = true :=
  h.owned.used_of_ref (place_eq_some.mpr ⟨hi,rfl,hr⟩)

theorem Own.free (h : m.Own sb) (hb : b < sb.size) (hf : m.used b = false) :
    sb.IsData b ∧ ∀ j l, m.Alloc sb j → m.ref j l ≠ b := by
  have hd : sb.IsData b := by
    refine ⟨?_,hb⟩
    by_contra hlt
    rw [h.metadata b (Nat.not_le.mp hlt)] at hf
    cases hf
  refine ⟨hd,fun j l hj hr => ?_⟩
  have := h.used hj (hr ▸ hd.pos)
  rw [hr,hf] at this
  cases this

theorem addr_of_lt {bn : ℕ} (h : bn < MAXFILE) : m.addr i bn = m.ref i (Slot.ofBlock bn) := if_pos h

theorem addr_lt {bn : ℕ} (h : m.addr i bn ≠ 0) : bn < MAXFILE := by
  by_contra hn
  exact h (if_neg hn)

theorem ref_entry {e : Fin NINDIRECT} {a : ℕ} (h : m.indirect i = a) (ha : a ≠ 0) :
    m.ref i (.entry e) = ofLe ((m.blk a).slice (4 * e.val) 4) := by
  subst h
  exact if_neg ha

theorem ref_entry_zero {e : Fin NINDIRECT} (h : m.indirect i = 0) : m.ref i (.entry e) = 0 := if_pos h

/-! ## Changes that keep the mapping -/

theorem ref_congr (hi : (m'.ino i).addrs = (m.ino i).addrs)
    (hb : m.indirect i ≠ 0 → m'.blk (m.indirect i) = m.blk (m.indirect i)) :
    m'.ref i = m.ref i := by
  have hind : m'.indirect i = m.indirect i := by rw [indirect,indirect,hi]
  funext l
  cases l with
  | addr k => simp only [ref,hi]
  | entry j =>
    simp only [ref,hind]
    split
    · rfl
    · rename_i h
      rw [hb h]

theorem addr_congr {bn : ℕ} (h : m'.ref i = m.ref i) : m'.addr i bn = m.addr i bn := by
  rw [addr,addr,h]

theorem alloc_congr (h : (m'.ino i).type = (m.ino i).type) : m'.Alloc sb i ↔ m.Alloc sb i := by
  rw [Alloc,Alloc,h]

theorem place_congr (ha : m'.Alloc sb i ↔ m.Alloc sb i) (hr : m.Alloc sb i → m'.ref i k = m.ref i k) :
    m'.place sb (i,k) = m.place sb (i,k) := by
  by_cases h : m.Alloc sb i
  · simp only [place,ha,hr h]
  · simp only [place,ha,h,false_and,if_false]

/-! ## Giving a block to a place -/

/-- `m'` is `m` after the free block `b`, zeroed, has been put at place `k` of inode `i`. -/
structure Assign (sb : Superblock) (m m' : Image) (i : ℕ) (k : Slot) (b : ℕ) : Prop where
  alloc : m.Alloc sb i
  empty : m.ref i k = 0
  lt : b < sb.size
  free : m.used b = false
  used : m'.used = update m.used b true
  ino : m'.ino = update m.ino i { m.ino i with addrs := (m'.ino i).addrs }
  self : m'.ref i k = b
  other : ∀ j l, m.Alloc sb j → (j,l) ≠ (i,k) → m'.ref j l = m.ref j l
  zero : m'.blk b = Bytes.zero
  data : ∀ c, c ≠ b → c ≠ m.indirect i → m'.blk c = m.blk c

theorem Assign.ino_ne {b : ℕ} (h : Assign sb m m' i k b) (hj : j ≠ i) : m'.ino j = m.ino j := by
  rw [h.ino,update_of_ne hj]

theorem Assign.ino_self {b : ℕ} (h : Assign sb m m' i k b) :
    m'.ino i = { m.ino i with addrs := (m'.ino i).addrs } := by
  have hi := congrFun h.ino i
  rwa [update_self] at hi

theorem Assign.alloc_iff {b : ℕ} (h : Assign sb m m' i k b) (j : ℕ) : m'.Alloc sb j ↔ m.Alloc sb j := by
  by_cases hj : j = i
  · subst hj
    exact alloc_congr (by rw [h.ino_self])
  · exact alloc_congr (by rw [h.ino_ne hj])

theorem Assign.own {b : ℕ} (h : Assign sb m m' i k b) (hm : m.Own sb) : m'.Own sb := by
  obtain ⟨hdata,hfree⟩ := hm.free h.lt h.free
  have hplace : m'.place sb = update (m.place sb) (i,k) (some b) := by
    funext x
    obtain ⟨j,l⟩ := x
    by_cases hx : (j,l) = (i,k)
    · rw [hx,update_self,place_eq_some]
      exact ⟨(h.alloc_iff i).mpr h.alloc,h.self,hdata.pos⟩
    · rw [update_of_ne hx]
      exact place_congr (h.alloc_iff j) fun hj => h.other j l hj hx
  refine ⟨?_,?_⟩
  · rw [hplace,h.used]
    exact hm.owned.assign hdata h.free (place_eq_none.mpr fun _ => h.empty)
  · intro c hc
    rw [h.used]
    by_cases hcb : c = b
    · rw [hcb,update_self]
    · rw [update_of_ne hcb]
      exact hm.metadata c hc

theorem assign_addr {a : Fin 13} (hm : m.Own sb) (hi : m.Alloc sb i) (ha : ((m.ino i).addrs a).toNat = 0)
    (hb : b < sb.size) (hf : m.used b = false) :
    Assign sb m (((m.setUsed b true).setBlk b Bytes.zero).setIno i
      { m.ino i with addrs := update (m.ino i).addrs a (BitVec.ofNat 32 b) }) i (.addr a) b := by
  have hsize := sb.size_lt
  have hto : (BitVec.ofNat 32 b).toNat = b := by
    rw [BitVec.toNat_ofNat]
    exact Nat.mod_eq_of_lt (by omega)
  obtain ⟨hdata,hfree⟩ := hm.free hb hf
  refine ⟨hi,ha,hb,hf,rfl,by simp,?_,?_,by simp,?_⟩
  · simp [ref,hto]
  · intro j l hj hne
    by_cases hji : j = i
    · subst hji
      cases l with
      | addr a' =>
        have ha' : a' ≠ a := fun he => hne (by rw [he])
        simp [ref,update_of_ne ha']
      | entry e =>
        by_cases h12 : a = 12
        · -- a new indirect block is empty, and there was none before
          subst h12
          have hnew : (((m.setUsed b true).setBlk b Bytes.zero).setIno j { m.ino j with
              addrs := update (m.ino j).addrs 12 (BitVec.ofNat 32 b) }).indirect j = b := by
            simp [indirect,hto]
          rw [ref_entry_zero ha,ref_entry hnew hdata.pos]
          simp
          rfl
        · have hnb : m.indirect j ≠ b := hfree j (.addr 12) hj
          have hnew : (((m.setUsed b true).setBlk b Bytes.zero).setIno j { m.ino j with
              addrs := update (m.ino j).addrs a (BitVec.ofNat 32 b) }).indirect j = m.indirect j := by
            simp only [indirect,setIno_ino,update_self]
            rw [update_of_ne (Ne.symm h12)]
          by_cases h0 : m.indirect j = 0
          · rw [ref_entry_zero h0,ref_entry_zero (hnew.trans h0)]
          · rw [ref_entry rfl h0,ref_entry hnew h0]
            simp only [setIno_blk,setBlk_blk]
            rw [update_of_ne hnb]
            rfl
    · have hnb : m.indirect j ≠ b := hfree j (.addr 12) hj
      refine congrFun (ref_congr ?_ fun _ => ?_) l
      · simp [update_of_ne hji]
      · simp only [setIno_blk,setBlk_blk]
        rw [update_of_ne hnb]
        rfl
  · intro c hc _
    simp only [setIno_blk,setBlk_blk]
    rw [update_of_ne hc]
    rfl

theorem assign_entry {e : Fin NINDIRECT} (hm : m.Own sb) (hi : m.Alloc sb i) (hind : m.indirect i ≠ 0)
    (he : m.ref i (.entry e) = 0) (hb : b < sb.size) (hf : m.used b = false) :
    Assign sb m (((m.setUsed b true).setBlk b Bytes.zero).setBlk (m.indirect i)
      ((m.blk (m.indirect i)).splice (4 * e.val) (leBytes 4 b))) i (.entry e) b := by
  have hsize := sb.size_lt
  have he4 := e.isLt
  obtain ⟨hdata,hfree⟩ := hm.free hb hf
  have hnb : m.indirect i ≠ b := hfree i (.addr 12) hi
  refine ⟨hi,he,hb,hf,rfl,by simp,?_,?_,?_,?_⟩
  · have h : ((m.blk (m.indirect i)).splice (4 * e.val) (leBytes 4 b)).slice (4 * e.val)
        (leBytes 4 b).length = leBytes 4 b :=
      Bytes.slice_splice_same _ (by rw [leBytes_length]; simp only [BSIZE,NINDIRECT] at *; omega)
    rw [leBytes_length] at h
    rw [ref_entry (m := ((m.setUsed b true).setBlk b Bytes.zero).setBlk (m.indirect i) _)
      (a := m.indirect i) rfl hind,setBlk_blk,update_self,h]
    exact ofLe_leBytes_of_lt (by omega)
  · intro j l hj hne
    by_cases hji : j = i
    · subst hji
      cases l with
      | addr a => rfl
      | entry e' =>
        have hee : e'.val ≠ e.val := fun h => hne (by rw [Fin.ext h])
        rw [ref_entry (m := ((m.setUsed b true).setBlk b Bytes.zero).setBlk (m.indirect j) _)
          (a := m.indirect j) rfl hind,ref_entry (m := m) rfl hind,setBlk_blk,update_self,
          Bytes.slice_splice_disjoint _ (by rw [leBytes_length]; omega)]
    · have hnb' : m.indirect j ≠ b := hfree j (.addr 12) hj
      apply congrFun
      apply ref_congr
      · rfl
      · intro _
        have hne' : m.indirect j ≠ m.indirect i := by
          intro h
          have := hm.inj (k := .addr 12) (l := .addr 12) hi hj hind h
          exact hji (Prod.mk.inj this).1
        simp only [setBlk_blk]
        rw [update_of_ne hne',update_of_ne hnb']
        rfl
  · simp only [setBlk_blk]
    rw [update_of_ne hnb.symm,update_self]
  · intro c hc hc'
    simp only [setBlk_blk]
    rw [update_of_ne hc',update_of_ne hc]
    rfl

/-! ## Changes to one inode -/

/-- From `m` to `m'` inode `i` may have gained blocks, its size may have changed and its bytes
at the offsets in `P`, and nothing else. -/
structure Edits (sb : Superblock) (m m' : Image) (i : ℕ) (P : ℕ → Prop) : Prop where
  alloc : m.Alloc sb i
  own : m'.Own sb
  ino : m'.ino = update m.ino i { m.ino i with size := (m'.ino i).size, addrs := (m'.ino i).addrs }
  other : ∀ j, m.Alloc sb j → j ≠ i → m'.ref j = m.ref j
  addr : ∀ bn, m.addr i bn ≠ 0 → m'.addr i bn = m.addr i bn
  data : ∀ j bn, m.Alloc sb j → j ≠ i → m.addr j bn ≠ 0 → m'.blk (m.addr j bn) = m.blk (m.addr j bn)
  bytes : ∀ x, ¬P x → m.addr i (x / BSIZE) ≠ 0 → m'.byteAt i x = m.byteAt i x

variable {P : ℕ → Prop}

theorem Edits.refl (hm : m.Own sb) (hi : m.Alloc sb i) : Edits sb m m i P where
  alloc := hi
  own := hm
  ino := by simp
  other := fun _ _ _ => rfl
  addr := fun _ _ => rfl
  data := fun _ _ _ _ _ => rfl
  bytes := fun _ _ _ => rfl

theorem Edits.mono {Q : ℕ → Prop} (h : Edits sb m m' i P) (hPQ : ∀ x, P x → Q x) : Edits sb m m' i Q :=
  { h with bytes := fun x hx => h.bytes x fun hp => hx (hPQ x hp) }

theorem Edits.ino_ne (h : Edits sb m m' i P) (hj : j ≠ i) : m'.ino j = m.ino j := by
  rw [h.ino,update_of_ne hj]

theorem Edits.ino_self (h : Edits sb m m' i P) :
    m'.ino i = { m.ino i with size := (m'.ino i).size, addrs := (m'.ino i).addrs } := by
  have hi := congrFun h.ino i
  rwa [update_self] at hi

theorem Edits.size_ne (h : Edits sb m m' i P) (hj : j ≠ i) : m'.size j = m.size j := by
  rw [size,size,h.ino_ne hj]

theorem Edits.alloc_iff (h : Edits sb m m' i P) (j : ℕ) : m'.Alloc sb j ↔ m.Alloc sb j := by
  by_cases hj : j = i
  · subst hj
    exact alloc_congr (by rw [h.ino_self])
  · exact alloc_congr (by rw [h.ino_ne hj])

theorem Edits.addr_other (h : Edits sb m m' i P) (hj : m.Alloc sb j) (hji : j ≠ i) (bn : ℕ) :
    m'.addr j bn = m.addr j bn := addr_congr (h.other j hj hji)

theorem Edits.byteAt_other (h : Edits sb m m' i P) {x : ℕ} (hj : m.Alloc sb j) (hji : j ≠ i)
    (hx : m.addr j (x / BSIZE) ≠ 0) : m'.byteAt j x = m.byteAt j x := by
  rw [byteAt,byteAt,h.addr_other hj hji,h.data j _ hj hji hx]

theorem Edits.trans {m'' : Image} (h : Edits sb m m' i P) (h' : Edits sb m' m'' i P) : Edits sb m m'' i P where
  alloc := h.alloc
  own := h'.own
  ino := by
    rw [h'.ino,h.ino]
    simp
  other := fun j hj hji => (h'.other j ((h.alloc_iff j).mpr hj) hji).trans (h.other j hj hji)
  addr := fun bn hb => by rw [h'.addr bn (by rwa [h.addr bn hb]),h.addr bn hb]
  data := by
    intro j bn hj hji hb
    have hb' := h.addr_other hj hji bn
    have hd := h'.data j bn ((h.alloc_iff j).mpr hj) hji (by rwa [hb'])
    rw [hb'] at hd
    rw [hd,h.data j bn hj hji hb]
  bytes := fun x hx hb => (h'.bytes x hx (by rwa [h.addr _ hb])).trans (h.bytes x hx hb)

theorem Own.addr_isData (h : m.Own sb) {bn : ℕ} (hi : m.Alloc sb i) (hb : m.addr i bn ≠ 0) :
    sb.IsData (m.addr i bn) := by
  have hlt := addr_lt hb
  rw [addr_of_lt hlt] at hb ⊢
  exact h.isData hi hb

theorem Own.addr_ne_indirect (h : m.Own sb) {bn : ℕ} (hi : m.Alloc sb i) (hj : m.Alloc sb j)
    (hb : m.addr i bn ≠ 0) : m.indirect j ≠ m.addr i bn := by
  have hlt := addr_lt hb
  rw [addr_of_lt hlt] at hb ⊢
  intro he
  have hind : m.ref j (.addr 12) = m.ref i (Slot.ofBlock bn) := he
  have := h.inj hi hj hb hind
  exact Slot.ofBlock_ne_indirect bn (Prod.mk.inj this).2.symm

theorem Own.addr_inj (h : m.Own sb) {bn bn' : ℕ} (hi : m.Alloc sb i) (hj : m.Alloc sb j)
    (hb : m.addr i bn ≠ 0) (he : m.addr j bn' = m.addr i bn) : j = i ∧ bn' = bn := by
  have hlt := addr_lt hb
  have hlt' := addr_lt (he ▸ hb)
  rw [addr_of_lt hlt] at hb he
  rw [addr_of_lt hlt'] at he
  have := h.inj hi hj hb he
  exact ⟨(Prod.mk.inj this).1,Slot.ofBlock_inj hlt' hlt (Prod.mk.inj this).2⟩

theorem Assign.edits {b : ℕ} (h : Assign sb m m' i k b) (hm : m.Own sb) : Edits sb m m' i P := by
  have haddr : ∀ bn, m.addr i bn ≠ 0 → m'.addr i bn = m.addr i bn := by
    intro bn hb
    have hlt := addr_lt hb
    rw [addr_of_lt hlt] at hb ⊢
    rw [addr_of_lt hlt]
    refine h.other i _ h.alloc fun he => hb ?_
    rw [(Prod.mk.inj he).2]
    exact h.empty
  have hdata : ∀ j bn, m.Alloc sb j → m.addr j bn ≠ 0 → m'.blk (m.addr j bn) = m.blk (m.addr j bn) := by
    intro j bn hj hb
    refine h.data _ ?_ (hm.addr_ne_indirect hj h.alloc hb).symm
    rw [addr_of_lt (addr_lt hb)]
    exact (hm.free h.lt h.free).2 j _ hj
  have hino : m'.ino = update m.ino i
      { m.ino i with size := (m'.ino i).size, addrs := (m'.ino i).addrs } := by
    rw [h.ino]
    simp
  refine ⟨h.alloc,h.own hm,hino,?_,haddr,fun j bn hj _ hb => hdata j bn hj hb,?_⟩
  · intro j hj hji
    funext l
    exact h.other j l hj fun he => hji (Prod.mk.inj he).1
  · intro x _ hb
    rw [byteAt,byteAt,haddr _ hb,hdata i _ h.alloc hb]

theorem Own.ref_setBlk {bn : ℕ} (hm : m.Own sb) (hi : m.Alloc sb i) (hb : m.addr i bn ≠ 0) (d : Block)
    (hj : m.Alloc sb j) : (m.setBlk (m.addr i bn) d).ref j = m.ref j := by
  refine ref_congr rfl fun _ => ?_
  rw [setBlk_blk,update_of_ne (hm.addr_ne_indirect hi hj hb)]

theorem edits_setBlk {bn : ℕ} {d : Block} (hm : m.Own sb) (hi : m.Alloc sb i) (hb : m.addr i bn ≠ 0)
    (hd : ∀ x, x / BSIZE = bn → ¬P x → d.get (x % BSIZE) = m.byteAt i x) :
    Edits sb m (m.setBlk (m.addr i bn) d) i P := by
  have href : ∀ j, m.Alloc sb j → (m.setBlk (m.addr i bn) d).ref j = m.ref j :=
    fun j => hm.ref_setBlk hi hb d
  have hplace : (m.setBlk (m.addr i bn) d).place sb = m.place sb := by
    funext x
    obtain ⟨j,l⟩ := x
    exact place_congr Iff.rfl fun hj => congrFun (href j hj) l
  have haddr : ∀ j bn', m.Alloc sb j → (m.setBlk (m.addr i bn) d).addr j bn' = m.addr j bn' :=
    fun j bn' hj => addr_congr (href j hj)
  refine ⟨hi,⟨by rw [hplace]; exact hm.owned,hm.metadata⟩,by simp,fun j hj _ => href j hj,
    fun bn' _ => haddr i bn' hi,?_,?_⟩
  · intro j bn' hj hji hb'
    rw [setBlk_blk,update_of_ne]
    exact fun he => hji (hm.addr_inj hi hj hb he).1
  · intro x hx hb'
    rw [byteAt,haddr i _ hi,setBlk_blk]
    by_cases hbn : x / BSIZE = bn
    · rw [hbn,update_self]
      exact hd x hbn hx
    · rw [update_of_ne]
      · rfl
      · exact fun he => hbn (hm.addr_inj hi hi hb he).2

theorem edits_size (hm : m.Own sb) (hi : m.Alloc sb i) (n : BitVec 32) :
    Edits sb m (m.setIno i { m.ino i with size := n }) i P := by
  have href : ∀ j, (m.setIno i { m.ino i with size := n }).ref j = m.ref j := by
    intro j
    refine ref_congr ?_ fun _ => rfl
    by_cases hj : j = i
    · subst hj
      simp
    · simp [update_of_ne hj]
  have halloc : ∀ j, (m.setIno i { m.ino i with size := n }).Alloc sb j ↔ m.Alloc sb j := by
    intro j
    refine alloc_congr ?_
    by_cases hj : j = i
    · subst hj
      simp
    · simp [update_of_ne hj]
  have hplace : (m.setIno i { m.ino i with size := n }).place sb = m.place sb := by
    funext x
    obtain ⟨j,l⟩ := x
    exact place_congr (halloc j) fun _ => congrFun (href j) l
  have haddr (j bn : ℕ) : (m.setIno i { m.ino i with size := n }).addr j bn = m.addr j bn := addr_congr (href j)
  refine ⟨hi,⟨by rw [hplace]; exact hm.owned,hm.metadata⟩,by simp,fun j _ _ => href j,fun bn _ => haddr i bn,
    fun j bn _ _ _ => rfl,fun x _ _ => ?_⟩
  rw [byteAt,haddr]
  rfl

theorem Edits.noHole {off n : ℕ} (h : Edits sb m m' i P) (hh : m.NoHole sb) (hoff : off ≤ m.size i)
    (hmap : ∀ x, off ≤ x → x < off + n → m'.addr i (x / BSIZE) ≠ 0)
    (hsize : m'.size i = max (m.size i) (off + n)) : m'.NoHole sb := by
  intro j bn hj hlt
  have hj' := (h.alloc_iff j).mp hj
  by_cases hji : j = i
  · subst hji
    by_cases hold : bn * BSIZE < m.size j
    · have hb := hh j bn hj' hold
      rwa [h.addr bn hb]
    · have := hmap (bn * BSIZE) (by omega) (by omega)
      rwa [Nat.mul_div_cancel _ (by decide)] at this
  · rw [h.size_ne hji] at hlt
    rw [h.addr_other hj' hji]
    exact hh j bn hj' hlt

end Image

end Xv6
