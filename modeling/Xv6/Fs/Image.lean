import Xv6.Fs.Code

/-! # The file system image

What the blocks mean: the free bit map, the inodes and the data blocks, each defined
only where the superblock places it. Every write the kernel makes to a cached block is
a change of one of the three parts, or of none when it is a write to the log.
-/
namespace Xv6
open Library
open Function (update update_of_ne update_self)

structure Image where
  used : ℕ → Bool
  ino : ℕ → Dinode
  blk : Blocks

namespace Image

def setUsed (m : Image) (b : ℕ) (v : Bool) : Image := { m with used := update m.used b v }
def setIno (m : Image) (i : ℕ) (d : Dinode) : Image := { m with ino := update m.ino i d }
def setBlk (m : Image) (b : ℕ) (d : Block) : Image := { m with blk := update m.blk b d }

@[simp] theorem setUsed_used (m : Image) (b : ℕ) (v : Bool) : (m.setUsed b v).used = update m.used b v := rfl
@[simp] theorem setUsed_ino (m : Image) (b : ℕ) (v : Bool) : (m.setUsed b v).ino = m.ino := rfl
@[simp] theorem setUsed_blk (m : Image) (b : ℕ) (v : Bool) : (m.setUsed b v).blk = m.blk := rfl
@[simp] theorem setIno_used (m : Image) (i : ℕ) (d : Dinode) : (m.setIno i d).used = m.used := rfl
@[simp] theorem setIno_ino (m : Image) (i : ℕ) (d : Dinode) : (m.setIno i d).ino = update m.ino i d := rfl
@[simp] theorem setIno_blk (m : Image) (i : ℕ) (d : Dinode) : (m.setIno i d).blk = m.blk := rfl
@[simp] theorem setBlk_used (m : Image) (b : ℕ) (d : Block) : (m.setBlk b d).used = m.used := rfl
@[simp] theorem setBlk_ino (m : Image) (b : ℕ) (d : Block) : (m.setBlk b d).ino = m.ino := rfl
@[simp] theorem setBlk_blk (m : Image) (b : ℕ) (d : Block) : (m.setBlk b d).blk = update m.blk b d := rfl

@[ext] theorem ext {m m' : Image} (hu : m.used = m'.used) (hi : m.ino = m'.ino) (hb : m.blk = m'.blk) :
    m = m' := by
  cases m
  cases m'
  cases hu
  cases hi
  cases hb
  rfl

@[simp] theorem setIno_self (m : Image) (i : ℕ) : m.setIno i (m.ino i) = m := by
  ext1 <;> simp

@[simp] theorem setIno_setIno (m : Image) (i : ℕ) (d d' : Dinode) :
    (m.setIno i d).setIno i d' = m.setIno i d' := by
  ext1 <;> simp

theorem setIno_setUsed (m : Image) (i b : ℕ) (d : Dinode) (v : Bool) :
    (m.setUsed b v).setIno i d = (m.setIno i d).setUsed b v := rfl

theorem setIno_setBlk (m : Image) (i b : ℕ) (d : Dinode) (v : Block) :
    (m.setBlk b v).setIno i d = (m.setIno i d).setBlk b v := rfl

end Image

/-! ## The image of a set of blocks -/

section OfBlocks
variable (sb : Superblock)

def Image.ofBlocks (blk : Blocks) : Image where
  used b := decide (b < sb.size) && (blk (sb.bblock b)).bit (b % BPB)
  ino i := if i < sb.ninodes then Dinode.ofBlock (blk (sb.iblock i)) (i % IPB) else Dinode.zero
  blk b := if sb.IsData b then blk b else Bytes.zero

variable {sb} {blk : Blocks} {b i : ℕ}

private theorem bit_update_bblock (d : Block) (hb : b < sb.size) (v : Bool)
    (hd : ∀ j, d.bit j = if j = b % BPB then v else (blk (sb.bblock b)).bit j) :
    Image.ofBlocks sb (update blk (sb.bblock b) d) = (Image.ofBlocks sb blk).setUsed b v := by
  ext1
  · funext c
    simp only [Image.ofBlocks,Image.setUsed]
    by_cases hc : c < sb.size
    · by_cases he : sb.bblock c = sb.bblock b
      · rw [he,update_self,hd]
        simp only [Superblock.bblock,BPB] at he
        by_cases hcb : c = b
        · subst hcb
          simp [hc]
        · rw [if_neg (by simp only [BPB]; omega),update_of_ne hcb,Superblock.bblock,
            Superblock.bblock,show c / BPB = b / BPB by simp only [BPB]; omega]
      · have hcb : c ≠ b := by
          rintro rfl
          exact he rfl
        rw [update_of_ne he,update_of_ne hcb]
    · have hcb : c ≠ b := by
        rintro rfl
        exact hc hb
      simp [hc,update_of_ne hcb]
  · funext i
    simp only [Image.ofBlocks,Image.setUsed]
    split
    · rename_i hi
      rw [update_of_ne (Superblock.iblock_ne_bblock hi b)]
    · rfl
  · funext c
    simp only [Image.ofBlocks,Image.setUsed]
    split
    · rename_i hc
      rw [update_of_ne (hc.ne_bblock hb)]
    · rfl

theorem Image.ofBlocks_setBit (hb : b < sb.size) :
    Image.ofBlocks sb (update blk (sb.bblock b) ((blk (sb.bblock b)).setBit (b % BPB))) =
      (Image.ofBlocks sb blk).setUsed b true :=
  bit_update_bblock _ hb true fun j => by
    rw [Bytes.bit_setBit _ (by simp only [BPB,BSIZE]; omega)]

theorem Image.ofBlocks_clearBit (hb : b < sb.size) :
    Image.ofBlocks sb (update blk (sb.bblock b) ((blk (sb.bblock b)).clearBit (b % BPB))) =
      (Image.ofBlocks sb blk).setUsed b false :=
  bit_update_bblock _ hb false fun j => by
    rw [Bytes.bit_clearBit _ (by simp only [BPB,BSIZE]; omega)]

theorem Image.ofBlocks_toBlock (hi : i < sb.ninodes) (d : Dinode) :
    Image.ofBlocks sb (update blk (sb.iblock i) (Dinode.toBlock (blk (sb.iblock i)) (i % IPB) d)) =
      (Image.ofBlocks sb blk).setIno i d := by
  ext1
  · funext c
    simp only [ofBlocks,setIno]
    rw [update_of_ne (Superblock.iblock_ne_bblock hi c).symm]
  · funext j
    simp only [ofBlocks,setIno]
    by_cases hj : j < sb.ninodes
    · rw [if_pos hj]
      by_cases he : sb.iblock j = sb.iblock i
      · rw [he,update_self]
        simp only [Superblock.iblock,IPB] at he
        by_cases hji : j = i
        · subst hji
          rw [update_self,Dinode.ofBlock_toBlock_same _ (Nat.mod_lt _ (by decide))]
        · rw [update_of_ne hji,if_pos hj,
            Dinode.ofBlock_toBlock_ne _ (by simp only [IPB]; omega),Superblock.iblock,Superblock.iblock,
            show j / IPB = i / IPB by simp only [IPB]; omega]
      · have hji : j ≠ i := by
          rintro rfl
          exact he rfl
        rw [update_of_ne he,update_of_ne hji,if_pos hj]
    · have hji : j ≠ i := by
        rintro rfl
        exact hj hi
      rw [update_of_ne hji]
      simp only [if_neg hj]
  · funext c
    simp only [ofBlocks,setIno]
    split
    · rename_i hc
      rw [update_of_ne (hc.ne_iblock hi)]
    · rfl

theorem Image.ofBlocks_setData (hb : sb.IsData b) (d : Block) :
    Image.ofBlocks sb (update blk b d) = (Image.ofBlocks sb blk).setBlk b d := by
  ext1
  · funext c
    simp only [ofBlocks,setBlk]
    by_cases hc : c < sb.size
    · rw [update_of_ne (hb.ne_bblock hc).symm]
    · simp [hc]
  · funext j
    simp only [ofBlocks,setBlk]
    split
    · rename_i hj
      rw [update_of_ne (hb.ne_iblock hj).symm]
    · rfl
  · funext c
    simp only [ofBlocks,setBlk]
    by_cases hc : c = b
    · subst hc
      rw [if_pos hb,update_self,update_self]
    · rw [update_of_ne hc,update_of_ne hc]

theorem Image.ofBlocks_blk (hb : sb.IsData b) : (Image.ofBlocks sb blk).blk b = blk b := if_pos hb

theorem Image.ofBlocks_ino (hi : i < sb.ninodes) :
    (Image.ofBlocks sb blk).ino i = Dinode.ofBlock (blk (sb.iblock i)) (i % IPB) := if_pos hi

theorem Image.ofBlocks_used (hb : b < sb.size) :
    (Image.ofBlocks sb blk).used b = (blk (sb.bblock b)).bit (b % BPB) := by
  simp [ofBlocks,hb]

end OfBlocks

def St.image (sb : Superblock) (s : St) : Image := Image.ofBlocks sb s.blk

end Xv6
