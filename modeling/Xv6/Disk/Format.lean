import Xv6.Library.Bytes

/-! # The on-disk file system format

Constants, superblock, inodes and directory entries as `fs.h`, `param.h` and
`stat.h` lay them out, with the byte codecs the kernel reaches by casting
`bp->data`. A superblock carries the layout that `mkfs` computes, so that block
regions are disjoint for every value of the type.
-/
namespace Xv6
open Library

abbrev MAXOPBLOCKS : ℕ := 10
abbrev LOGSIZE : ℕ := 30
abbrev NBUF : ℕ := 30
abbrev NINODE : ℕ := 50
abbrev NFILE : ℕ := 100
abbrev NOFILE : ℕ := 16
abbrev NPROC : ℕ := 64
abbrev NDEV : ℕ := 10
abbrev ROOTDEV : ℕ := 1
abbrev ROOTINO : ℕ := 1
abbrev MAXPATH : ℕ := 128
abbrev BSIZE : ℕ := 1024
abbrev NDIRECT : ℕ := 12
abbrev NINDIRECT : ℕ := 256
abbrev MAXFILE : ℕ := 268
/-- `BSIZE / sizeof(struct dinode)` -/
abbrev IPB : ℕ := 16
abbrev BPB : ℕ := 8192
abbrev DIRSIZ : ℕ := 14

-- indices into the inode, process and address tables are written as literals
instance : NeZero NINODE := ⟨by decide⟩
instance : NeZero NPROC := ⟨by decide⟩
instance : NeZero NINDIRECT := ⟨by decide⟩
instance neZero_addrs : NeZero 13 := ⟨by decide⟩

abbrev T_DIR : BitVec 16 := 1#16
abbrev T_FILE : BitVec 16 := 2#16
abbrev T_DEVICE : BitVec 16 := 3#16

abbrev Block := Bytes BSIZE
abbrev Blocks := ℕ → Block

/-- The fields of the superblock that the kernel reads, laid out as `mkfs` does:
boot block, superblock, log, inodes, free bit map, data. -/
structure Superblock where
  size : ℕ
  ninodes : ℕ
  nlog : ℕ
  logstart : ℕ
  inodestart : ℕ
  bmapstart : ℕ
  logstart_eq : logstart = 2
  inodestart_eq : inodestart = 2 + nlog
  bmapstart_eq : bmapstart = 2 + nlog + (ninodes / IPB + 1)
  fits : bmapstart + (size / BPB + 1) ≤ size
  size_lt : size < 2 ^ 31
  root_lt : ROOTINO < ninodes
  ninodes_le : ninodes ≤ 2 ^ 16

namespace Superblock
variable (sb : Superblock)

def iblock (i : ℕ) : ℕ := i / IPB + sb.inodestart

def bblock (b : ℕ) : ℕ := b / BPB + sb.bmapstart

/-- Number of metadata blocks: boot, super, log, inode and bitmap blocks. -/
def nmeta : ℕ := sb.bmapstart + (sb.size / BPB + 1)

def InLog (b : ℕ) : Prop := sb.logstart ≤ b ∧ b < sb.logstart + sb.nlog

def IsData (b : ℕ) : Prop := sb.nmeta ≤ b ∧ b < sb.size

instance (b : ℕ) : Decidable (sb.InLog b) := inferInstanceAs (Decidable (_ ∧ _))
instance (b : ℕ) : Decidable (sb.IsData b) := inferInstanceAs (Decidable (_ ∧ _))

variable {sb}

theorem nmeta_le_size : sb.nmeta ≤ sb.size := sb.fits

theorem iblock_lt {i : ℕ} (hi : i < sb.ninodes) : sb.iblock i < sb.bmapstart := by
  have := sb.inodestart_eq
  have := sb.bmapstart_eq
  simp only [iblock,IPB] at *
  omega

theorem bblock_lt {b : ℕ} (hb : b < sb.size) : sb.bblock b < sb.nmeta := by
  simp only [bblock,nmeta,BPB]
  omega

theorem bmapstart_le_bblock (b : ℕ) : sb.bmapstart ≤ sb.bblock b := Nat.le_add_left _ _

theorem inodestart_le_iblock (i : ℕ) : sb.inodestart ≤ sb.iblock i := Nat.le_add_left _ _

theorem inodestart_le_bmapstart : sb.inodestart ≤ sb.bmapstart := by
  rw [sb.inodestart_eq,sb.bmapstart_eq]
  exact Nat.le_add_right _ _

theorem two_le_bmapstart : 2 ≤ sb.bmapstart := by
  rw [sb.bmapstart_eq,Nat.add_assoc]
  exact Nat.le_add_right _ _

theorem bmapstart_le_nmeta : sb.bmapstart ≤ sb.nmeta := Nat.le_add_right _ _

theorem InLog.lt_inodestart {b : ℕ} (h : sb.InLog b) : b < sb.inodestart := by
  have := sb.inodestart_eq
  have := sb.logstart_eq
  obtain ⟨_,h⟩ := h
  omega

theorem not_inLog_of_ge {b : ℕ} (h : sb.inodestart ≤ b) : ¬sb.InLog b := fun hb =>
  absurd hb.lt_inodestart (Nat.not_lt.mpr h)

theorem not_inLog_iblock (i : ℕ) : ¬sb.InLog (sb.iblock i) :=
  not_inLog_of_ge (inodestart_le_iblock i)

theorem not_inLog_bblock (b : ℕ) : ¬sb.InLog (sb.bblock b) :=
  not_inLog_of_ge (inodestart_le_bmapstart.trans (bmapstart_le_bblock b))

theorem IsData.not_inLog {b : ℕ} (h : sb.IsData b) : ¬sb.InLog b :=
  not_inLog_of_ge (inodestart_le_bmapstart.trans (bmapstart_le_nmeta.trans h.1))

theorem IsData.ne_iblock {b i : ℕ} (h : sb.IsData b) (hi : i < sb.ninodes) : b ≠ sb.iblock i := by
  have := iblock_lt hi
  have : sb.bmapstart ≤ sb.nmeta := bmapstart_le_nmeta
  obtain ⟨h,_⟩ := h
  omega

theorem IsData.ne_bblock {b c : ℕ} (h : sb.IsData b) (hc : c < sb.size) : b ≠ sb.bblock c := by
  have := bblock_lt hc
  obtain ⟨h,_⟩ := h
  omega

theorem iblock_ne_bblock {i : ℕ} (hi : i < sb.ninodes) (b : ℕ) : sb.iblock i ≠ sb.bblock b := by
  have := iblock_lt hi
  have : sb.bmapstart ≤ sb.bblock b := bmapstart_le_bblock b
  omega

theorem IsData.pos {b : ℕ} (h : sb.IsData b) : b ≠ 0 := by
  have : 2 ≤ sb.bmapstart := two_le_bmapstart
  have : sb.bmapstart ≤ sb.nmeta := bmapstart_le_nmeta
  obtain ⟨h,_⟩ := h
  omega

end Superblock

structure Dinode where
  type : BitVec 16
  major : BitVec 16
  minor : BitVec 16
  nlink : BitVec 16
  size : BitVec 32
  /-- `addrs[NDIRECT+1]` -/
  addrs : Fin 13 → BitVec 32
  deriving DecidableEq

namespace Dinode

def zero : Dinode := ⟨0,0,0,0,0,fun _ => 0⟩

instance : Inhabited Dinode := ⟨zero⟩

def bytes (d : Dinode) : List Byte :=
  leBytes 2 d.type.toNat ++ (leBytes 2 d.major.toNat ++ (leBytes 2 d.minor.toNat ++
    (leBytes 2 d.nlink.toNat ++ (leBytes 4 d.size.toNat ++
      (List.finRange 13).flatMap (fun k => leBytes 4 (d.addrs k).toNat)))))

def ofBytes (l : List Byte) : Dinode where
  type := BitVec.ofNat 16 (ofLe (l.take 2))
  major := BitVec.ofNat 16 (ofLe ((l.drop 2).take 2))
  minor := BitVec.ofNat 16 (ofLe ((l.drop 4).take 2))
  nlink := BitVec.ofNat 16 (ofLe ((l.drop 6).take 2))
  size := BitVec.ofNat 32 (ofLe ((l.drop 8).take 4))
  addrs k := BitVec.ofNat 32 (ofLe (((l.drop 12).drop (4 * k.val)).take 4))

@[simp] theorem bytes_length (d : Dinode) : d.bytes.length = 64 := by
  simp [bytes]

private theorem ofNat_ofLe_leBytes₂ (x : BitVec 16) :
    BitVec.ofNat 16 (ofLe (leBytes 2 x.toNat)) = x := by
  rw [ofLe_leBytes_of_lt (by simpa using x.isLt)]
  simp

private theorem ofNat_ofLe_leBytes₄ (x : BitVec 32) :
    BitVec.ofNat 32 (ofLe (leBytes 4 x.toNat)) = x := by
  rw [ofLe_leBytes_of_lt (by simpa using x.isLt)]
  simp

private theorem take_leBytes_append (w v : ℕ) (l : List Byte) :
    (leBytes w v ++ l).take w = leBytes w v := by
  simp

private theorem drop_leBytes_append (w k v : ℕ) (l : List Byte) :
    (leBytes w v ++ l).drop (w + k) = l.drop k := by
  rw [← List.drop_drop]
  simp

theorem ofBytes_bytes (d : Dinode) : ofBytes d.bytes = d := by
  have haddr : ∀ k : Fin 13,
      ((((List.finRange 13).flatMap (fun k => leBytes 4 (d.addrs k).toNat)).drop (4 * k.val)).take 4) =
        leBytes 4 (d.addrs k).toNat := by
    intro k
    rw [take_drop_flatMap (fun k _ => leBytes_length 4 _) (by simp)]
    simp
  have h2 (v : ℕ) (l : List Byte) : (leBytes 2 v ++ l).drop 2 = l := drop_leBytes_append 2 0 v l
  have h4 (v : ℕ) (l : List Byte) : (leBytes 2 v ++ l).drop 4 = l.drop 2 := drop_leBytes_append 2 2 v l
  have h6 (v : ℕ) (l : List Byte) : (leBytes 2 v ++ l).drop 6 = l.drop 4 := drop_leBytes_append 2 4 v l
  have h8 (v : ℕ) (l : List Byte) : (leBytes 2 v ++ l).drop 8 = l.drop 6 := drop_leBytes_append 2 6 v l
  have h12 (v : ℕ) (l : List Byte) : (leBytes 2 v ++ l).drop 12 = l.drop 10 := drop_leBytes_append 2 10 v l
  have h10 (v : ℕ) (l : List Byte) : (leBytes 2 v ++ l).drop 10 = l.drop 8 := drop_leBytes_append 2 8 v l
  have hs (v : ℕ) (l : List Byte) : (leBytes 4 v ++ l).drop 4 = l := drop_leBytes_append 4 0 v l
  obtain ⟨type,major,minor,nlink,size,addrs⟩ := d
  simp only [ofBytes,bytes,h2,h4,h6,h8,h10,h12,hs,take_leBytes_append,ofNat_ofLe_leBytes₂,
    ofNat_ofLe_leBytes₄,mk.injEq,true_and]
  funext k
  rw [haddr k]
  exact ofNat_ofLe_leBytes₄ (addrs k)

def ofBlock (b : Block) (k : ℕ) : Dinode := ofBytes (b.slice (64 * k) 64)

def toBlock (b : Block) (k : ℕ) (d : Dinode) : Block := b.splice (64 * k) d.bytes

theorem ofBlock_toBlock_same (b : Block) {k : ℕ} (hk : k < IPB) (d : Dinode) :
    ofBlock (toBlock b k d) k = d := by
  unfold ofBlock toBlock
  have h : (b.splice (64 * k) d.bytes).slice (64 * k) d.bytes.length = d.bytes :=
    Bytes.slice_splice_same b (by rw [bytes_length]; simp only [IPB,BSIZE] at *; omega)
  rw [bytes_length] at h
  rw [h,ofBytes_bytes]

theorem ofBlock_toBlock_ne (b : Block) {j k : ℕ} (hjk : j ≠ k) (d : Dinode) :
    ofBlock (toBlock b k d) j = ofBlock b j := by
  unfold ofBlock toBlock
  rw [Bytes.slice_splice_disjoint b (by rw [bytes_length]; omega)]

end Dinode

structure Dirent where
  inum : BitVec 16
  /-- `char name[DIRSIZ]`, padded with NUL bytes -/
  name : List Byte
  deriving DecidableEq

namespace Dirent

def bytes (e : Dirent) : List Byte := leBytes 2 e.inum.toNat ++ e.name

def ofBytes (l : List Byte) : Dirent := ⟨BitVec.ofNat 16 (ofLe (l.take 2)),l.drop 2⟩

theorem ofBytes_bytes (e : Dirent) : ofBytes e.bytes = e := by
  obtain ⟨inum,name⟩ := e
  have ht : (leBytes 2 inum.toNat ++ name).take 2 = leBytes 2 inum.toNat := by
    simp
  have hd : (leBytes 2 inum.toNat ++ name).drop 2 = name := by
    simp
  simp only [ofBytes,bytes,ht,hd]
  rw [ofLe_leBytes_of_lt (by simpa using inum.isLt)]
  simp

end Dirent

end Xv6
