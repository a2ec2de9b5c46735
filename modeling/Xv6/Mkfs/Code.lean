import Xv6.Fs.Syscalls

/-! # `mkfs.c`

The program that writes the first file system image. Its globals `freeinode`,
`freeblock` and the image file are one state; a failed `assert` and `die` end the run
without a result. The host is little-endian, so `xint` and `xshort` store the bytes that
the kernel reads, and `wsect` reaches every block because byte offsets fit a uint.
-/
namespace Xv6.Mkfs
open Library

abbrev NINODES : ℕ := 200
abbrev FSMAGIC : ℕ := 0x10203040

/-- A value of `FSSIZE`; `param.h` has 2000, 10000 and 200000. -/
structure Fssize where
  val : ℕ
  fits : 2 + LOGSIZE + (NINODES / IPB + 1) + (val / BPB + 1) ≤ val
  uint : val * BSIZE < 2 ^ 32

def superblock (fssize : Fssize) : Superblock where
  size := fssize.val
  ninodes := NINODES
  nlog := LOGSIZE
  logstart := 2
  inodestart := 2 + LOGSIZE
  bmapstart := 2 + LOGSIZE + (NINODES / IPB + 1)
  logstart_eq := rfl
  inodestart_eq := rfl
  bmapstart_eq := rfl
  fits := fssize.fits
  size_lt := by
    have := fssize.uint
    simp only [BSIZE] at this
    omega
  root_lt := by decide
  ninodes_le := by decide

/-- `memmove(buf, &sb, sizeof(sb))` -/
def superBytes (sb : Superblock) : List Byte :=
  [FSMAGIC,sb.size,sb.size - sb.nmeta,sb.ninodes,sb.nlog,sb.logstart,sb.inodestart,sb.bmapstart].flatMap (leBytes 4)

structure State where
  img : Blocks
  freeinode : ℕ
  freeblock : ℕ

abbrev M := StateT State Option

def die {α : Type} : M α := fun _ => none

def assert (p : Prop) [Decidable p] : M Unit := if p then pure () else die

variable (sb : Superblock)

def wsect (sec : ℕ) (buf : Block) : M Unit :=
  fun s => some ((),{ s with img := Function.update s.img sec buf })

/-- Behind the last block `read` returns less than `BSIZE`. -/
def rsect (sec : ℕ) : M Block := fun s => if sec < sb.size then some (s.img sec,s) else none

def winode (inum : ℕ) (ip : Dinode) : M Unit := do
  let buf ← rsect sb (sb.iblock inum)
  wsect (sb.iblock inum) (Dinode.toBlock buf (inum % IPB) ip)

def rinode (inum : ℕ) : M Dinode := do
  let buf ← rsect sb (sb.iblock inum)
  pure (Dinode.ofBlock buf (inum % IPB))

def nextInode : M ℕ := fun s => some (s.freeinode,{ s with freeinode := s.freeinode + 1 })

def nextBlock : M ℕ := fun s => some (s.freeblock,{ s with freeblock := s.freeblock + 1 })

def ialloc (type : BitVec 16) : M ℕ := do
  let inum ← nextInode
  winode sb inum { Dinode.zero with type := type, nlink := 1 }
  pure inum

/-- Mark the first `used` blocks in the first block of the bit map. -/
def balloc (used : ℕ) : M Unit := do
  assert (used < BPB)
  wsect sb.bmapstart ((List.range used).foldl Bytes.setBit Bytes.zero)

/-- `if(din.addrs[k] == 0) din.addrs[k] = freeblock++` -/
def allocAddr (din : Dinode) (k : Fin 13) : M Dinode := do
  if (din.addrs k).toNat = 0 then
    let b ← nextBlock
    pure { din with addrs := Function.update din.addrs k (BitVec.ofNat 32 b) }
  else pure din

/-- The entry `e` of the indirect block `a`, allocated if it is 0. -/
def allocEntry (a e : ℕ) : M ℕ := do
  let indirect ← rsect sb a
  if ofLe (indirect.slice (4 * e) 4) = 0 then
    let b ← nextBlock
    wsect a (indirect.splice (4 * e) (leBytes 4 b))
    pure b
  else pure (ofLe (indirect.slice (4 * e) 4))

/-- The part of the loop of `iappend` that finds the block `x` to write. -/
def fileBlock (din : Dinode) (fbn : ℕ) : M (Dinode × ℕ) := do
  if fbn < NDIRECT then
    let din ← allocAddr din (Fin.ofNat 13 fbn)
    pure (din,(din.addrs (Fin.ofNat 13 fbn)).toNat)
  else
    let din ← allocAddr din 12
    let x ← allocEntry sb (din.addrs 12).toNat (fbn - NDIRECT)
    pure (din,x)

/-- The loop of `iappend`; `p` holds the `n` bytes that are left. -/
def iappendLoop : ℕ → Dinode → ℕ → List Byte → M (Dinode × ℕ)
  | 0, din, off, _ => pure (din,off)
  | fuel + 1, din, off, p => do
    if 0 < p.length then
      assert (off / BSIZE < MAXFILE)
      let r ← fileBlock sb din (off / BSIZE)
      let n1 := min p.length ((off / BSIZE + 1) * BSIZE - off)
      let buf ← rsect sb r.2
      wsect r.2 (buf.splice (off - off / BSIZE * BSIZE) (p.take n1))
      iappendLoop fuel r.1 (off + n1) (p.drop n1)
    else pure (din,off)

def iappend (inum : ℕ) (p : List Byte) : M Unit := do
  let din ← rinode sb inum
  let r ← iappendLoop sb p.length din din.size.toNat p
  winode sb inum { r.1 with size := BitVec.ofNat 32 r.2 }

/-- One of the files named on the command line, with what the calls of `read` return
until the one that returns 0. -/
structure Input where
  path : List Byte
  reads : List (List Byte)
  path_ne : 0 ∉ path
  reads_pos : ∀ c ∈ reads, c ≠ []
  reads_le : ∀ c ∈ reads, c.length ≤ BSIZE

namespace Input

def user : List Byte := [117,115,101,114,47]

def underscore : Byte := 95

def base (f : Input) : List Byte := if strncmp 5 f.path user = 0 then f.path.drop 5 else f.path

def shortname (f : Input) : List Byte :=
  if f.base.head? = some underscore then f.base.tail else f.base

def bytes (f : Input) : List Byte := f.reads.flatten

end Input

/-- `while((cc = read(fd, buf, sizeof(buf))) > 0) iappend(inum, buf, cc);` -/
def appendReads (inum : ℕ) : List (List Byte) → M Unit
  | [] => pure ()
  | c :: rest => do
    iappend sb inum c
    appendReads inum rest

/-- A directory entry; `bzero` and `strncpy` leave NULs behind the name. -/
def dirent (inum : ℕ) (name : List Byte) : List Byte :=
  Dirent.bytes ⟨BitVec.ofNat 16 inum,strncpy DIRSIZ name⟩

def addFile (rootino : ℕ) (f : Input) : M Unit := do
  assert (slash ∉ f.base)
  assert (f.shortname.length ≤ DIRSIZ)
  let inum ← ialloc sb T_FILE
  iappend sb rootino (dirent inum f.shortname)
  appendReads sb inum f.reads

def addFiles (rootino : ℕ) : List Input → M Unit
  | [] => pure ()
  | f :: rest => do
    addFile sb rootino f
    addFiles rootino rest

/-- `for(i = 0; i < FSSIZE; i++) wsect(i, zeroes);` -/
def zeroFrom : ℕ → ℕ → M Unit
  | 0, _ => pure ()
  | n + 1, i => do
    wsect i Bytes.zero
    zeroFrom n (i + 1)

def fixSize (rootino : ℕ) : M Unit := do
  let din ← rinode sb rootino
  winode sb rootino { din with size := BitVec.ofNat 32 ((din.size.toNat / BSIZE + 1) * BSIZE) }

def main (files : List Input) : M Unit := do
  zeroFrom sb.size 0
  wsect 1 (Bytes.zero.splice 0 (superBytes sb))
  let rootino ← ialloc sb T_DIR
  assert (rootino = ROOTINO)
  iappend sb rootino (dirent rootino dot)
  iappend sb rootino (dirent rootino dotdot)
  addFiles sb rootino files
  fixSize sb rootino
  let s ← get
  balloc sb s.freeblock

/-- The globals when the file system begins to be written; the image file has just been
truncated. -/
def start : State := ⟨fun _ => Bytes.zero,1,sb.nmeta⟩

/-- The image that `mkfs` leaves behind, if it comes to its end. -/
def mkfs (fssize : Fssize) (files : List Input) : Option Blocks :=
  (main (superblock fssize) files (start (superblock fssize))).map fun r => r.2.img

end Xv6.Mkfs
