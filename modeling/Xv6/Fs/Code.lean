import Xv6.Log.Code

/-! # `fs.c`: blocks, inodes, directories and paths

Every function below has the name of its C counterpart and performs the same buffer,
log and inode-table operations in the same order. Loops are recursions on the number
of rounds that remain; for the loops that advance by bytes or by path elements the
number of rounds is bounded by the bytes or elements that are left.
-/
namespace Xv6
open Library
open Function (update)
variable {β : Type} (sb : Superblock)

/-! ## Blocks -/

def bzero (bno : ℕ) : Code β Unit := do
  let bp ← bread bno
  setData bp Bytes.zero
  logWrite bp
  brelse bp

/-- The inner loop of `balloc`: the first `bi` from `bi` on, below `BPB` and with
`b + bi < sb.size`, whose bit is clear. -/
def freeBit (d : Block) (b : ℕ) : ℕ → ℕ → Option ℕ
  | 0, _ => none
  | fuel + 1, bi =>
    if bi < BPB ∧ b + bi < sb.size then
      if d.get (bi / 8) &&& (1#8 <<< (bi % 8)) = 0#8 then some bi
      else freeBit d b fuel (bi + 1)
    else none

def ballocFrom : ℕ → ℕ → Code β ℕ
  | 0, _ => pure 0
  | fuel + 1, b => do
    if b < sb.size then
      let bp ← bread (sb.bblock b)
      let d ← bdata bp
      match freeBit sb d b BPB 0 with
      | some bi =>
        setData bp (d.setBit bi)
        logWrite bp
        brelse bp
        bzero (b + bi)
        pure (b + bi)
      | none =>
        brelse bp
        ballocFrom fuel (b + BPB)
    else pure 0

def balloc : Code β ℕ := ballocFrom sb (sb.size / BPB + 1) 0

def bfree (b : ℕ) : Code β Unit := do
  let bp ← bread (sb.bblock b)
  let d ← bdata bp
  let bi := b % BPB
  if d.get (bi / 8) &&& (1#8 <<< (bi % 8)) = 0#8 then
    panic .freeingFreeBlock
  else
    setData bp (d.clearBit bi)
    logWrite bp
    brelse bp

/-! ## Inodes -/

def iallocFrom (dev : ℕ) (type : BitVec 16) : List ℕ → Code β (Option (Fin NINODE))
  | [] => pure none
  | inum :: rest => do
    let bp ← bread (sb.iblock inum)
    let d ← bdata bp
    if (Dinode.ofBlock d (inum % IPB)).type = 0 then
      setData bp (Dinode.toBlock d (inum % IPB) { Dinode.zero with type := type })
      logWrite bp
      brelse bp
      let ip : Fin NINODE ← env (.iget dev inum)
      pure (some ip)
    else
      brelse bp
      iallocFrom dev type rest

def ialloc (dev : ℕ) (type : BitVec 16) : Code β (Option (Fin NINODE)) :=
  iallocFrom sb dev type (List.range' 1 (sb.ninodes - 1))

def iupdate (ip : Fin NINODE) : Code β Unit := do
  let i : Inode ← env (.inode ip)
  let bp ← bread (sb.iblock i.inum)
  let d ← bdata bp
  setData bp (Dinode.toBlock d (i.inum % IPB) i.din)
  logWrite bp
  brelse bp

def setDin (ip : Fin NINODE) (din : Dinode) : Code β Unit := do
  let i : Inode ← env (.inode ip)
  env (.setInode ip i.valid din)

def ilock (ip : Fin NINODE) : Code β Unit := do
  env (.ilock ip)
  let i : Inode ← env (.inode ip)
  if i.valid then pure ()
  else
    let bp ← bread (sb.iblock i.inum)
    let d ← bdata bp
    let din := Dinode.ofBlock d (i.inum % IPB)
    brelse bp
    env (.setInode ip true din)
    if din.type = 0 then panic .ilockNoType else pure ()

def iunlock (ip : Fin NINODE) : Code β Unit := env (.iunlock ip)

/-- Returns 0 if out of disk space. -/
def bmap (ip : Fin NINODE) (bn : ℕ) : Code β ℕ := do
  let i : Inode ← env (.inode ip)
  if bn < NDIRECT then
    let k := Fin.ofNat 13 bn
    let addr := (i.din.addrs k).toNat
    if addr = 0 then
      let addr ← balloc sb
      if addr = 0 then pure 0
      else
        setDin ip { i.din with addrs := update i.din.addrs k (BitVec.ofNat 32 addr) }
        pure addr
    else pure addr
  else if bn - NDIRECT < NINDIRECT then
    let addr := (i.din.addrs 12).toNat
    -- load the indirect block, allocating it if necessary
    let addr ← (if addr = 0 then do
        let addr ← balloc sb
        if addr = 0 then pure 0
        else
          setDin ip { i.din with addrs := update i.din.addrs 12 (BitVec.ofNat 32 addr) }
          pure addr
      else pure addr)
    if addr = 0 then pure 0
    else
      let bp ← bread addr
      let a ← bdata bp
      let addr := ofLe (a.slice (4 * (bn - NDIRECT)) 4)
      if addr = 0 then
        let addr ← balloc sb
        if addr = 0 then
          brelse bp
          pure 0
        else
          let a ← bdata bp
          setData bp (a.splice (4 * (bn - NDIRECT)) (leBytes 4 addr))
          logWrite bp
          brelse bp
          pure addr
      else
        brelse bp
        pure addr
  else panic .bmapOutOfRange

def itruncDirect (ip : Fin NINODE) : List (Fin 13) → Code β Unit
  | [] => pure ()
  | k :: rest => do
    let i : Inode ← env (.inode ip)
    if (i.din.addrs k).toNat ≠ 0 then
      bfree sb (i.din.addrs k).toNat
      setDin ip { i.din with addrs := update i.din.addrs k 0 }
      itruncDirect ip rest
    else itruncDirect ip rest

def itruncIndirect (bp : β) : List ℕ → Code β Unit
  | [] => pure ()
  | j :: rest => do
    let a ← bdata bp
    if ofLe (a.slice (4 * j) 4) ≠ 0 then
      bfree sb (ofLe (a.slice (4 * j) 4))
      itruncIndirect bp rest
    else itruncIndirect bp rest

def itrunc (ip : Fin NINODE) : Code β Unit := do
  itruncDirect sb ip ((List.finRange 13).take NDIRECT)
  let i : Inode ← env (.inode ip)
  if (i.din.addrs 12).toNat ≠ 0 then
    let bp ← bread (i.din.addrs 12).toNat
    itruncIndirect sb bp (List.range NINDIRECT)
    brelse bp
    bfree sb (i.din.addrs 12).toNat
    setDin ip { i.din with addrs := update i.din.addrs 12 0 }
  else pure ()
  let i : Inode ← env (.inode ip)
  setDin ip { i.din with size := 0 }
  iupdate sb ip

def iput (ip : Fin NINODE) : Code β Unit := do
  let free : Bool ← env (.iputTest ip)
  if free then
    itrunc sb ip
    let i : Inode ← env (.inode ip)
    setDin ip { i.din with type := 0 }
    iupdate sb ip
    let i : Inode ← env (.inode ip)
    env (.setInode ip false i.din)
    env (.ireleasesleep ip)
    env (.idrop ip)
  else pure ()

def iunlockput (ip : Fin NINODE) : Code β Unit := do
  iunlock ip
  iput sb ip

/-! ## Inode content -/

inductive Dst
  | kernel
  | user (va : ℕ)

inductive Src
  | kernel (bytes : List Byte)
  | user (va : ℕ)

/-- `either_copyout`, with the bytes a kernel destination received. -/
def eitherCopyout (dst : Dst) (tot : ℕ) (bytes : List Byte) : Code β Bool :=
  match dst with
  | .kernel => pure true
  | .user va => env (.copyout (va + tot) bytes)

/-- `either_copyin(bp->data + off, user_src, src + tot, m)` -/
def eitherCopyin (bp : β) (off : ℕ) (src : Src) (tot m : ℕ) : Code β Bool :=
  match src with
  | .kernel bytes => do
    let d ← bdata bp
    setData bp (d.splice off ((bytes.drop tot).take m))
    pure true
  | .user va => Prog.call (Op.copyin bp off (va + tot) m)

/-- The loop of `readi`. The result is `tot` and the bytes copied out; `none` stands
for the assignment `tot = -1`. -/
def readiLoop (ip : Fin NINODE) (dst : Dst) (n : ℕ) : ℕ → ℕ → ℕ → List Byte →
    Code β (Option ℕ × List Byte)
  | 0, tot, _, acc => pure (some tot,acc)
  | fuel + 1, tot, off, acc => do
    if tot < n then
      let addr ← bmap sb ip (off / BSIZE)
      if addr = 0 then pure (some tot,acc)
      else
        let bp ← bread addr
        let m := min (n - tot) (BSIZE - off % BSIZE)
        let d ← bdata bp
        let ok ← eitherCopyout dst tot (d.slice (off % BSIZE) m)
        brelse bp
        if ok then readiLoop ip dst n fuel (tot + m) (off + m) (acc ++ d.slice (off % BSIZE) m)
        else pure (none,acc)
    else pure (some tot,acc)

def readi (ip : Fin NINODE) (dst : Dst) (off n : ℕ) : Code β (Option ℕ × List Byte) := do
  let i : Inode ← env (.inode ip)
  if i.din.size.toNat < off ∨ (off + n) % 2 ^ 32 < off then pure (some 0,[])
  else
    let n := if i.din.size.toNat < (off + n) % 2 ^ 32 then i.din.size.toNat - off else n
    readiLoop sb ip dst n n 0 off []

/-- The loop of `writei`; the results are `tot` and `off` after it. -/
def writeiLoop (ip : Fin NINODE) (src : Src) (n : ℕ) : ℕ → ℕ → ℕ → Code β (ℕ × ℕ)
  | 0, tot, off => pure (tot,off)
  | fuel + 1, tot, off => do
    if tot < n then
      let addr ← bmap sb ip (off / BSIZE)
      if addr = 0 then pure (tot,off)
      else
        let bp ← bread addr
        let m := min (n - tot) (BSIZE - off % BSIZE)
        let ok ← eitherCopyin bp (off % BSIZE) src tot m
        if ok then
          logWrite bp
          brelse bp
          writeiLoop ip src n fuel (tot + m) (off + m)
        else
          brelse bp
          pure (tot,off)
    else pure (tot,off)

/-- Write data to inode. Returns the number of bytes successfully written; `none`
stands for -1. -/
def writei (ip : Fin NINODE) (src : Src) (off n : ℕ) : Code β (Option ℕ) := do
  let i : Inode ← env (.inode ip)
  if i.din.size.toNat < off ∨ (off + n) % 2 ^ 32 < off then pure none
  else if MAXFILE * BSIZE < (off + n) % 2 ^ 32 then pure none
  else
    let r ← writeiLoop sb ip src n n 0 off
    let i : Inode ← env (.inode ip)
    if i.din.size.toNat < r.2 then
      setDin ip { i.din with size := BitVec.ofNat 32 r.2 }
    else pure ()
    -- write the i-node back to disk even if the size didn't change
    -- because the loop above might have called bmap() and added a new
    -- block to ip->addrs[]
    iupdate sb ip
    pure (some r.1)

/-! ## Directories -/

/-- `strncmp(p, q, n)` on NUL-padded strings; a missing character is NUL. -/
def strncmp : ℕ → List Byte → List Byte → ℤ
  | 0, _, _ => 0
  | n + 1, p, q =>
    if p.headD 0 ≠ 0 ∧ p.headD 0 = q.headD 0 then strncmp n p.tail q.tail
    else ((p.headD 0).toNat : ℤ) - (q.headD 0).toNat

def namecmp (s t : List Byte) : ℤ := strncmp DIRSIZ s t

/-- `strncpy(s, t, n)`: the characters of `t` up to a NUL, then NULs. -/
def strncpy : ℕ → List Byte → List Byte
  | 0, _ => []
  | n + 1, t => if t.headD 0 = 0 then List.replicate (n + 1) 0 else t.headD 0 :: strncpy n t.tail

/-- The loop of `dirlookup`; the result holds the inode and the byte offset of the entry. -/
def dirlookupFrom (dp : Fin NINODE) (name : List Byte) : ℕ → ℕ → Code β (Option (Fin NINODE × ℕ))
  | 0, _ => pure none
  | fuel + 1, off => do
    let d : Inode ← env (.inode dp)
    if off < d.din.size.toNat then
      let r ← readi sb dp .kernel off 16
      if r.1 ≠ some 16 then panic .dirlookupRead
      else
        let de := Dirent.ofBytes r.2
        if de.inum = 0 then dirlookupFrom dp name fuel (off + 16)
        else if namecmp name de.name = 0 then
          let ip : Fin NINODE ← env (.iget d.dev de.inum.toNat)
          pure (some (ip,off))
        else dirlookupFrom dp name fuel (off + 16)
    else pure none

def dirlookup (dp : Fin NINODE) (name : List Byte) : Code β (Option (Fin NINODE × ℕ)) := do
  let d : Inode ← env (.inode dp)
  if d.din.type ≠ T_DIR then panic .dirlookupNotDir
  else dirlookupFrom sb dp name (d.din.size.toNat / 16 + 1) 0

/-- The loop of `dirlink` that looks for an empty dirent. -/
def dirlinkFrom (dp : Fin NINODE) : ℕ → ℕ → Code β ℕ
  | 0, off => pure off
  | fuel + 1, off => do
    let d : Inode ← env (.inode dp)
    if off < d.din.size.toNat then
      let r ← readi sb dp .kernel off 16
      if r.1 ≠ some 16 then panic .dirlinkRead
      else if (Dirent.ofBytes r.2).inum = 0 then pure off
      else dirlinkFrom dp fuel (off + 16)
    else pure off

def dirlink (dp : Fin NINODE) (name : List Byte) (inum : ℕ) : Code β Bool := do
  let found ← dirlookup sb dp name
  match found with
  | some (ip,_) =>
    iput sb ip
    pure false
  | none =>
    let d : Inode ← env (.inode dp)
    let off ← dirlinkFrom sb dp (d.din.size.toNat / 16 + 1) 0
    let r ← writei sb dp
      (.kernel (Dirent.bytes ⟨BitVec.ofNat 16 inum,strncpy DIRSIZ name⟩)) off 16
    pure (decide (r = some 16))

/-! ## Paths -/

abbrev slash : Byte := 47#8

def lastComponent (path : List Byte) : List Byte := (path.reverse.takeWhile (· != slash)).reverse

/-- Copy the next path element from path into name and return what follows it, or
`none` if there is no name to remove. -/
def skipelem (path : List Byte) : Option (List Byte × List Byte) :=
  let s := path.dropWhile (· == slash)
  if s.isEmpty then none
  else some ((s.takeWhile (· != slash)).take DIRSIZ,
    (s.dropWhile (· != slash)).dropWhile (· == slash))

def pathElemsFrom : ℕ → List Byte → List (List Byte)
  | 0, _ => []
  | fuel + 1, path =>
    match skipelem path with
    | none => []
    | some (name,rest) => name :: pathElemsFrom fuel rest

def pathElems (path : List Byte) : List (List Byte) := pathElemsFrom path.length path

/-- The loop of `namex` over the path elements that are left. With `nameiparent` the
name returned is the final element. -/
def namexLoop (nameiparent : Bool) : Fin NINODE → List (List Byte) →
    Code β (Option (Fin NINODE × List Byte))
  | ip, [] => do
    if nameiparent then
      iput sb ip
      pure none
    else pure (some (ip,[]))
  | ip, name :: rest => do
    ilock sb ip
    let i : Inode ← env (.inode ip)
    if i.din.type ≠ T_DIR then
      iunlockput sb ip
      pure none
    else if nameiparent ∧ rest.isEmpty then
      -- stop one level early
      iunlock ip
      pure (some (ip,name))
    else
      let next ← dirlookup sb ip name
      match next with
      | none =>
        iunlockput sb ip
        pure none
      | some (next,_) =>
        iunlockput sb ip
        namexLoop nameiparent next rest

def namex (path : List Byte) (nameiparent : Bool) : Code β (Option (Fin NINODE × List Byte)) := do
  if path.head? = some slash then
    let ip : Fin NINODE ← env (.iget ROOTDEV ROOTINO)
    namexLoop sb nameiparent ip (pathElems path)
  else
    let p : Proc ← env .proc
    match p.cwd with
    | none => panic .kerneltrap
    | some cwd =>
      env (.idup cwd)
      namexLoop sb nameiparent cwd (pathElems path)

def namei (path : List Byte) : Code β (Option (Fin NINODE)) := do
  let r ← namex sb path false
  pure (r.map Prod.fst)

def nameiparent (path : List Byte) : Code β (Option (Fin NINODE × List Byte)) :=
  namex sb path true

end Xv6
