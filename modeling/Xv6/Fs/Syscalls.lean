import Xv6.Fs.Code

/-! # `file.c` and `sysfile.c`: the file system calls

A path argument is what the user's memory holds: `none` when it cannot be read.
Returned file descriptors and error codes are kept; -1 is `-1`. Pipes and devices
are reached through `external`, which touches no file system state.
-/
namespace Xv6
open Library
variable {β : Type} (sb : Superblock)

abbrev O_RDONLY : BitVec 32 := 0x000#32
abbrev O_WRONLY : BitVec 32 := 0x001#32
abbrev O_RDWR : BitVec 32 := 0x002#32
abbrev O_CREATE : BitVec 32 := 0x200#32
abbrev O_TRUNC : BitVec 32 := 0x400#32

abbrev dot : List Byte := [46#8]
abbrev dotdot : List Byte := [46#8,46#8]

def argstr (arg : Option (List Byte)) : Option (List Byte) :=
  match arg with
  | none => none
  | some s =>
    let t := s.takeWhile (· != 0)
    if t.length < MAXPATH then some t else none

def argfd (fd : ℤ) (p : Proc) : Option (Fin NOFILE × Fin NFILE) :=
  if h : 0 ≤ fd ∧ fd < NOFILE then
    let k : Fin NOFILE := ⟨fd.toNat,by omega⟩
    (p.ofile k).map (fun f => (k,f))
  else none

def fileclose (f : Fin NFILE) : Code β Unit := do
  let last : Option File ← env (.fileclose f)
  match last with
  | none => pure ()
  | some ff =>
    match ff.type with
    | .pipe => do
      let _ : ℤ ← env (.external (.pipeclose ff.pipe ff.writable))
      pure ()
    | .inode | .device => do
      beginOp
      iput sb ff.ip
      endOp
    | .none => pure ()

def stati (i : Inode) : List Byte :=
  leBytes 4 i.dev ++ leBytes 4 i.inum ++ leBytes 2 i.din.type.toNat ++ leBytes 2 i.din.nlink.toNat ++
    leBytes 4 0 ++ leBytes 8 i.din.size.toNat

def filestat (f : Fin NFILE) (addr : ℕ) : Code β ℤ := do
  let x : File ← env (.file f)
  if x.type = .inode ∨ x.type = .device then
    ilock sb x.ip
    let i : Inode ← env (.inode x.ip)
    iunlock x.ip
    let ok : Bool ← env (.copyout addr (stati i))
    pure (if ok then 0 else -1)
  else pure (-1)

/-- `f->major < 0 || f->major >= NDEV` -/
def badMajor (major : BitVec 16) : Bool := decide (major.toInt < 0 ∨ (NDEV : ℤ) ≤ major.toInt)

/-- Read from file f. The int `n` becomes a uint in `readi`. -/
def fileread (f : Fin NFILE) (addr : ℕ) (n : ℤ) : Code β ℤ := do
  let x : File ← env (.file f)
  if x.readable = false then pure (-1)
  else
    match x.type with
    | .pipe => env (.external (.piperead x.pipe addr n))
    | .device =>
      if badMajor x.major then pure (-1) else env (.external (.devread x.major addr n))
    | .inode => do
      ilock sb x.ip
      let x : File ← env (.file f)
      let r ← readi sb x.ip (.user addr) x.off.toNat (n % 2 ^ 32).toNat
      match r.1 with
      | some tot => do
        if 0 < tot then env (.setOff f (x.off + BitVec.ofNat 32 tot)) else pure ()
        iunlock x.ip
        pure tot
      | none => do
        iunlock x.ip
        pure (-1)
    | .none => panic .fileread

/-- `((MAXOPBLOCKS-1-1-2) / 2) * BSIZE` -/
abbrev filewriteMax : ℕ := 3072

/-- The loop of `filewrite`; the result is the final `i`. -/
def filewriteLoop (f : Fin NFILE) (addr n : ℕ) : ℕ → ℕ → Code β ℕ
  | 0, i => pure i
  | fuel + 1, i => do
    if i < n then
      let n1 := min (n - i) filewriteMax
      beginOp
      let x : File ← env (.file f)
      ilock sb x.ip
      let x : File ← env (.file f)
      let r ← writei sb x.ip (.user (addr + i)) x.off.toNat n1
      match r with
      | some tot => if 0 < tot then env (.setOff f (x.off + BitVec.ofNat 32 tot)) else pure ()
      | none => pure ()
      iunlock x.ip
      endOp
      if r = some n1 then filewriteLoop f addr n fuel (i + n1) else pure i
    else pure i

def filewrite (f : Fin NFILE) (addr : ℕ) (n : ℤ) : Code β ℤ := do
  let x : File ← env (.file f)
  if x.writable = false then pure (-1)
  else
    match x.type with
    | .pipe => env (.external (.pipewrite x.pipe addr n))
    | .device =>
      if badMajor x.major then pure (-1) else env (.external (.devwrite x.major addr n))
    | .inode => do
      let i ← filewriteLoop sb f addr n.toNat n.toNat 0
      pure (if (i : ℤ) = n then n else -1)
    | .none => panic .filewrite

def sysLink (old new : Option (List Byte)) : Code β ℤ := do
  match argstr old, argstr new with
  | some old, some new => do
    beginOp
    let r ← namei sb old
    match r with
    | none => do
      endOp
      pure (-1)
    | some ip => do
      ilock sb ip
      let i : Inode ← env (.inode ip)
      if i.din.type = T_DIR then
        iunlockput sb ip
        endOp
        pure (-1)
      else
        setDin ip { i.din with nlink := i.din.nlink + 1 }
        iupdate sb ip
        iunlock ip
        let linked : Bool ← (do
          let r ← nameiparent sb new
          match r with
          | none => pure false
          | some (dp,name) => do
            ilock sb dp
            let d : Inode ← env (.inode dp)
            let i : Inode ← env (.inode ip)
            let ok ← (if d.dev ≠ i.dev then pure false else dirlink sb dp name i.inum)
            iunlockput sb dp
            pure ok)
        if linked then
          iput sb ip
          endOp
          pure 0
        else
          -- bad:
          ilock sb ip
          let i : Inode ← env (.inode ip)
          setDin ip { i.din with nlink := i.din.nlink - 1 }
          iupdate sb ip
          iunlockput sb ip
          endOp
          pure (-1)
  | _, _ => pure (-1)

def isdiremptyFrom (dp : Fin NINODE) : ℕ → ℕ → Code β Bool
  | 0, _ => pure true
  | fuel + 1, off => do
    let d : Inode ← env (.inode dp)
    if off < d.din.size.toNat then
      let r ← readi sb dp .kernel off 16
      if r.1 ≠ some 16 then panic .isdiremptyReadi
      else if (Dirent.ofBytes r.2).inum ≠ 0 then pure false
      else isdiremptyFrom dp fuel (off + 16)
    else pure true

def isdirempty (dp : Fin NINODE) : Code β Bool := do
  let d : Inode ← env (.inode dp)
  isdiremptyFrom sb dp (d.din.size.toNat / 16 + 1) 32

def sysUnlink (path : Option (List Byte)) : Code β ℤ := do
  match argstr path with
  | none => pure (-1)
  | some path => do
    beginOp
    let r ← nameiparent sb path
    match r with
    | none => do
      endOp
      pure (-1)
    | some (dp,name) => do
      ilock sb dp
      -- cannot unlink "." or ".."
      if namecmp name dot = 0 ∨ namecmp name dotdot = 0 then
        iunlockput sb dp
        endOp
        pure (-1)
      else
        let found ← dirlookup sb dp name
        match found with
        | none => do
          iunlockput sb dp
          endOp
          pure (-1)
        | some (ip,off) => do
          ilock sb ip
          let i : Inode ← env (.inode ip)
          if i.din.nlink.toInt < 1 then panic .unlinkNlink
          else
            let empty ← (if i.din.type = T_DIR then isdirempty sb ip else pure true)
            if empty = false then
              iunlockput sb ip
              iunlockput sb dp
              endOp
              pure (-1)
            else
              let w ← writei sb dp (.kernel (List.replicate 16 0)) off 16
              if w ≠ some 16 then panic .unlinkWritei
              else
                if i.din.type = T_DIR then
                  let d : Inode ← env (.inode dp)
                  setDin dp { d.din with nlink := d.din.nlink - 1 }
                  iupdate sb dp
                else pure ()
                iunlockput sb dp
                let i : Inode ← env (.inode ip)
                setDin ip { i.din with nlink := i.din.nlink - 1 }
                iupdate sb ip
                iunlockput sb ip
                endOp
                pure 0

def create (path : List Byte) (type major minor : BitVec 16) : Code β (Option (Fin NINODE)) := do
  let r ← nameiparent sb path
  match r with
  | none => pure none
  | some (dp,name) => do
    ilock sb dp
    let found ← dirlookup sb dp name
    match found with
    | some (ip,_) => do
      iunlockput sb dp
      ilock sb ip
      let i : Inode ← env (.inode ip)
      if type = T_FILE ∧ (i.din.type = T_FILE ∨ i.din.type = T_DEVICE) then pure (some ip)
      else
        iunlockput sb ip
        pure none
    | none => do
      let d : Inode ← env (.inode dp)
      let r ← ialloc sb d.dev type
      match r with
      | none => do
        iunlockput sb dp
        pure none
      | some ip => do
        ilock sb ip
        let i : Inode ← env (.inode ip)
        setDin ip { i.din with major := major, minor := minor, nlink := 1 }
        iupdate sb ip
        -- create . and .. entries; no ip->nlink++ for ".": avoid cyclic ref count
        let ok ← (if type = T_DIR then do
            let ok ← dirlink sb ip dot i.inum
            if ok then dirlink sb ip dotdot d.inum else pure false
          else pure true)
        let ok ← (if ok then dirlink sb dp name i.inum else pure false)
        if ok then
          if type = T_DIR then
            -- now that success is guaranteed: for ".."
            let d : Inode ← env (.inode dp)
            setDin dp { d.din with nlink := d.din.nlink + 1 }
            iupdate sb dp
          else pure ()
          iunlockput sb dp
          pure (some ip)
        else
          -- fail: something went wrong. de-allocate ip
          let i : Inode ← env (.inode ip)
          setDin ip { i.din with nlink := 0 }
          iupdate sb ip
          iunlockput sb ip
          iunlockput sb dp
          pure none

/-- The part of `sys_open` that finds or creates the inode and locks it. -/
def openInode (path : List Byte) (omode : BitVec 32) : Code β (Option (Fin NINODE)) := do
  if omode &&& O_CREATE ≠ 0 then create sb path T_FILE 0 0
  else
    let r ← namei sb path
    match r with
    | none => pure none
    | some ip => do
      ilock sb ip
      let i : Inode ← env (.inode ip)
      if i.din.type = T_DIR ∧ omode ≠ O_RDONLY then
        iunlockput sb ip
        pure none
      else pure (some ip)

def sysOpen (path : Option (List Byte)) (omode : BitVec 32) : Code β ℤ := do
  match argstr path with
  | none => pure (-1)
  | some path => do
    beginOp
    let r ← openInode sb path omode
    match r with
    | none => do
      endOp
      pure (-1)
    | some ip => do
      let i : Inode ← env (.inode ip)
      if i.din.type = T_DEVICE ∧ badMajor i.din.major then
        iunlockput sb ip
        endOp
        pure (-1)
      else
        let r : Option (Fin NFILE) ← env .filealloc
        match r with
        | none => do
          iunlockput sb ip
          endOp
          pure (-1)
        | some f => do
          let r : Option (Fin NOFILE) ← env (.fdalloc f)
          match r with
          | none => do
            fileclose sb f
            iunlockput sb ip
            endOp
            pure (-1)
          | some fd => do
            let x : File ← env (.file f)
            let readable := decide (omode &&& O_WRONLY = 0)
            let writable := decide (omode &&& O_WRONLY ≠ 0 ∨ omode &&& O_RDWR ≠ 0)
            if i.din.type = T_DEVICE then
              env (.initFile f .device readable writable ip x.off i.din.major)
            else
              env (.initFile f .inode readable writable ip 0 x.major)
            if omode &&& O_TRUNC ≠ 0 ∧ i.din.type = T_FILE then itrunc sb ip else pure ()
            iunlock ip
            endOp
            pure fd.val

/-- `sys_mkdir` and `sys_mknod` after their arguments are fetched. -/
def sysMake (path : Option (List Byte)) (type major minor : BitVec 16) : Code β ℤ := do
  beginOp
  match argstr path with
  | none => do
    endOp
    pure (-1)
  | some path => do
    let r ← create sb path type major minor
    match r with
    | none => do
      endOp
      pure (-1)
    | some ip => do
      iunlockput sb ip
      endOp
      pure 0

def sysMkdir (path : Option (List Byte)) : Code β ℤ := sysMake sb path T_DIR 0 0

def sysMknod (path : Option (List Byte)) (major minor : BitVec 16) : Code β ℤ :=
  sysMake sb path T_DEVICE major minor

def sysChdir (path : Option (List Byte)) : Code β ℤ := do
  beginOp
  match argstr path with
  | none => do
    endOp
    pure (-1)
  | some path => do
    let r ← namei sb path
    match r with
    | none => do
      endOp
      pure (-1)
    | some ip => do
      ilock sb ip
      let i : Inode ← env (.inode ip)
      if i.din.type ≠ T_DIR then
        iunlockput sb ip
        endOp
        pure (-1)
      else
        iunlock ip
        let p : Proc ← env .proc
        match p.cwd with
        | none => panic .kerneltrap
        | some cwd => do
          iput sb cwd
          endOp
          env (.setCwd (some ip))
          pure 0

def sysClose (fd : ℤ) : Code β ℤ := do
  let p : Proc ← env .proc
  match argfd fd p with
  | none => pure (-1)
  | some (k,f) => do
    env (.setFd k none)
    fileclose sb f
    pure 0

def sysDup (fd : ℤ) : Code β ℤ := do
  let p : Proc ← env .proc
  match argfd fd p with
  | none => pure (-1)
  | some (_,f) => do
    let r : Option (Fin NOFILE) ← env (.fdalloc f)
    match r with
    | none => pure (-1)
    | some k => do
      env (.filedup f)
      pure k.val

def sysFstat (fd : ℤ) (addr : ℕ) : Code β ℤ := do
  let p : Proc ← env .proc
  match argfd fd p with
  | none => pure (-1)
  | some (_,f) => filestat sb f addr

def sysRead (fd : ℤ) (addr : ℕ) (n : ℤ) : Code β ℤ := do
  let p : Proc ← env .proc
  match argfd fd p with
  | none => pure (-1)
  | some (_,f) => fileread sb f addr n

def sysWrite (fd : ℤ) (addr : ℕ) (n : ℤ) : Code β ℤ := do
  let p : Proc ← env .proc
  match argfd fd p with
  | none => pure (-1)
  | some (_,f) => filewrite sb f addr n

/-- The reads of `exec`, up to the first that falls short. -/
def execReads (ip : Fin NINODE) : List (ℕ × ℕ) → Code β Bool
  | [] => pure true
  | (off,n) :: rest => do
    let r ← readi sb ip .kernel (off % 2 ^ 32) (n % 2 ^ 32)
    if r.1 = some (n % 2 ^ 32) then execReads ip rest else pure false

/-- What `exec` does to the file system. Which parts of the file it reads depends on
the file and on free memory, so the list of reads is arbitrary. -/
def sysExec (path : Option (List Byte)) (reads : List (ℕ × ℕ)) : Code β ℤ := do
  match argstr path with
  | none => pure (-1)
  | some path => do
    beginOp
    let r ← namei sb path
    match r with
    | none => do
      endOp
      pure (-1)
    | some ip => do
      ilock sb ip
      let ok ← execReads sb ip reads
      iunlockput sb ip
      endOp
      pure (if ok then 0 else -1)

/-- The descriptors of `fork`: `filedup` of each open one. -/
def forkFiles : List (Option (Fin NFILE)) → Code β Unit
  | [] => pure ()
  | none :: rest => forkFiles rest
  | some f :: rest => do
    env (.filedup f)
    forkFiles rest

/-- What `fork` does to files and inodes once `allocproc` gave the slot `child` and
memory is copied. -/
def sysFork (child : Pid) : Code β ℤ := do
  let p : Proc ← env .proc
  match p.cwd with
  | none => panic .kerneltrap
  | some cwd => do
    forkFiles ((List.finRange NOFILE).map p.ofile)
    env (.idup cwd)
    env (.forkProc child)
    pure 0

def exitFiles : List (Fin NOFILE) → Code β Unit
  | [] => pure ()
  | fd :: rest => do
    let p : Proc ← env .proc
    match p.ofile fd with
    | none => exitFiles rest
    | some f => do
      fileclose sb f
      env (.setFd fd none)
      exitFiles rest

def sysExit : Code β ℤ := do
  exitFiles sb (List.finRange NOFILE)
  beginOp
  let p : Proc ← env .proc
  match p.cwd with
  | none => panic .kerneltrap
  | some cwd => do
    iput sb cwd
    endOp
    env (.setCwd none)
    pure 0

/-- The calls a process can issue on the file system, with their arguments. -/
inductive Call
  | open (path : Option (List Byte)) (omode : BitVec 32)
  | mkdir (path : Option (List Byte))
  | mknod (path : Option (List Byte)) (major minor : BitVec 16)
  | link (old new : Option (List Byte))
  | unlink (path : Option (List Byte))
  | chdir (path : Option (List Byte))
  | close (fd : ℤ)
  | exit
  | dup (fd : ℤ)
  | fork (child : Pid)
  | read (fd : ℤ) (addr : ℕ) (n : ℤ)
  | write (fd : ℤ) (addr : ℕ) (n : ℤ)
  | fstat (fd : ℤ) (addr : ℕ)
  | exec (path : Option (List Byte)) (reads : List (ℕ × ℕ))

def Call.code : Call → Code β ℤ
  | .open path omode => sysOpen sb path omode
  | .mkdir path => sysMkdir sb path
  | .mknod path major minor => sysMknod sb path major minor
  | .link old new => sysLink sb old new
  | .unlink path => sysUnlink sb path
  | .chdir path => sysChdir sb path
  | .close fd => sysClose sb fd
  | .exit => sysExit sb
  | .dup fd => sysDup fd
  | .fork child => sysFork child
  | .read fd addr n => sysRead sb fd addr n
  | .write fd addr n => sysWrite sb fd addr n
  | .fstat fd addr => sysFstat sb fd addr
  | .exec path reads => sysExec sb path reads

end Xv6
