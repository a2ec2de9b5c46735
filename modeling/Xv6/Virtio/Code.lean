import Xv6.Disk.Format

/-! # `virtio_disk.c`

`virtio_disk_rw` and `virtio_disk_intr` run under `vdisk_lock`, but the device does not take it:
it reads the descriptors and the avail ring and writes the used ring and the status bytes at any
time. The code is therefore cut at every access that the device can see, and at `sleep`.
-/
namespace Xv6.Virtio
open Function (update)

abbrev NUM : ℕ := 8

abbrev VRING_DESC_F_NEXT : BitVec 16 := 1
abbrev VRING_DESC_F_WRITE : BitVec 16 := 2

abbrev VIRTIO_BLK_T_IN : BitVec 32 := 0
abbrev VIRTIO_BLK_T_OUT : BitVec 32 := 1

inductive Fault
  /-- `free_desc 1` -/
  | freeDesc1
  /-- `free_desc 2` -/
  | freeDesc2
  /-- `virtio_disk_intr status` -/
  | status
  /-- `info[id].b` is null -/
  | null
  /-- `info[id]` is outside the array -/
  | bounds
  deriving DecidableEq

inductive Addr (B : Type)
  | null
  /-- `&disk.ops[i]` -/
  | op (i : Fin NUM)
  /-- `b->data` -/
  | data (b : B)
  /-- `&disk.info[i].status` -/
  | status (i : Fin NUM)

structure Desc (B : Type) where
  addr : Addr B
  len : ℕ
  flags : BitVec 16
  next : ℕ

def Desc.zero {B : Type} : Desc B := ⟨.null,0,0,0⟩

structure BlkReq where
  type : BitVec 32
  reserved : BitVec 32
  sector : BitVec 64

structure Info (B : Type) where
  b : Option B
  status : BitVec 8

/-- `struct disk` with the pages it shares with the device, and `b->disk` of every buffer. -/
structure Mem (B : Type) where
  desc : Fin NUM → Desc B
  availRing : Fin NUM → ℕ
  availIdx : BitVec 16
  usedRing : Fin NUM → ℕ
  /-- `used->idx`, which the device increments -/
  deviceIdx : BitVec 16
  free : Fin NUM → Bool
  usedIdx : BitVec 16
  info : Fin NUM → Info B
  ops : Fin NUM → BlkReq
  disk : B → Bool

structure Chain where
  head : Fin NUM
  data : Fin NUM
  status : Fin NUM
  deriving DecidableEq

structure Req (B : Type) where
  b : B
  sector : BitVec 64
  write : Bool

/-- `b->blockno * (BSIZE / 512)` is a product of 32 bits. -/
def Req.of {B : Type} (b : B) (blockno : BitVec 32) (write : Bool) : Req B :=
  ⟨b,(blockno * BitVec.ofNat 32 (BSIZE / 512)).setWidth 64,write⟩

namespace Mem
variable {B : Type}

def allocDesc (m : Mem B) : Option (Fin NUM × Mem B) :=
  ((List.finRange NUM).find? m.free).map fun i => (i,{ m with free := update m.free i false })

def freeDesc (m : Mem B) (i : ℕ) : Except Fault (Mem B) :=
  if h : i < NUM then
    if m.free ⟨i,h⟩ then .error .freeDesc2
    else .ok { m with desc := update m.desc ⟨i,h⟩ .zero, free := update m.free ⟨i,h⟩ true }
  else .error .freeDesc1

/-- Each round marks one more descriptor as free, so that the loop panics or ends within `NUM + 1` rounds. -/
def freeChainFrom : ℕ → Mem B → ℕ → Except Fault (Mem B)
  | 0, _, _ => .error .freeDesc2
  | fuel + 1, m, i =>
    if h : i < NUM then do
      let d := m.desc ⟨i,h⟩
      let m' ← m.freeDesc i
      if d.flags &&& VRING_DESC_F_NEXT ≠ 0 then freeChainFrom fuel m' d.next
      else .ok m'
    else .error .freeDesc1

def freeChain (m : Mem B) (i : ℕ) : Except Fault (Mem B) := freeChainFrom (NUM + 1) m i

/-- `for(int j = 0; j < i; j++) free_desc(idx[j])` -/
def freeDescs (m : Mem B) : List (Fin NUM) → Except Fault (Mem B)
  | [] => .ok m
  | i :: l => do
    let m' ← m.freeDesc i
    m'.freeDescs l

/-- The loop of `alloc3_desc`, with `idx[0..i)` allocated and `n` more to come. -/
def alloc3From (m : Mem B) (idx : List (Fin NUM)) : ℕ → Except Fault (Mem B × Option (List (Fin NUM)))
  | 0 => .ok (m,some idx)
  | n + 1 =>
    match m.allocDesc with
    | some (i,m') => m'.alloc3From (idx ++ [i]) n
    | none => do
      let m' ← m.freeDescs idx
      .ok (m',none)

def alloc3Desc (m : Mem B) : Except Fault (Mem B × Option (List (Fin NUM))) := m.alloc3From [] 3

/-- From the allocation to `disk.info[idx[0]].b = b`. -/
def format [DecidableEq B] (m : Mem B) (r : Req B) (c : Chain) : Mem B :=
  let desc := update m.desc c.head ⟨.op c.head,16,VRING_DESC_F_NEXT,c.data⟩
  let desc := update desc c.data
    ⟨.data r.b,BSIZE,(if r.write then 0 else VRING_DESC_F_WRITE) ||| VRING_DESC_F_NEXT,c.status⟩
  let desc := update desc c.status ⟨.status c.head,1,VRING_DESC_F_WRITE,0⟩
  { m with
    ops := update m.ops c.head ⟨if r.write then VIRTIO_BLK_T_OUT else VIRTIO_BLK_T_IN,0,r.sector⟩
    desc := desc
    info := update m.info c.head ⟨some r.b,0xff⟩
    disk := update m.disk r.b true }

def slot (i : BitVec 16) : Fin NUM := Fin.ofNat NUM i.toNat

end Mem

inductive Point (B : Type)
  /-- `alloc3_desc(idx)` -/
  | alloc (r : Req B)
  | format (r : Req B) (c : Chain)
  /-- `disk.avail->ring[disk.avail->idx % NUM] = idx[0]` -/
  | publish (r : Req B) (c : Chain)
  /-- `disk.avail->idx += 1` -/
  | bump (r : Req B) (c : Chain)
  /-- `while(b->disk == 1)` -/
  | wait (r : Req B) (c : Chain)
  /-- `disk.info[idx[0]].b = 0` and `free_chain(idx[0])` -/
  | finish (r : Req B) (c : Chain)
  /-- `release` at the end of `virtio_disk_rw` -/
  | ret (r : Req B) (c : Chain)
  /-- `while(disk.used_idx != disk.used->idx)` of `virtio_disk_intr` -/
  | intr
  /-- `int id = disk.used->ring[disk.used_idx % NUM].id` -/
  | intrId
  | intrClear (id : ℕ)

inductive Next (B : Type)
  | goto (k : Point B)
  /-- `sleep(chan, &disk.vdisk_lock)`, then `k` -/
  | sleep (k : Point B)
  /-- `release(&disk.vdisk_lock)` and return -/
  | done

def Point.exec {B : Type} [DecidableEq B] (m : Mem B) : Point B → Except Fault (Next B × Mem B)
  | .alloc r => do
    match ← m.alloc3Desc with
    | (m',some [i,j,k]) => .ok (.goto (.format r ⟨i,j,k⟩),m')
    | (m',_) => .ok (.sleep (.alloc r),m')
  | .format r c => .ok (.goto (.publish r c),m.format r c)
  | .publish r c =>
    .ok (.goto (.bump r c),{ m with availRing := update m.availRing (Mem.slot m.availIdx) c.head })
  | .bump r c => .ok (.goto (.wait r c),{ m with availIdx := m.availIdx + 1 })
  | .wait r c => .ok (if m.disk r.b then .sleep (.wait r c) else .goto (.finish r c),m)
  | .finish r c => do
    let m' ← Mem.freeChain { m with info := update m.info c.head { m.info c.head with b := none } } c.head
    .ok (.goto (.ret r c),m')
  | .ret _ _ => .ok (.done,m)
  | .intr => .ok (if m.usedIdx ≠ m.deviceIdx then .goto .intrId else .done,m)
  | .intrId => .ok (.goto (.intrClear (m.usedRing (Mem.slot m.usedIdx))),m)
  | .intrClear id =>
    if h : id < NUM then
      if (m.info ⟨id,h⟩).status ≠ 0 then .error .status
      else
        match (m.info ⟨id,h⟩).b with
        | none => .error .null
        | some b => .ok (.goto .intr,{ m with disk := update m.disk b false, usedIdx := m.usedIdx + 1 })
    else .error .bounds

/-! ## The device -/

/-- What the device makes of the chain that starts at a descriptor: the request, and where its
status byte goes. -/
def Mem.command {B : Type} (m : Mem B) (head : ℕ) : Option (Req B × Fin NUM) := do
  let d ← if h : head < NUM then some (m.desc ⟨head,h⟩) else none
  let d' ← if h : d.next < NUM then some (m.desc ⟨d.next,h⟩) else none
  let d'' ← if h : d'.next < NUM then some (m.desc ⟨d'.next,h⟩) else none
  if d.flags = VRING_DESC_F_NEXT ∧ d'.flags &&& VRING_DESC_F_NEXT ≠ 0 ∧ d''.flags = VRING_DESC_F_WRITE ∧
      d.len = 16 ∧ d'.len = BSIZE ∧ d''.len = 1 then
    match d.addr, d'.addr, d''.addr with
    | .op i, .data b, .status j =>
      let op := m.ops i
      -- the device writes into the buffer for a read, and only then
      if op.type = VIRTIO_BLK_T_IN ∧ d'.flags &&& VRING_DESC_F_WRITE ≠ 0 then some (⟨b,op.sector,false⟩,j)
      else if op.type = VIRTIO_BLK_T_OUT ∧ d'.flags &&& VRING_DESC_F_WRITE = 0 then some (⟨b,op.sector,true⟩,j)
      else none
    | _, _, _ => none
  else none

end Xv6.Virtio
