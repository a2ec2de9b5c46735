import Xv6.Fs.Ownership
import Xv6.Fs.Syscalls

/-! # A small file system

A disk with the directories `/`, `/a` and `/a/b`, on which theorems with hypotheses are
instantiated and runs of the code are evaluated.
-/
namespace Xv6.Sample
open Library

def super : Superblock where
  size := 64
  ninodes := 4
  nlog := 30
  logstart := 1 + 1
  inodestart := 32
  bmapstart := 33
  logstart_eq := rfl
  inodestart_eq := rfl
  bmapstart_eq := rfl
  fits := by decide
  size_lt := by decide
  root_lt := by decide
  ninodes_le := by decide

def ent (inum : BitVec 16) (name : List Byte) : List Byte := Dirent.bytes ⟨inum,strncpy DIRSIZ name⟩

def dir (nlink : BitVec 16) (size : BitVec 32) (addr : BitVec 32) : Dinode :=
  ⟨T_DIR,0,0,nlink,size,fun k => if k = 0 then addr else 0⟩

/-- `/`, `/a` and `/a/b` are inodes 1, 2 and 3. -/
def ino : ℕ → Dinode
  | 1 => dir 2 48 34
  | 2 => dir 2 48 35
  | 3 => dir 1 32 36
  | _ => .zero

def data : Blocks
  | 34 => Bytes.zero.splice 0 (ent 1 dot ++ ent 1 dotdot ++ ent 2 [97])
  | 35 => Bytes.zero.splice 0 (ent 2 dot ++ ent 1 dotdot ++ ent 3 [98])
  | 36 => Bytes.zero.splice 0 (ent 3 dot ++ ent 2 dotdot)
  | _ => Bytes.zero

def image : Image := ⟨fun b => decide (b < 37),ino,data⟩

def bitmap : Block := fun j => if j.val < 4 then 0xff else if j.val = 4 then 0x1f else 0

def blocks : Blocks := fun b =>
  if b = 32 then
    Dinode.toBlock (Dinode.toBlock (Dinode.toBlock Bytes.zero 1 (ino 1)) 2 (ino 2)) 3 (ino 3)
  else if b = 33 then bitmap
  else data b

private theorem used_blocks : ∀ b, b < 64 → (Image.ofBlocks super blocks).used b = image.used b := by
  decide +kernel

private theorem ino_blocks {i : ℕ} (hi : i < 4) : (Image.ofBlocks super blocks).ino i = image.ino i := by
  have hblk : (Image.ofBlocks super blocks).ino i = Dinode.ofBlock (blocks 32) (i % IPB) := by
    rw [Image.ofBlocks_ino (show i < super.ninodes from hi),Superblock.iblock,
      Nat.div_eq_of_lt (by simp only [IPB]; omega)]
    rfl
  rw [hblk,Nat.mod_eq_of_lt (by simp only [IPB]; omega),blocks,if_pos rfl]
  interval_cases i
  · rw [Dinode.ofBlock_toBlock_ne _ (by decide),Dinode.ofBlock_toBlock_ne _ (by decide),
      Dinode.ofBlock_toBlock_ne _ (by decide)]
    have haddrs : ∀ k, (Dinode.ofBlock Bytes.zero 0).addrs k = 0 := by decide +kernel
    exact Dinode.mk.injEq .. ▸ ⟨rfl,rfl,rfl,rfl,rfl,funext haddrs⟩
  · rw [Dinode.ofBlock_toBlock_ne _ (by decide),Dinode.ofBlock_toBlock_ne _ (by decide),
      Dinode.ofBlock_toBlock_same _ (by decide)]
    rfl
  · rw [Dinode.ofBlock_toBlock_ne _ (by decide),Dinode.ofBlock_toBlock_same _ (by decide)]
    rfl
  · rw [Dinode.ofBlock_toBlock_same _ (by decide)]
    rfl

private theorem data_of_ne {b : ℕ} (h : b ≠ 34 ∧ b ≠ 35 ∧ b ≠ 36) : data b = Bytes.zero := by
  unfold data
  split <;> first | rfl | omega

theorem image_blocks : Image.ofBlocks super blocks = image := by
  ext1
  · funext b
    by_cases hb : b < 64
    · exact used_blocks b hb
    · have h₁ : ¬b < super.size := hb
      have h₂ : ¬b < 37 := by omega
      simp [Image.ofBlocks,image,h₁,h₂]
  · funext i
    by_cases hi : i < 4
    · exact ino_blocks hi
    · have h₁ : ¬i < super.ninodes := hi
      simp only [Image.ofBlocks,image,if_neg h₁]
      unfold ino
      split <;> first | rfl | omega
  · funext b
    simp only [Image.ofBlocks,image]
    split
    · rename_i hb
      have hb : 34 ≤ b := hb.1
      rw [blocks,if_neg (by omega),if_neg (by omega)]
    · rename_i hb
      rw [data_of_ne]
      refine ⟨?_,?_,?_⟩ <;> rintro rfl <;> exact hb (by decide)

theorem ref_eq (i : ℕ) (k : Slot) :
    image.ref i k = if k = .addr 0 ∧ (i = 1 ∨ i = 2 ∨ i = 3) then 33 + i else 0 := by
  have hino : ∀ a : Fin 13, ((image.ino i).addrs a).toNat =
      if a = 0 ∧ (i = 1 ∨ i = 2 ∨ i = 3) then 33 + i else 0 := by
    intro a
    by_cases hi : i = 1 ∨ i = 2 ∨ i = 3
    · rcases hi with rfl | rfl | rfl <;> by_cases ha : a = 0 <;> simp [image,ino,dir,ha]
    · rw [if_neg (fun h => hi h.2)]
      have : image.ino i = Dinode.zero := by
        simp only [image]
        unfold ino
        split <;> first | rfl | omega
      rw [this]
      rfl
  cases k with
  | addr a => simpa [Image.ref] using hino a
  | entry j =>
    rw [Image.ref_entry_zero,if_neg (by simp)]
    exact (hino 12).trans (if_neg (by simp))

theorem alloc_iff (i : ℕ) : image.Alloc super i ↔ i = 1 ∨ i = 2 ∨ i = 3 := by
  constructor
  · rintro ⟨h₁,h₂,-⟩
    have h₂ : i < 4 := h₂
    omega
  · rintro (rfl | rfl | rfl) <;> decide

theorem place_eq (i b : ℕ) (k : Slot) :
    image.place super (i,k) = some b ↔ k = .addr 0 ∧ (i = 1 ∨ i = 2 ∨ i = 3) ∧ b = 33 + i := by
  rw [Image.place_eq_some,alloc_iff,ref_eq]
  constructor
  · rintro ⟨hi,hr,hb⟩
    split at hr
    · rename_i h
      exact ⟨h.1,hi,hr.symm⟩
    · exact absurd hr.symm hb
  · rintro ⟨rfl,hi,rfl⟩
    exact ⟨hi,if_pos ⟨rfl,hi⟩,by omega⟩

theorem own : image.Own super where
  owned :=
    { mem := by
        rintro ⟨i,k⟩ b h
        obtain ⟨-,hi,rfl⟩ := (place_eq i b k).mp h
        rcases hi with rfl | rfl | rfl <;> decide
      inj := by
        rintro ⟨i,k⟩ ⟨j,l⟩ b h h'
        obtain ⟨rfl,hi,hb⟩ := (place_eq i b k).mp h
        obtain ⟨rfl,hj,hb'⟩ := (place_eq j b l).mp h'
        rw [show i = j by omega]
      used := by
        intro b hb
        have hb : 34 ≤ b := hb.1
        simp only [image,decide_eq_true_eq]
        constructor
        · intro hlt
          exact ⟨(b - 33,.addr 0),(place_eq _ _ _).mpr ⟨rfl,by omega,by omega⟩⟩
        · rintro ⟨⟨i,k⟩,h⟩
          obtain ⟨-,hi,rfl⟩ := (place_eq i b k).mp h
          omega }
  metadata := by
    intro b hb
    have hb : b < 34 := hb
    simp only [image,decide_eq_true_eq]
    omega

theorem noHole : image.NoHole super := by
  intro i bn hi hlt
  have hi := (alloc_iff i).mp hi
  have hbn : bn = 0 := by
    rcases hi with rfl | rfl | rfl <;> simp [Image.size,image,ino,dir] at hlt <;> simp only [BSIZE] at hlt <;> omega
  subst hbn
  rw [Image.addr_of_lt (by decide),ref_eq,if_pos ⟨by decide,hi⟩]
  omega

def inode (inum ref : ℕ) : Inode := ⟨ROOTDEV,inum,ref,none,true,ino inum⟩

/-- Process 0 is in `/` and process 1 in `/a/b`. -/
def env : Env where
  itable := fun ip => if ip = 0 then inode 1 1 else if ip = 1 then inode 3 1 else ⟨0,0,0,none,false,.zero⟩
  ftable := Env.zero.ftable
  proc := fun p => { Env.zero.proc p with cwd := if p = 0 then some 0 else if p = 1 then some 1 else none }
  external := Env.zero.external

def state : St := ⟨blocks,blocks,⟨super.logstart,super.nlog,0,false,.empty⟩,env⟩

theorem state_image : state.image super = image := image_blocks

end Xv6.Sample
