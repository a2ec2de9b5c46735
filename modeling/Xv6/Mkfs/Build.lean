import Xv6.Mkfs.Append
import Xv6.Fs.Content

/-! # The image that `mkfs` writes

The run of `main` comes to its end for every list of files that fits, and leaves an image
that holds exactly those files and the root directory, whose size has been rounded up in
the last step.
-/
namespace Xv6
open Library
open Function (update update_comm update_eq_self update_idem update_of_ne update_self)

namespace Mkfs

section
variable {sb : Superblock} {s t : State} {inum fb : ℕ} {m : Image} {fs : Files} {ty : BitVec 16} {c : List Byte}

/-! ## A new inode -/

theorem Laid.new {d : Dinode} (h : Laid sb fb m fs) (hi : 1 ≤ inum ∧ inum < sb.ninodes) (hnew : fs inum = none)
    (htype : d.type = ty) (hty : ty ≠ 0) (hnlink : d.nlink = 1) (hsize : d.size = 0) (haddrs : ∀ a, d.addrs a = 0) :
    Laid sb fb (m.setIno inum d) (update fs inum (some (ty,[]))) := by
  have hna := h.rest inum hnew
  have hino : (m.setIno inum d).ino inum = d := update_self _ _ _
  have hother : ∀ j, j ≠ inum → (m.setIno inum d).ino j = m.ino j := fun j hj => update_of_ne hj _ _
  have href : ∀ j, j ≠ inum → (m.setIno inum d).ref j = m.ref j :=
    fun j hj => Image.ref_congr (by rw [hother j hj]) fun _ => rfl
  have hzero : ∀ k, (m.setIno inum d).ref inum k = 0 := by
    intro k
    cases k with
    | addr a =>
      rw [Image.ref,hino,haddrs]
      rfl
    | entry e =>
      refine Image.ref_entry_zero ?_
      rw [Image.indirect,hino,haddrs]
      rfl
  have halloc : ∀ j, j ≠ inum → ((m.setIno inum d).Alloc sb j ↔ m.Alloc sb j) :=
    fun j hj => Image.alloc_congr (by rw [hother j hj])
  have hplace : (m.setIno inum d).place sb = m.place sb := by
    funext x
    obtain ⟨j,k⟩ := x
    by_cases hj : j = inum
    · subst hj
      rw [Image.place_eq_none.mpr fun _ => hzero k,Image.place_eq_none.mpr fun ha => absurd ha hna]
    · exact Image.place_congr (halloc j hj) fun _ => congrFun (href j hj) k
  refine ⟨⟨h.pool.used,⟨?_,h.pool.own.metadata⟩,h.pool.zero⟩,?_,?_⟩
  · rw [hplace]
    exact h.pool.own.owned
  · intro j t c hj
    by_cases hji : j = inum
    · subst hji
      rw [update_self] at hj
      cases hj
      refine ⟨⟨hi.1,hi.2,by rw [hino,htype]; exact hty⟩,⟨⟨fun k => ?_,fun x hx => ?_⟩,?_,?_,?_⟩⟩
      · rw [hzero]
        simp
      · rw [Image.addr] at hx
        split at hx
        · exact absurd (hzero _) hx
        · exact absurd rfl hx
      · rw [hino,htype]
      · rw [hino,hnlink]
      · rw [Image.size,hino,hsize]
        rfl
    · rw [update_of_ne hji] at hj
      obtain ⟨ha,hd⟩ := h.file j t c hj
      refine ⟨(halloc j hji).mpr ha,⟨⟨fun k => by rw [href j hji,hd.mapped k],fun x hx => ?_⟩,?_,?_,?_⟩⟩
      · rw [Image.addr_congr (href j hji)] at hx
        rw [Image.byteAt,Image.addr_congr (href j hji)]
        exact hd.bytes x hx
      · rw [hother j hji,hd.type]
      · rw [hother j hji,hd.nlink]
      · rw [Image.size,hother j hji]
        exact hd.size
  · intro j hj
    have hji : j ≠ inum := by
      rintro rfl
      simp at hj
    rw [update_of_ne hji] at hj
    rw [halloc j hji]
    exact h.rest j hj

theorem ialloc_ends (h : Laid sb s.freeblock (s.image sb) fs) (hi : 1 ≤ s.freeinode ∧ s.freeinode < sb.ninodes)
    (hnew : fs s.freeinode = none) (hty : ty ≠ 0) :
    Ends (ialloc sb ty) (fun i t => i = s.freeinode ∧ t.freeblock = s.freeblock ∧
      Kept sb { s with freeinode := s.freeinode + 1 } t ∧
      Laid sb t.freeblock (t.image sb) (update fs i (some (ty,[])))) s := by
  refine ends_bind.mpr ⟨s.freeinode,{ s with freeinode := s.freeinode + 1 },rfl,ends_bind.mpr ?_⟩
  refine winode_ends hi.2 fun t hfb himage hkept => ends_pure.mpr ⟨rfl,hfb,hkept,?_⟩
  rw [hfb,himage]
  exact h.new hi hnew rfl hty rfl rfl fun _ => rfl

/-! ## Files one after another -/

theorem appendReads_ends (reads : List (List Byte)) (h : Laid sb s.freeblock (s.image sb) fs)
    (hf : fs inum = some (ty,c)) (hlen : c.length + reads.flatten.length ≤ MAXFILE * BSIZE)
    (hroom : s.freeblock + Image.blocks (c.length + reads.flatten.length) ≤ sb.size + Image.blocks c.length) :
    Ends (appendReads sb inum reads) (fun _ t => Kept sb s t ∧
      Laid sb t.freeblock (t.image sb) (update fs inum (some (ty,c ++ reads.flatten))) ∧
      t.freeblock + Image.blocks c.length = s.freeblock + Image.blocks (c.length + reads.flatten.length)) s := by
  induction reads generalizing s fs c with
  | nil =>
    refine ends_pure.mpr ⟨.refl sb s,?_,rfl⟩
    rwa [List.flatten_nil,List.append_nil,← hf,update_eq_self]
  | cons r reads ih =>
    rw [List.flatten_cons,List.length_append] at hlen hroom
    have hmono := Image.blocks_mono (show c.length + r.length ≤ c.length + (r.length + reads.flatten.length) by omega)
    refine (iappend_ends h hf (by omega) (by omega)).seq ?_
    rintro ⟨⟩ t ⟨hk,hl,hfb⟩
    have hsum : (c ++ r).length + reads.flatten.length = c.length + (r.length + reads.flatten.length) := by
      rw [List.length_append]
      omega
    have hcr : (c ++ r).length = c.length + r.length := List.length_append
    refine (ih hl (update_self _ _ _) (by omega) (by rw [hsum,hcr]; omega)).imp ?_
    rintro ⟨⟩ u ⟨hk',hl',hfb'⟩
    rw [update_idem,List.append_assoc] at hl'
    rw [List.flatten_cons,List.length_append]
    refine ⟨hk.trans hk',hl',?_⟩
    rw [hsum,hcr] at hfb'
    omega

/-- The entries of the root directory once `files` have been added. -/
def rootBytes (files : List Input) : List Byte :=
  dirent ROOTINO dot ++ dirent ROOTINO dotdot ++ (files.zipIdx 2).flatMap fun e => dirent e.2 e.1.shortname

/-- The root directory and the files, in the order of their inode numbers. -/
def tree (files : List Input) : Files := fun i =>
  if i = ROOTINO then some (T_DIR,rootBytes files)
  else if i = 0 then none
  else (files[i - 2]?).map fun f => (T_FILE,f.bytes)

def total (files : List Input) : ℕ :=
  Image.blocks (16 * (files.length + 2)) + (files.map fun f => Image.blocks f.bytes.length).sum

theorem strncpy_length (n : ℕ) (name : List Byte) : (strncpy n name).length = n := by
  induction n generalizing name with
  | zero => rfl
  | succ n ih =>
    rw [strncpy]
    split
    · exact List.length_replicate
    · rw [List.length_cons,ih]

theorem dirent_length (i : ℕ) (name : List Byte) : (dirent i name).length = 16 := by
  rw [dirent,Dirent.bytes,List.length_append,leBytes_length,strncpy_length]
  rfl

theorem rootBytes_length (files : List Input) : (rootBytes files).length = 16 * (files.length + 2) := by
  rw [rootBytes,List.length_append,List.length_append,dirent_length,dirent_length,
    length_flatMap_const (c := 16) fun e _ => dirent_length _ _,List.length_zipIdx]
  ring

theorem rootBytes_concat (files : List Input) (f : Input) :
    rootBytes (files ++ [f]) = rootBytes files ++ dirent (files.length + 2) f.shortname := by
  simp [rootBytes,List.zipIdx_append,Nat.add_comm]

theorem tree_root (files : List Input) : tree files ROOTINO = some (T_DIR,rootBytes files) := if_pos rfl

theorem tree_next (files : List Input) : tree files (files.length + 2) = none := by
  rw [tree,if_neg (by simp only [ROOTINO]; omega),if_neg (by omega)]
  simp

theorem tree_concat (files : List Input) (f : Input) :
    tree (files ++ [f]) = update (update (tree files) ROOTINO
      (some (T_DIR,rootBytes (files ++ [f])))) (files.length + 2) (some (T_FILE,f.bytes)) := by
  funext i
  by_cases hi : i = files.length + 2
  · subst hi
    rw [update_self,tree,if_neg (by simp only [ROOTINO]; omega),if_neg (by omega)]
    simp
  · rw [update_of_ne hi]
    by_cases h1 : i = ROOTINO
    · subst h1
      rw [update_self,tree_root]
    · rw [update_of_ne h1,tree,tree,if_neg h1,if_neg h1]
      split
      · rfl
      · rename_i h0
        rcases Nat.lt_or_ge (i - 2) files.length with hlt | hge
        · rw [List.getElem?_append_left hlt]
        · rw [List.getElem?_eq_none (by simp only [List.length_append,List.length_singleton,ROOTINO] at *; omega),
            List.getElem?_eq_none hge]

theorem total_concat (files : List Input) (f : Input) :
    total (files ++ [f]) + Image.blocks (16 * (files.length + 2)) =
      total files + Image.blocks (16 * (files.length + 3)) + Image.blocks f.bytes.length := by
  simp only [total,List.length_append,List.length_singleton,List.map_append,List.sum_append,List.map_cons,
    List.map_nil,List.sum_cons,List.sum_nil]
  rw [show files.length + 1 + 2 = files.length + 3 from rfl]
  omega

/-- The files that `main` accepts, and for which there are inodes and blocks. -/
structure Fits (sb : Superblock) (files : List Input) : Prop where
  base : ∀ f ∈ files, slash ∉ f.base
  name : ∀ f ∈ files, f.shortname.length ≤ DIRSIZ
  size : ∀ f ∈ files, f.bytes.length ≤ MAXFILE * BSIZE
  inodes : files.length + 1 < sb.ninodes
  size_le : sb.nmeta + total files ≤ sb.size
  bitmap : sb.nmeta + total files < BPB

structure Added (sb : Superblock) (files : List Input) (s : State) : Prop where
  laid : Laid sb s.freeblock (s.image sb) (tree files)
  freeinode : s.freeinode = files.length + 2
  freeblock : s.freeblock = sb.nmeta + total files

theorem addFile_ends {files : List Input} {f : Input} (h : Added sb files s) (hbase : slash ∉ f.base)
    (hname : f.shortname.length ≤ DIRSIZ) (hlen : f.bytes.length ≤ MAXFILE * BSIZE)
    (hroot : 16 * (files.length + 3) ≤ MAXFILE * BSIZE) (hinum : files.length + 2 < sb.ninodes)
    (hfit : sb.nmeta + total (files ++ [f]) ≤ sb.size) :
    Ends (addFile sb ROOTINO f) (fun _ t => Added sb (files ++ [f]) t ∧
      Kept sb { s with freeinode := s.freeinode + 1 } t) s := by
  have htotal := total_concat files f
  have hfb := h.freeblock
  refine ends_bind.mpr (ends_assert hbase (ends_bind.mpr (ends_assert hname ?_)))
  refine (ialloc_ends h.laid ⟨by rw [h.freeinode]; omega,by rw [h.freeinode]; omega⟩
    (h.freeinode ▸ tree_next files) (by decide)).seq ?_
  rintro i t ⟨hi,hfb₁,hk₁,hl₁⟩
  rw [h.freeinode] at hi
  subst hi
  have hroot₁ : update (tree files) (files.length + 2) (some (T_FILE,[])) ROOTINO =
      some (T_DIR,rootBytes files) := by
    rw [update_of_ne (by simp only [ROOTINO]; omega),tree_root]
  have hlen₁ : (rootBytes files).length + (dirent (files.length + 2) f.shortname).length = 16 * (files.length + 3) := by
    rw [rootBytes_length,dirent_length]
    ring
  refine (iappend_ends hl₁ hroot₁ (by rw [hlen₁]; exact hroot) (by rw [hlen₁,rootBytes_length]; omega)).seq ?_
  rintro ⟨⟩ u ⟨hk₂,hl₂,hfb₂⟩
  rw [hlen₁,rootBytes_length] at hfb₂
  have hfile : update (update (tree files) (files.length + 2) (some (T_FILE,[]))) ROOTINO
      (some (T_DIR,rootBytes files ++ dirent (files.length + 2) f.shortname)) (files.length + 2) =
        some (T_FILE,[]) := by
    rw [update_of_ne (by simp only [ROOTINO]; omega),update_self]
  have hzero : Image.blocks 0 = 0 := by decide
  refine (appendReads_ends f.reads hl₂ hfile ?_ ?_).imp ?_
  · rw [List.length_nil,Nat.zero_add]
    exact hlen
  · rw [List.length_nil,Nat.zero_add]
    change _ + Image.blocks f.bytes.length ≤ _
    omega
  rintro ⟨⟩ v ⟨hk₃,hl₃,hfb₃⟩
  rw [List.length_nil,Nat.zero_add] at hfb₃
  change _ = _ + Image.blocks f.bytes.length at hfb₃
  have hkept := (hk₁.trans hk₂).trans hk₃
  refine ⟨⟨?_,?_,by omega⟩,hkept⟩
  · rw [tree_concat,rootBytes_concat]
    rwa [List.nil_append,update_comm (by simp only [ROOTINO,ne_eq]; omega),update_idem,
      update_comm (by simp only [ROOTINO,ne_eq]; omega)] at hl₃
  · rw [hkept.freeinode,List.length_append,List.length_singleton]
    change s.freeinode + 1 = _
    rw [h.freeinode]

def Untouched (sb : Superblock) (s t : State) : Prop :=
  ∀ b, b < sb.nmeta → (∀ i, i < sb.ninodes → b ≠ sb.iblock i) → t.img b = s.img b

theorem addFiles_ends {files rest : List Input} (h : Added sb files s) (hfit : Fits sb (files ++ rest))
    (hroot : 16 * ((files ++ rest).length + 2) ≤ MAXFILE * BSIZE) :
    Ends (addFiles sb ROOTINO rest) (fun _ t => Added sb (files ++ rest) t ∧ Untouched sb s t) s := by
  induction rest generalizing files s with
  | nil =>
    rw [List.append_nil]
    exact ends_pure.mpr ⟨h,fun _ _ _ => rfl⟩
  | cons f rest ih =>
    have hmem : f ∈ files ++ f :: rest := List.mem_append_right _ List.mem_cons_self
    have hsplit : files ++ f :: rest = (files ++ [f]) ++ rest := by simp
    have hlen : (files ++ f :: rest).length = files.length + (rest.length + 1) := List.length_append
    have hinodes := hfit.inodes
    have hle : total (files ++ [f]) ≤ total (files ++ f :: rest) := by
      have hsum : ((files ++ [f] ++ rest).map fun f => Image.blocks f.bytes.length).sum =
          ((files ++ [f]).map fun f => Image.blocks f.bytes.length).sum +
            (rest.map fun f => Image.blocks f.bytes.length).sum := by
        rw [List.map_append,List.sum_append]
      rw [hsplit,total,total,hsum]
      have := Image.blocks_mono (show 16 * ((files ++ [f]).length + 2) ≤ 16 * ((files ++ [f] ++ rest).length + 2) by
        have : (files ++ [f] ++ rest).length = (files ++ [f]).length + rest.length := List.length_append
        omega)
      omega
    have hsize := hfit.size_le
    refine (addFile_ends h (hfit.base f hmem) (hfit.name f hmem) (hfit.size f hmem) (by omega) (by omega)
      (by omega)).seq ?_
    rintro ⟨⟩ t ⟨ht,hk⟩
    rw [hsplit] at hfit hroot ⊢
    refine (ih ht hfit hroot).imp ?_
    rintro ⟨⟩ u ⟨hu,hun⟩
    exact ⟨hu,fun b hb hi => (hun b hb hi).trans (hk.img b hb hi)⟩

/-! ## The end of `main` -/

theorem bmapstart_lt_nmeta : sb.bmapstart < sb.nmeta := Nat.lt_add_of_pos_right (Nat.succ_pos _)

theorem bmapstart_ne_iblock : ∀ b, sb.bmapstart ≤ b → ∀ i, i < sb.ninodes → b ≠ sb.iblock i := by
  intro b hb i hi
  have := Superblock.iblock_lt hi
  omega

theorem balloc_ends {Q : Unit → State → Prop} (hlt : s.freeblock < BPB) (hle : s.freeblock ≤ sb.size)
    (hzero : ∀ b, sb.bmapstart ≤ b → b < sb.nmeta → s.img b = Bytes.zero)
    (hQ : ∀ t, Image.ofBlocks sb t.img = s.image sb → (∀ b, b < sb.bmapstart → t.img b = s.img b) → Q () t) :
    Ends (balloc sb s.freeblock) Q s := by
  refine ends_bind.mpr (ends_assert hlt (ends_wsect.mpr (hQ _ ?_ ?_)))
  · have hbits : ∀ j, ((List.range s.freeblock).foldl Bytes.setBit (Bytes.zero : Block)).bit j =
        decide (j < s.freeblock) := by
      intro j
      rw [Bytes.bit_foldl_setBit,Bytes.bit_zero,Bool.or_false]
      · simp
      · intro k hk
        have := List.mem_range.mp hk
        simp only [BSIZE,BPB] at *
        omega
    dsimp only
    ext1
    · funext b
      change _ = decide (b < s.freeblock)
      by_cases hb : b < sb.size
      · rw [Image.ofBlocks_used hb]
        by_cases hb0 : b < BPB
        · have hbb : sb.bblock b = sb.bmapstart := by
            rw [Superblock.bblock,Nat.div_eq_of_lt hb0,Nat.zero_add]
          rw [hbb,update_self,hbits,Nat.mod_eq_of_lt hb0]
        · have hbb : sb.bblock b ≠ sb.bmapstart := by
            simp only [Superblock.bblock,BPB] at *
            omega
          rw [update_of_ne hbb,hzero _ (Superblock.bmapstart_le_bblock b) (Superblock.bblock_lt hb),
            Bytes.bit_zero]
          simp only [false_eq_decide_iff]
          omega
      · simp only [Image.ofBlocks,hb,decide_false,Bool.false_and,false_eq_decide_iff]
        omega
    · funext i
      change _ = (Image.ofBlocks sb s.img).ino i
      simp only [Image.ofBlocks]
      split
      · rename_i hi
        rw [update_of_ne (bmapstart_ne_iblock _ (Nat.le_refl _) i hi).symm]
      · rfl
    · funext b
      change _ = (Image.ofBlocks sb s.img).blk b
      simp only [Image.ofBlocks]
      split
      · rename_i hb
        have := hb.1
        have : sb.bmapstart < sb.nmeta := bmapstart_lt_nmeta
        rw [update_of_ne (by omega)]
      · rfl
  · exact fun b hb => update_of_ne (by omega) _ _

theorem zeroFrom_ends {n i : ℕ} {Q : Unit → State → Prop} (hs : s.img = fun _ => Bytes.zero) (hQ : Q () s) :
    Ends (zeroFrom n i) Q s := by
  induction n generalizing i with
  | zero => exact ends_pure.mpr hQ
  | succ n ih =>
    refine ends_bind.mpr (ends_wsect.mpr ?_)
    have hsame : update s.img i Bytes.zero = s.img := by
      rw [hs]
      exact update_eq_self i _
    rw [hsame]
    exact ih

theorem laid_start {img : Blocks} (himg : ∀ b, b ≠ 1 → img b = Bytes.zero) :
    Laid sb sb.nmeta (State.image sb ⟨img,1,sb.nmeta⟩) (fun _ => none) := by
  have hi : ∀ i, ((State.image sb ⟨img,1,sb.nmeta⟩).ino i).type = 0 := by
    intro i
    change ((Image.ofBlocks sb img).ino i).type = _
    by_cases hlt : i < sb.ninodes
    · have := sb.inodestart_eq
      have : sb.inodestart ≤ sb.iblock i := Superblock.inodestart_le_iblock i
      rw [Image.ofBlocks_ino hlt,himg _ (by omega),Dinode.ofBlock,Bytes.slice_zero]
      decide
    · simp only [Image.ofBlocks,if_neg hlt]
      rfl
  have hna : ∀ i, ¬(State.image sb ⟨img,1,sb.nmeta⟩).Alloc sb i := by
    rintro i ⟨-,-,h⟩
    exact h (hi i)
  have hplace : ∀ p, (State.image sb ⟨img,1,sb.nmeta⟩).place sb p = none :=
    fun p => Image.place_eq_none.mpr fun ha => absurd ha (hna p.1)
  refine ⟨⟨rfl,⟨⟨?_,?_,?_⟩,fun b hb => decide_eq_true hb⟩,?_⟩,?_,fun i _ => hna i⟩
  · intro p b hp
    rw [hplace] at hp
    cases hp
  · intro p q b hp
    rw [hplace] at hp
    cases hp
  · intro b hb
    have := hb.1
    constructor
    · intro hu
      have : b < sb.nmeta := of_decide_eq_true hu
      omega
    · rintro ⟨p,hp⟩
      rw [hplace] at hp
      cases hp
  · intro b hb
    change (Image.ofBlocks sb img).blk b = _
    simp only [Image.ofBlocks]
    split
    · have : 2 ≤ sb.bmapstart := Superblock.two_le_bmapstart
      have : sb.bmapstart ≤ sb.nmeta := Superblock.bmapstart_le_nmeta
      exact himg b (by omega)
    · rfl
  · intro i t c h
    cases h

def rootSize (files : List Input) : ℕ := (16 * (files.length + 2) / BSIZE + 1) * BSIZE

structure Built (sb : Superblock) (files : List Input) (img : Blocks) (m : Image) : Prop where
  laid : Laid sb (sb.nmeta + total files) m (tree files)
  image : Image.ofBlocks sb img = m.setIno ROOTINO { m.ino ROOTINO with size := BitVec.ofNat 32 (rootSize files) }
  super : img 1 = Bytes.zero.splice 0 (superBytes sb)

theorem tree_dots : update (fun _ => none : Files) ROOTINO
    (some (T_DIR,dirent ROOTINO dot ++ dirent ROOTINO dotdot)) = tree [] := by
  funext i
  by_cases hi : i = ROOTINO
  · subst hi
    rw [update_self,tree_root]
    simp [rootBytes]
  · rw [update_of_ne hi,tree,if_neg hi]
    simp

theorem main_ends {files : List Input} (hfit : Fits sb files) (hroot : 16 * (files.length + 2) ≤ MAXFILE * BSIZE) :
    Ends (main sb files) (fun _ t => ∃ m, Built sb files t.img m) (start sb) := by
  have hninodes := hfit.inodes
  have hsize := hfit.size_le
  have hblocks : Image.blocks 32 = 1 ∧ Image.blocks 16 = 1 ∧ Image.blocks 0 = 0 := by decide
  have htotal : 1 ≤ total files := by
    have := Image.blocks_mono (show 32 ≤ 16 * (files.length + 2) by omega)
    rw [total]
    omega
  refine ends_bind.mpr (zeroFrom_ends rfl (ends_bind.mpr (ends_wsect.mpr ?_)))
  refine (ialloc_ends (laid_start fun b hb => update_of_ne hb _ _) ⟨Nat.le_refl _,?_⟩ rfl
    (show T_DIR ≠ 0 by decide)).seq ?_
  · change 1 < sb.ninodes
    omega
  rintro i s ⟨hi,hfb₀,hk₀,hl₀⟩
  have hi : i = ROOTINO := hi
  have hfb₀ : s.freeblock = sb.nmeta := hfb₀
  subst hi
  refine ends_bind.mpr (ends_assert rfl ?_)
  refine (iappend_ends hl₀ (update_self _ _ _) ?_ ?_).seq ?_
  · rw [dirent_length]
    decide
  · rw [dirent_length,List.length_nil,Nat.zero_add]
    omega
  rintro ⟨⟩ t ⟨hk₁,hl₁,hfb₁⟩
  rw [dirent_length,List.length_nil,Nat.zero_add] at hfb₁
  rw [update_idem,List.nil_append] at hl₁
  refine (iappend_ends hl₁ (update_self _ _ _) ?_ ?_).seq ?_
  · rw [dirent_length,dirent_length]
    decide
  · rw [dirent_length,dirent_length]
    change _ + Image.blocks 32 ≤ _
    omega
  rintro ⟨⟩ u ⟨hk₂,hl₂,hfb₂⟩
  rw [dirent_length,dirent_length] at hfb₂
  rw [update_idem,tree_dots] at hl₂
  have hkept := (hk₀.trans hk₁).trans hk₂
  have hadded : Added sb [] u := by
    refine ⟨hl₂,hkept.freeinode,?_⟩
    change u.freeblock = sb.nmeta + Image.blocks 32
    change u.freeblock + Image.blocks 16 = _ + Image.blocks 32 at hfb₂
    omega
  refine (addFiles_ends hadded hfit hroot).seq ?_
  rintro ⟨⟩ v ⟨hv,hun⟩
  rw [List.nil_append] at hv
  obtain ⟨ha,hfile⟩ := hv.laid.file ROOTINO _ _ (tree_root files)
  refine ends_bind.mpr (ends_bind.mpr (rinode_ends ha.2.1 (winode_ends ha.2.1 fun w hfb himage hk => ?_)))
  refine ends_bind.mpr ⟨w,w,rfl,?_⟩
  have himg : ∀ b, b < sb.nmeta → (∀ i, i < sb.ninodes → b ≠ sb.iblock i) →
      w.img b = update (fun _ => Bytes.zero) 1 (Bytes.zero.splice 0 (superBytes sb)) b := by
    intro b hb hi
    rw [hk.img b hb hi,hun b hb hi,hkept.img b hb hi]
    rfl
  have hlow : sb.bmapstart < sb.nmeta := bmapstart_lt_nmeta
  have hbmap : 2 ≤ sb.bmapstart := Superblock.two_le_bmapstart
  have hbitmap := hfit.bitmap
  have hfbv := hv.freeblock
  refine balloc_ends (by omega) (by omega) ?_ fun x hx himg' => ⟨v.image sb,?_,?_,?_⟩
  · intro b hb hlt
    rw [himg b hlt (bmapstart_ne_iblock b hb),update_of_ne (by omega)]
  · rw [← hfbv]
    exact hv.laid
  · have hrs : ((v.image sb).ino ROOTINO).size.toNat = 16 * (files.length + 2) := by
      rw [← rootBytes_length]
      exact hfile.size
    rw [hx,himage,hrs]
    rfl
  · have hstart := sb.inodestart_eq
    rw [himg' 1 (by omega),himg 1 (by omega),update_self]
    intro i hi
    have : sb.inodestart ≤ sb.iblock i := Superblock.inodestart_le_iblock i
    omega

/-! ## The kernel's invariants -/

theorem mkfs_built {fssize : Fssize} {files : List Input} (hfit : Fits (superblock fssize) files) :
    ∃ img m, mkfs fssize files = some img ∧ Built (superblock fssize) files img m := by
  have hinodes : files.length + 1 < 200 := hfit.inodes
  obtain ⟨⟨⟩,t,hrun,m,hm⟩ := main_ends hfit (by simp only [MAXFILE,BSIZE]; omega)
  exact ⟨t.img,m,by rw [mkfs,hrun]; rfl,hm⟩

variable {files : List Input} {img : Blocks}

theorem Built.edits (h : Built sb files img m) :
    Image.Edits sb m (Image.ofBlocks sb img) ROOTINO (fun _ => False) := by
  rw [h.image]
  exact Image.edits_size h.laid.pool.own (h.laid.file _ _ _ (tree_root files)).1 _

theorem Built.used (h : Built sb files img m) (b : ℕ) :
    (Image.ofBlocks sb img).used b = decide (b < sb.nmeta + total files) := by
  rw [h.image]
  exact congrFun h.laid.pool.used b

theorem Built.ref (h : Built sb files img m) (i : ℕ) : (Image.ofBlocks sb img).ref i = m.ref i := by
  rw [h.image]
  refine Image.ref_congr ?_ fun _ => rfl
  by_cases hi : i = ROOTINO
  · subst hi
    simp
  · simp [update_of_ne hi]

theorem Built.file {i : ℕ} (h : Built sb files img m) (hi : tree files i = some (ty,c)) (hne : i ≠ ROOTINO) :
    (Image.ofBlocks sb img).IsFile i ty c := by
  obtain ⟨ha,hf⟩ := h.laid.file i ty c hi
  have he := h.edits
  refine ⟨⟨fun k => by rw [h.ref,hf.mapped k],fun x hx => ?_⟩,?_,?_,?_⟩
  · rw [Image.addr_congr (h.ref i)] at hx
    rw [he.byteAt_other ha hne hx,hf.bytes x hx]
  · rw [he.ino_ne hne,hf.type]
  · rw [he.ino_ne hne,hf.nlink]
  · rw [he.size_ne hne,hf.size]

theorem rootSize_lt (hroot : 16 * (files.length + 2) ≤ MAXFILE * BSIZE) : rootSize files < 2 ^ 32 := by
  simp only [rootSize,BSIZE,MAXFILE] at *
  omega

theorem Built.root_holds (h : Built sb files img m) : (Image.ofBlocks sb img).Holds ROOTINO (rootBytes files) := by
  rw [h.image]
  exact (h.laid.file _ _ _ (tree_root files)).2.toHolds.setSize _

theorem Built.root_size (h : Built sb files img m) (hroot : 16 * (files.length + 2) ≤ MAXFILE * BSIZE) :
    (Image.ofBlocks sb img).size ROOTINO = rootSize files := by
  rw [Image.size,h.image,Image.setIno_ino,update_self,BitVec.toNat_ofNat]
  exact Nat.mod_eq_of_lt (rootSize_lt hroot)

/-- The rounded size of the root directory covers an unmapped block exactly when its entries
fill the last block. -/
theorem Built.noHole (h : Built sb files img m) (hfit : Fits sb files)
    (hroot : 16 * (files.length + 2) ≤ MAXFILE * BSIZE) (hfix : (files.length + 2) % 64 ≠ 0) :
    (Image.ofBlocks sb img).NoHole sb := by
  intro i bn ha hlt
  by_cases hi : i = ROOTINO
  · subst hi
    rw [h.root_size hroot] at hlt
    rw [h.root_holds.mapped.addr (by rwa [rootBytes_length]),rootBytes_length]
    simp only [rootSize,BSIZE] at *
    omega
  · have hma : m.Alloc sb i := (h.edits.alloc_iff i).mp ha
    cases hf : tree files i with
    | none => exact absurd hma (h.laid.rest i hf)
    | some f =>
      obtain ⟨ty,c⟩ := f
      have hfile := h.file hf hi
      have hc : c.length ≤ MAXFILE * BSIZE := by
        rw [tree,if_neg hi] at hf
        split at hf
        · cases hf
        · obtain ⟨f,hmem,he⟩ := Option.map_eq_some_iff.mp hf
          cases he
          exact hfit.size f (List.mem_of_getElem? hmem)
      rw [hfile.mapped.addr hc]
      rwa [hfile.size] at hlt

end

/-- When the entries of the root directory fill its last block, the next one is below its size and is not mapped. -/
theorem Built.hole {files : List Input} {img : Blocks} {m : Image} (h : Built sb files img m)
    (hroot : 16 * (files.length + 2) ≤ MAXFILE * BSIZE) (hfull : (files.length + 2) % 64 = 0) :
    (Image.ofBlocks sb img).Alloc sb ROOTINO ∧
      (16 * (files.length + 2) / BSIZE) * BSIZE < (Image.ofBlocks sb img).size ROOTINO ∧
      (Image.ofBlocks sb img).addr ROOTINO (16 * (files.length + 2) / BSIZE) = 0 := by
  refine ⟨(h.edits.alloc_iff _).mpr (h.laid.file _ _ _ (tree_root _)).1,?_,?_⟩
  · rw [h.root_size hroot,rootSize]
    exact Nat.mul_lt_mul_of_pos_right (Nat.lt_succ_self _) (by decide)
  · by_contra hne
    have hlt := (h.root_holds.mapped.addr (by rwa [rootBytes_length]) _).mp hne
    rw [rootBytes_length] at hlt
    simp only [BSIZE] at hlt
    omega

/-- What the kernel relies on: no holes, the bitmap marks the blocks in use and none has two uses, the root directory
is a sequence of entries, and reading a file or directory changes nothing but the reader's memory. -/
structure KernelReady (sb : Superblock) (m : Image) : Prop where
  noHole : ∀ i bn, m.Alloc sb i → bn * BSIZE < m.size i → m.addr i bn ≠ 0
  used : ∀ b, b < sb.size → (m.used b = true ↔ b < sb.nmeta ∨ ∃ i k, m.Alloc sb i ∧ m.ref i k = b)
  inj : ∀ i k j l, m.Alloc sb i → m.Alloc sb j → m.ref i k ≠ 0 → m.ref j l = m.ref i k → j = i ∧ l = k
  root : 16 ∣ m.size ROOTINO
  reads : ∀ (s : St) (p : Pid) (ip : Fin NINODE) (dst : Dst) (off n : ℕ), s.image sb = m →
    (s.env.itable ip).din = m.ino (s.env.itable ip).inum → m.Alloc sb (s.env.itable ip).inum → off < 2 ^ 32 → n < 2 ^ 32 →
      ∃ r u, (readi sb ip dst off n).run (St.exec p) s = .ok (r,s.setMem p u)

theorem Built.kernelReady {files : List Input} {img : Blocks} {m : Image} (h : Built sb files img m) (hfit : Fits sb files)
    (hroot : 16 * (files.length + 2) ≤ MAXFILE * BSIZE) (hfix : (files.length + 2) % 64 ≠ 0) :
    KernelReady sb (Image.ofBlocks sb img) := by
  have hown := h.edits.own
  have hhole := h.noHole hfit hroot hfix
  refine ⟨hhole,?_,?_,?_,?_⟩
  · intro b hb
    by_cases hmeta : b < sb.nmeta
    · simp [hown.metadata b hmeta,hmeta]
    · rw [hown.owned.used b ⟨Nat.not_lt.mp hmeta,hb⟩]
      simp only [hmeta,false_or]
      constructor
      · rintro ⟨⟨i,k⟩,hp⟩
        obtain ⟨ha,hr,-⟩ := Image.place_eq_some.mp hp
        exact ⟨i,k,ha,hr⟩
      · rintro ⟨i,k,ha,hr⟩
        exact ⟨(i,k),Image.place_eq_some.mpr ⟨ha,hr,Superblock.IsData.pos ⟨Nat.not_lt.mp hmeta,hb⟩⟩⟩
  · intro i k j l hi hj hr he
    exact Prod.mk.inj (hown.inj hi hj hr he)
  · rw [h.root_size hroot]
    exact Dvd.dvd.mul_left (by decide) _
  · intro s p ip dst off n himage hdin ha hoff hn
    have hview : s.view sb ip = Image.ofBlocks sb img := by
      rw [St.view_eq_image (by rw [himage,hdin]),himage]
    have hwp : (readi sb ip dst off n : Code ℕ _).wp (St.exec p) (fun _ => False) _ s :=
      readi_wp (hview ▸ hown) (hview ▸ hhole) (hview ▸ ha) hoff hn
    obtain ⟨r,t,hr,u,rfl,-⟩ | ⟨e,-,he⟩ := hwp.run
    · exact ⟨r,u,hr⟩
    · exact he.elim

theorem Fits.root {files : List Input} (hfit : Fits sb files) (hsb : sb.ninodes ≤ NINODES) :
    16 * (files.length + 2) ≤ MAXFILE * BSIZE := by
  have := hfit.inodes
  simp only [MAXFILE,BSIZE,NINODES] at *
  omega

/-- `mkfs` leaves an image with the kernel's invariants if and only if the entries of the root directory do not fill
its last block. -/
theorem mkfs_invariants (fssize : Fssize) (files : List Input) (hfit : Fits (superblock fssize) files) :
    ∃ img, mkfs fssize files = some img ∧
      (KernelReady (superblock fssize) (Image.ofBlocks (superblock fssize) img) ↔ (files.length + 2) % 64 ≠ 0) := by
  obtain ⟨img,m,hrun,hm⟩ := mkfs_built hfit
  have hroot := hfit.root (Nat.le_refl _)
  refine ⟨img,hrun,fun hready hfull => ?_,hm.kernelReady hfit hroot⟩
  obtain ⟨ha,hlt,hzero⟩ := hm.hole hroot hfull
  exact hready.noHole _ _ ha hlt hzero

def FSSIZE : Fssize := ⟨2000,by decide,by decide⟩

/-- An empty file with the name of two characters, the second one numbered `i`. -/
def emptyFile (i : Fin 62) : Input where
  path := [97,BitVec.ofNat 8 (65 + i.val)]
  reads := []
  path_ne := by decide +revert
  reads_pos := by simp
  reads_le := by simp

theorem emptyFile_shortname : ∀ i, slash ∉ (emptyFile i).base ∧ (emptyFile i).shortname.length ≤ DIRSIZ := by
  decide

theorem emptyFiles_fit (l : List (Fin 62)) (hl : l.length ≤ 62) : Fits (superblock FSSIZE) (l.map emptyFile) := by
  have hbytes : ∀ f ∈ l.map emptyFile, f.bytes = [] := by
    intro f hf
    obtain ⟨i,-,rfl⟩ := List.mem_map.mp hf
    rfl
  have hsum : ((l.map emptyFile).map fun f => Image.blocks f.bytes.length).sum = 0 := by
    refine List.sum_eq_zero fun x hx => ?_
    obtain ⟨f,hf,rfl⟩ := List.mem_map.mp hx
    rw [hbytes f hf]
    rfl
  have htotal : total (l.map emptyFile) ≤ 1 := by
    rw [total,hsum,List.length_map]
    exact Image.blocks_mono (show 16 * (l.length + 2) ≤ 1024 by omega)
  have hmeta : (superblock FSSIZE).nmeta = 46 := rfl
  have hsize : (superblock FSSIZE).size = 2000 := rfl
  refine ⟨?_,?_,?_,?_,by omega,by simp only [BPB]; omega⟩
  · intro f hf
    obtain ⟨i,-,rfl⟩ := List.mem_map.mp hf
    exact (emptyFile_shortname i).1
  · intro f hf
    obtain ⟨i,-,rfl⟩ := List.mem_map.mp hf
    exact (emptyFile_shortname i).2
  · intro f hf
    rw [hbytes f hf]
    exact Nat.zero_le _
  · rw [List.length_map]
    change l.length + 1 < 200
    omega

/-- With 62 files the second block of the root directory is not mapped. -/
theorem mkfs_hole : ∃ files img, files.length = 62 ∧ Fits (superblock FSSIZE) files ∧ mkfs FSSIZE files = some img ∧
    (Image.ofBlocks (superblock FSSIZE) img).Alloc (superblock FSSIZE) ROOTINO ∧
    1 * BSIZE < (Image.ofBlocks (superblock FSSIZE) img).size ROOTINO ∧
    (Image.ofBlocks (superblock FSSIZE) img).addr ROOTINO 1 = 0 := by
  have hfit := emptyFiles_fit (List.finRange 62) (by simp)
  obtain ⟨img,m,hrun,hm⟩ := mkfs_built hfit
  have hlen : ((List.finRange 62).map emptyFile).length = 62 := by simp
  have hhole := hm.hole (hfit.root (Nat.le_refl _)) (by rw [hlen])
  rw [hlen] at hhole
  exact ⟨_,img,hlen,hfit,hrun,hhole⟩

def program : Input := ⟨text "user/_a",[List.replicate 1024 1,[2,3]],by decide,by decide,by decide +kernel⟩

def sampleFiles : List Input := [⟨text "README",[[104,105]],by decide,by decide,by decide⟩,program]

theorem sampleFiles_fit : Fits (superblock FSSIZE) sampleFiles where
  base := by decide
  name := by decide
  size := by decide +kernel
  inodes := by decide
  size_le := by decide +kernel
  bitmap := by decide +kernel

theorem mkfs_invariants_sample : ∃ img, mkfs FSSIZE sampleFiles = some img ∧
    KernelReady (superblock FSSIZE) (Image.ofBlocks (superblock FSSIZE) img) := by
  obtain ⟨img,hrun,h⟩ := mkfs_invariants FSSIZE sampleFiles sampleFiles_fit
  exact ⟨img,hrun,h.mpr (by decide)⟩

end Mkfs

end Xv6
