import Xv6.Mkfs.Build
import Xv6.Fs.Lookup

/-! # What the kernel reads from the image

The kernel's lookups on the image that `mkfs` has written: every file is found under its
name and reads back as the bytes that went in, and no other name is found. When the root
directory ends in a hole, the search for a missing name allocates a block there, which
reads as unused entries.
-/
namespace Xv6
open Library Prog

theorem strncmp_strncpy {n : ℕ} {p t : List Byte} (hp : p.length ≤ n) (ht : t.length ≤ n) (hp0 : 0 ∉ p) (ht0 : 0 ∉ t) :
    strncmp n p (strncpy n t) = 0 ↔ p = t := by
  induction n generalizing p t with
  | zero =>
    rw [List.eq_nil_of_length_eq_zero (Nat.le_zero.mp hp),List.eq_nil_of_length_eq_zero (Nat.le_zero.mp ht)]
    exact ⟨fun _ => rfl,fun _ => rfl⟩
  | succ n ih =>
    have hpos : ∀ c : Byte, c ≠ 0 → 0 < c.toNat := fun c hc =>
      Nat.pos_of_ne_zero fun h => hc (BitVec.eq_of_toNat_eq h)
    cases t with
    | nil =>
      cases p with
      | nil => simp [strncmp,strncpy,List.replicate_succ]
      | cons c p =>
        have hc : c ≠ 0 := fun h => hp0 (h ▸ List.mem_cons_self)
        have := hpos c hc
        simp [strncmp,strncpy,List.replicate_succ]
        omega
    | cons d t =>
      have hd : d ≠ 0 := fun h => ht0 (h ▸ List.mem_cons_self)
      have hd' := hpos d hd
      rw [strncpy,if_neg (by simpa using hd)]
      cases p with
      | nil =>
        simp only [strncmp,List.headD_nil,List.headD_cons,ne_eq,not_true_eq_false,false_and,if_false,reduceCtorEq,iff_false]
        simp
        omega
      | cons c p =>
        have hc : c ≠ 0 := fun h => hp0 (h ▸ List.mem_cons_self)
        rw [List.cons.injEq]
        change (if c ≠ 0 ∧ c = d then strncmp n p (strncpy n t) else (c.toNat : ℤ) - d.toNat) = 0 ↔ _
        by_cases hcd : c = d
        · rw [if_pos ⟨hc,hcd⟩,ih (by simpa using hp) (by simpa using ht) (fun h => hp0 (List.mem_cons_of_mem _ h))
            fun h => ht0 (List.mem_cons_of_mem _ h)]
          simp [hcd]
        · rw [if_neg fun h => hcd h.2]
          constructor
          · intro h
            refine absurd (BitVec.eq_of_toNat_eq ?_) hcd
            omega
          · exact fun h => absurd h.1 hcd

namespace Mkfs
variable {files : List Input}

/-! ## The entries of the root directory -/

def entries (files : List Input) : List (ℕ × List Byte) :=
  (ROOTINO,dot) :: (ROOTINO,dotdot) :: (files.zipIdx 2).map fun e => (e.2,e.1.shortname)

theorem rootBytes_eq (files : List Input) : rootBytes files = (entries files).flatMap fun e => dirent e.1 e.2 := by
  simp [rootBytes,entries,List.flatMap_map]

theorem entries_length (files : List Input) : (entries files).length = files.length + 2 := by
  simp [entries]

theorem entries_file {i : ℕ} {f : Input} (h : files[i]? = some f) : (entries files)[i + 2]? = some (i + 2,f.shortname) := by
  simp [entries,h,Nat.add_comm]

theorem mem_entries {e : ℕ × List Byte} (h : e ∈ entries files) : e = (ROOTINO,dot) ∨ e = (ROOTINO,dotdot) ∨
    ∃ f ∈ files, e.2 = f.shortname ∧ 2 ≤ e.1 ∧ e.1 < files.length + 2 := by
  rcases List.mem_cons.mp h with rfl | h
  · exact .inl rfl
  rcases List.mem_cons.mp h with rfl | h
  · exact .inr (.inl rfl)
  · obtain ⟨q,hq,rfl⟩ := List.mem_map.mp h
    obtain ⟨h₁,h₂,h₃⟩ := List.mem_zipIdx hq
    exact .inr (.inr ⟨q.1,h₃ ▸ List.getElem_mem _,rfl,h₁,by omega⟩)

theorem Input.shortname_mem {f : Input} {c : Byte} (h : c ∈ f.shortname) : c ∈ f.base := by
  unfold Input.shortname at h
  split at h
  · exact List.mem_of_mem_tail h
  · exact h

theorem Input.shortname_nul (f : Input) : 0 ∉ f.shortname := by
  intro h
  have hb := shortname_mem h
  unfold Input.base at hb
  split at hb
  · exact f.path_ne (List.mem_of_mem_drop hb)
  · exact f.path_ne hb

theorem entries_name {e : ℕ × List Byte} (hname : ∀ f ∈ files, f.shortname.length ≤ DIRSIZ) (h : e ∈ entries files) :
    e.2.length ≤ DIRSIZ ∧ 0 ∉ e.2 ∧ 1 ≤ e.1 ∧ e.1 < files.length + 2 := by
  rcases mem_entries h with rfl | rfl | ⟨f,hf,he,h₁,h₂⟩
  · exact ⟨by decide,by decide,Nat.le_refl _,by simp only [ROOTINO]; omega⟩
  · exact ⟨by decide,by decide,Nat.le_refl _,by simp only [ROOTINO]; omega⟩
  · rw [he]
    exact ⟨hname f hf,f.shortname_nul,by omega,h₂⟩

/-- The bytes of inode 1 are those of the directory, where it has blocks. -/
def RootBytes (files : List Input) (v : Image) : Prop :=
  ∀ x, v.addr ROOTINO (x / BSIZE) ≠ 0 → v.byteAt ROOTINO x = (rootBytes files).getD x 0

theorem RootBytes.bytesAt {v : Image} {k : ℕ} (hv : RootBytes files v) (hmap : v.MappedAt ROOTINO (16 * k) 16) :
    v.bytesAt ROOTINO (16 * k) 16 = (List.range 16).map fun j => (rootBytes files).getD (16 * k + j) 0 := by
  refine List.map_congr_left fun j hj => ?_
  have := List.mem_range.mp hj
  exact hv _ (hmap _ (by omega) (by omega))

theorem RootBytes.entry {v : Image} {k : ℕ} {e : ℕ × List Byte} (hv : RootBytes files v)
    (hmap : v.MappedAt ROOTINO (16 * k) 16) (he : (entries files)[k]? = some e) :
    v.entry ROOTINO k = ⟨BitVec.ofNat 16 e.1,strncpy DIRSIZ e.2⟩ := by
  obtain ⟨hk,rfl⟩ := List.getElem?_eq_some_iff.mp he
  have hlen := rootBytes_length files
  have htake := take_drop_flatMap (fun e _ => dirent_length e.1 e.2) hk
  rw [← rootBytes_eq] at htake
  rw [Image.entry,hv.bytesAt hmap,← Dirent.ofBytes_bytes ⟨BitVec.ofNat 16 _,_⟩]
  refine congrArg Dirent.ofBytes (Eq.trans ?_ htake)
  rw [entries_length] at hk
  apply List.ext_getElem
  · simp only [List.length_map,List.length_range,List.length_take,List.length_drop]
    omega
  · intro j h₁ h₂
    have hj : j < 16 := by simpa using h₁
    simp only [List.getElem_map,List.getElem_range,List.getElem_take,List.getElem_drop]
    exact List.getD_eq_getElem _ _ (by omega)

theorem RootBytes.unused {v : Image} {k : ℕ} (hv : RootBytes files v) (hmap : v.MappedAt ROOTINO (16 * k) 16)
    (hk : (entries files)[k]? = none) : (v.entry ROOTINO k).inum = 0 := by
  have hzero : (List.range 16).map (fun j => (rootBytes files).getD (16 * k + j) 0) = List.replicate 16 0 := by
    rw [List.eq_replicate_iff]
    refine ⟨by simp,fun b hb => ?_⟩
    obtain ⟨j,-,rfl⟩ := List.mem_map.mp hb
    refine List.getD_eq_default _ _ ?_
    have := List.getElem?_eq_none_iff.mp hk
    rw [entries_length] at this
    rw [rootBytes_length]
    omega
  rw [Image.entry,hv.bytesAt hmap,hzero]
  decide

theorem RootBytes.matches_iff {v : Image} {k : ℕ} {w : List Byte} (hv : RootBytes files v)
    (hmap : v.MappedAt ROOTINO (16 * k) 16) (hfew : files.length + 2 ≤ 2 ^ 16)
    (hname : ∀ f ∈ files, f.shortname.length ≤ DIRSIZ) (hw : w.length ≤ DIRSIZ) (hw0 : 0 ∉ w) :
    v.Matches ROOTINO w k ↔ ∃ e, (entries files)[k]? = some e ∧ e.2 = w := by
  cases he : (entries files)[k]? with
  | none =>
    rw [Image.Matches,hv.unused hmap he]
    simp
  | some e =>
    obtain ⟨hlen,hnul,h1,hlt⟩ := entries_name hname (List.mem_of_getElem? he)
    have hinum : BitVec.ofNat 16 e.1 ≠ 0 := by
      intro h0
      have := congrArg BitVec.toNat h0
      rw [BitVec.toNat_ofNat,Nat.mod_eq_of_lt (by omega)] at this
      simp at this
      omega
    rw [Image.Matches,hv.entry hmap he]
    dsimp only
    rw [namecmp,strncmp_strncpy hw hlen hw0 hnul]
    constructor
    · exact fun h => ⟨_,rfl,h.2.symm⟩
    · rintro ⟨e',he',rfl⟩
      obtain rfl := Option.some.inj he'
      exact ⟨hinum,rfl⟩

end Mkfs

/-! ## A directory that ends in a hole -/

section
variable {sb : Superblock} {p : Pid} {X : Halt → Prop} {s t : St} {o : ℤ} {k j : ℕ} {ip : Fin NINODE} {name : List Byte}

theorem readHole_wp {Q : Option ℕ × List Byte → St → Prop} (h : InOp sb o k t) (hk : 2 ≤ k) (ho : (t.view sb ip).Own sb)
    (ha : (t.view sb ip).Alloc sb (t.env.itable ip).inum) (hj : 64 ∣ j) (hdir : j / 64 < NDIRECT)
    (hsize : 16 * j + 16 ≤ (t.view sb ip).size (t.env.itable ip).inum)
    (hhole : (t.view sb ip).addr (t.env.itable ip).inum (j / 64) = 0) (hroom : ¬t.Full sb)
    (hQ : ∀ t', Editing sb o (k - 2) ip (fun _ => False) t t' → (t'.view sb ip).addr (t.env.itable ip).inum (j / 64) ≠ 0 →
      (t'.view sb ip).blk ((t'.view sb ip).addr (t.env.itable ip).inum (j / 64)) = Bytes.zero →
      Q (some 16,List.replicate 16 0) t') :
    (readi sb ip .kernel (16 * j) 16 : Code ℕ (Option ℕ × List Byte)).wp (St.exec p) X Q t := by
  have hlt : (t.view sb ip).size (t.env.itable ip).inum < 2 ^ 32 := BitVec.isLt _
  have hbn : 16 * j / BSIZE = j / 64 := by
    simp only [BSIZE]
    omega
  have hoff : 16 * j % BSIZE = 0 := by
    simp only [BSIZE]
    omega
  rw [readi,bind_eq,wp_inode,← St.view_size sb t ip,if_neg (by omega)]
  dsimp only
  rw [Nat.mod_eq_of_lt (by omega),if_neg (by omega),readiLoop,if_pos (by decide),hbn,hoff,bind_eq]
  refine (bmap_direct_wp (P := fun _ => False) h (.inl hk) ho ha hdir).seq ?_
  rintro r t' ⟨he,hr,hfull,hzero⟩
  have hr0 : r ≠ 0 := by
    intro h0
    obtain ⟨rfl,hf⟩ := hfull h0
    exact hroom hf
  have hr0' : (t'.view sb ip).addr (t.env.itable ip).inum (j / 64) ≠ 0 := hr ▸ hr0
  have hz := hzero hhole hr0
  have hview : (t'.view sb ip).addr (t'.env.itable ip).inum (j / 64) ≠ 0 := by rwa [he.inum]
  have hblk : t'.blk r = Bytes.zero := by
    have := St.blk_of_addr he.edits.own he.alloc hview
    rw [he.inum,← hr] at this
    rw [this]
    exact hz
  rw [if_neg hr0,bind_eq,wp_bread]
  dsimp only
  rw [bind_eq,wp_bdata,hblk]
  exact (wp_brelse).mpr ((wp_pure _ _ _).mpr (hQ t' he hr0' (hr ▸ hz)))

theorem dirlookup_hole {n : ℕ} {Q : Option (Fin NINODE × ℕ) → St → Prop} (h : InOp sb o k t) (hk : 2 ≤ k)
    (ho : (t.view sb ip).Own sb) (ha : (t.view sb ip).Alloc sb (t.env.itable ip).inum)
    (hdir : (t.view sb ip).IsDir (t.env.itable ip).inum) (hn : 64 ∣ n) (hdirect : n / 64 < NDIRECT)
    (hsize : (t.view sb ip).size (t.env.itable ip).inum = 16 * n + BSIZE)
    (hmap : (t.view sb ip).MappedAt (t.env.itable ip).inum 0 (16 * n))
    (hhole : (t.view sb ip).addr (t.env.itable ip).inum (n / 64) = 0) (hroom : ¬t.Full sb)
    (hno : ∀ i, i < n → ¬(t.view sb ip).Matches (t.env.itable ip).inum name i)
    (hQ : ∀ t', Editing sb o (k - 2) ip (fun _ => False) t t' → Q none t') :
    (dirlookup sb ip name : Code ℕ _).wp (St.exec p) X Q t := by
  rw [BSIZE] at hsize
  rw [Image.IsDir,St.view_ino_self] at hdir
  rw [dirlookup,bind_eq,wp_inode,if_neg (by simp [hdir]),← St.view_size sb t ip,hsize,
    show (16 * n + 1024) / 16 + 1 = 65 + n by omega]
  refine dirlookupFrom_skip (k := 0) _ ho ha (Nat.zero_add n).symm (by omega) hmap hno ?_
  rw [dirlookupFrom,bind_eq,wp_inode,← St.view_size sb t ip,hsize,if_pos (by omega),bind_eq,wp_bind]
  refine readHole_wp h hk ho ha hn hdirect (by omega) hhole hroom fun t' he hnew hzero => ?_
  dsimp only
  rw [if_neg (by simp),if_pos (by decide)]
  rw [← he.inum] at hnew hzero
  have hsize' : (t'.view sb ip).size (t'.env.itable ip).inum = 16 * n + 1024 := by
    rw [St.view_size,he.size,← St.view_size sb t ip,hsize]
  have hmap' : (t'.view sb ip).MappedAt (t'.env.itable ip).inum 0 (16 * n + 1024) := by
    intro x _ hx
    by_cases hlt : x < 16 * n
    · rw [he.inum,he.edits.addr _ (hmap x (Nat.zero_le _) (by omega))]
      exact hmap x (Nat.zero_le _) (by omega)
    · rwa [show x / BSIZE = n / 64 by simp only [BSIZE]; omega]
  have hno' : ∀ i, i < n + 64 → ¬(t'.view sb ip).Matches (t'.env.itable ip).inum name i := by
    intro i hi
    by_cases hlt : i < n
    · have hbytes : (t'.view sb ip).bytesAt (t'.env.itable ip).inum (16 * i) 16 =
          (t.view sb ip).bytesAt (t.env.itable ip).inum (16 * i) 16 := by
        refine List.map_congr_left fun x hx => ?_
        have := List.mem_range.mp hx
        rw [he.inum]
        exact he.edits.bytes _ not_false (hmap _ (Nat.zero_le _) (by omega))
      rw [Image.Matches,Image.entry,hbytes]
      exact hno i hlt
    · have hbytes : (t'.view sb ip).bytesAt (t'.env.itable ip).inum (16 * i) 16 = List.replicate 16 0 := by
        rw [List.eq_replicate_iff]
        refine ⟨by simp [Image.bytesAt],fun b hb => ?_⟩
        obtain ⟨x,hx,rfl⟩ := List.mem_map.mp hb
        have := List.mem_range.mp hx
        rw [Image.byteAt,show (16 * i + x) / BSIZE = n / 64 by simp only [BSIZE]; omega,hzero]
        exact Bytes.get_zero _
      rw [Image.Matches,Image.entry,hbytes]
      exact fun hm => hm.1 (by decide)
  refine dirlookupFrom_skip (k := n + 1) (n := 63) (j := n + 64) 1 he.edits.own he.alloc (by omega)
    (by omega) (fun x h₁ h₂ => hmap' x h₁ (by omega)) hno' ?_
  rw [dirlookupFrom,bind_eq,wp_inode,← St.view_size sb t' ip,if_neg (by omega),wp_pure]
  exact hQ t' he

theorem iunlockput_linked {Q : Unit → St → Prop} (hlock : (t.env.itable ip).lock = some p) (hpos : 0 < (t.env.itable ip).ref)
    (hlinks : (t.env.itable ip).din.nlink ≠ 0) (hQ : ∀ u, Q () u) :
    (iunlockput sb ip : Code ℕ Unit).wp (St.exec p) X Q t := by
  obtain ⟨i,hi⟩ : ∃ i, i = { t.env.itable ip with lock := none } := ⟨_,rfl⟩
  have hunlock : EnvOp.exec p (.iunlock ip) t.env = .ok ((),t.env.setInode ip i) := by
    simp only [EnvOp.exec,Env.iunlock]
    rw [if_neg,hi]
    · rfl
    · rintro (h₁ | h₁)
      · exact h₁ hlock
      · omega
  have htest : EnvOp.exec p (.iputTest ip) (t.env.setInode ip i) =
      .ok (false,(t.env.setInode ip i).setInode ip { i with ref := i.ref - 1 }) := by
    simp only [EnvOp.exec,Env.iputTest]
    rw [Env.setInode_self,if_neg]
    rw [hi]
    exact fun h => hlinks h.2.2
  rw [iunlockput,bind_eq,wp_bind,iunlock]
  refine (wp_env_last hunlock).mpr ?_
  rw [iput,bind_eq,wp_env_ok htest,if_neg (by simp),wp_pure]
  exact hQ _

/-! ## One element below the root -/

theorem namex_root {path e : List Byte} {Q : Option (Fin NINODE × List Byte) → St → Prop} (hs : Coherent sb s)
    (hfree : ∀ ip, (s.env.itable ip).lock = none) (hslots : 2 ≤ (freeSlots s).card)
    (hroot : (s.image sb).Alloc sb ROOTINO) (hlinks : ((s.image sb).ino ROOTINO).nlink ≠ 0)
    (hdir : (s.image sb).IsDir ROOTINO) (hpath : path.head? = some slash) (helems : pathElems path = [e])
    (hlookup : ∀ ip t, Walked sb p s (Pi.single ip 1) (some ip) t → (t.env.itable ip).inum = ROOTINO →
      (t.env.itable ip).din = (s.image sb).ino ROOTINO →
      (dirlookup sb ip e : Code ℕ _).wp (St.exec p) X (fun r t' => match r with
        | none => (iunlockput sb ip : Code ℕ Unit).wp (St.exec p) X (fun _ u => Q none u) t'
        | some (jp,_) => Walked sb p s (Pi.single ip 1 + Pi.single jp 1) (some ip) t' ∧
          (t'.env.itable ip).inum = ROOTINO ∧ ∀ u, Walked sb p s (Pi.single jp 1) none u →
            (u.env.itable jp).inum = (t'.env.itable jp).inum → Q (some (jp,[])) u) t) :
    (namex sb path false : Code ℕ _).wp (St.exec p) X Q s := by
  have hw : Walked sb p s 0 none s := .refl hs
  rw [namex,if_pos hpath,bind_eq,wp_bind]
  refine iget_wp hw hroot (fun hfull => ?_) fun ip t₁ hw₁ hinum₁ _ => ?_
  · have : freeSlots s = ∅ := Finset.filter_eq_empty_iff.mpr fun ip _ => by
      have := hfull ip
      omega
    simp [this] at hslots
  rw [zero_add] at hw₁
  have href := hw₁.ref ip
  rw [Pi.single_eq_same] at href
  rw [helems,namexLoop,bind_eq,wp_bind]
  refine ilock_wp hw₁ (by omega) (hfree ip) fun t₂ hw₂ hinum₂ hdin₂ => ?_
  rw [hinum₁] at hinum₂ hdin₂
  have htype : (t₂.env.itable ip).din.type = T_DIR := by
    rw [hdin₂]
    exact hdir
  rw [bind_eq,wp_inode,if_neg (not_not.mpr htype),if_neg (by simp),bind_eq]
  refine (hlookup ip t₂ hw₂ hinum₂ hdin₂).seq ?_
  rintro (_ | ⟨jp,off⟩) t₃ h₃
  · dsimp only
    rw [bind_eq,wp_bind]
    exact h₃.imp fun _ u hu => (wp_pure _ _ _).mpr hu
  · obtain ⟨hw₃,hinum₃,hq⟩ := h₃
    dsimp only
    rw [add_comm] at hw₃
    rw [bind_eq,wp_bind]
    refine iunlockput_wp hw₃ (hfree ip) (.inr ?_) fun u hu hinum => ?_
    · rw [hinum₃]
      exact hlinks
    · rw [namexLoop,if_neg (by simp),wp_pure]
      exact hq u hu (hinum jp)

theorem namei_wp {path : List Byte} {name : Buf.Name} {Q : Option (Fin NINODE) → St → Prop} (hnul : 0 ∉ path)
    (h : (namex sb path false : Code ℕ _).wp (St.exec p) X (fun r => Q (r.map Prod.fst)) s) :
    (Buf.namei sb path name : Code ℕ _).wp (St.exec p) X Q s := by
  rw [← Buf.namex_eq sb name hnul,wp_bind] at h
  rw [Buf.namei,bind_eq,wp_bind]
  refine h.imp fun r t hr => (wp_pure _ _ _).mpr ?_
  have := (wp_pure _ _ _).mp hr
  rw [Buf.result,Option.map_map] at this
  simpa [Function.comp_def] using this

end

namespace Mkfs

/-- A kernel with this disk, in a transaction with room for two blocks, while nothing is locked and two
slots of the inode table are unused. -/
structure Mounted (sb : Superblock) (img : Blocks) (s : St) : Prop where
  blk : s.blk = img
  op : ∃ o k, 2 ≤ k ∧ InOp sb o k s
  table : Coherent sb s
  unlocked : ∀ ip, (s.env.itable ip).lock = none
  slots : 2 ≤ (freeSlots s).card

section
variable {sb : Superblock} {files : List Input} {img : Blocks} {m : Image} {p : Pid} {s t : St} {ip : Fin NINODE}
variable {e : List Byte}

theorem Mounted.image (hs : Mounted sb img s) : s.image sb = Image.ofBlocks sb img := by
  rw [St.image,hs.blk]

theorem Built.root (h : Built sb files img m) : (Image.ofBlocks sb img).Alloc sb ROOTINO ∧
    (Image.ofBlocks sb img).IsDir ROOTINO ∧ ((Image.ofBlocks sb img).ino ROOTINO).nlink ≠ 0 := by
  obtain ⟨ha,hf⟩ := h.laid.file _ _ _ (tree_root files)
  refine ⟨(h.edits.alloc_iff _).mpr ha,?_,?_⟩
  · rw [Image.IsDir,h.edits.ino_self]
    exact hf.type
  · rw [h.edits.ino_self]
    dsimp only
    rw [hf.nlink]
    decide

theorem Built.alloc {i : ℕ} {ty : BitVec 16} {c : List Byte} (h : Built sb files img m) (hi : tree files i = some (ty,c)) :
    (Image.ofBlocks sb img).Alloc sb i := (h.edits.alloc_iff _).mpr (h.laid.file _ _ _ hi).1

theorem Built.mappedAt {off n : ℕ} (h : Built sb files img m) (hroot : 16 * (files.length + 2) ≤ MAXFILE * BSIZE)
    (hle : off + n ≤ 16 * (files.length + 2)) : (Image.ofBlocks sb img).MappedAt ROOTINO off n := by
  intro x _ hx
  rw [h.root_holds.mapped.addr (by rwa [rootBytes_length]),rootBytes_length]
  simp only [BSIZE]
  omega

theorem Mounted.view (hs : Mounted sb img s) (hw : Walked sb p s (Pi.single ip 1) (some ip) t)
    (hinum : (t.env.itable ip).inum = ROOTINO) (hdin : (t.env.itable ip).din = (s.image sb).ino ROOTINO) :
    t.view sb ip = Image.ofBlocks sb img := by
  rw [St.view_eq_image (by rw [hdin,hinum,hw.image]),hw.image,hs.image]

theorem Built.dirlookup_found {j x : ℕ} (h : Built sb files img m) (hfit : Fits sb files) (hsb : sb.ninodes ≤ NINODES)
    (hs : Mounted sb img s) (hj : (entries files)[j]? = some (x,e)) (hfirst : ∀ i, i < j → ∀ q,
      (entries files)[i]? = some q → q.2 ≠ e) (hx : (Image.ofBlocks sb img).Alloc sb x)
    (hw : Walked sb p s (Pi.single ip 1) (some ip) t)
    (hinum : (t.env.itable ip).inum = ROOTINO) (hdin : (t.env.itable ip).din = (s.image sb).ino ROOTINO) :
    (dirlookup sb ip e : Code ℕ _).wp (St.exec p) (fun _ => False) (fun r t' => ∃ jp off, r = some (jp,off) ∧
      Walked sb p s (Pi.single ip 1 + Pi.single jp 1) (some ip) t' ∧ (t'.env.itable ip).inum = ROOTINO ∧
      (t'.env.itable jp).inum = x) t := by
  have hview := hs.view hw hinum hdin
  have hroot := hfit.root hsb
  have hfew : files.length + 2 ≤ 2 ^ 16 := by
    have := hfit.inodes
    simp only [NINODES] at hsb
    omega
  obtain ⟨ha,hdir,-⟩ := h.root
  have hlt : j < files.length + 2 := by
    rw [← entries_length]
    exact (List.getElem?_eq_some_iff.mp hj).1
  obtain ⟨hlen,hnul,-,hxlt⟩ := entries_name hfit.name (List.mem_of_getElem? hj)
  have hb : RootBytes files (Image.ofBlocks sb img) := h.root_holds.bytes
  have hsize : 16 * j + 16 ≤ (Image.ofBlocks sb img).size ROOTINO := by
    rw [h.root_size hroot,rootSize]
    simp only [BSIZE]
    omega
  have href := hw.ref ip
  rw [Pi.single_eq_same] at href
  refine Xv6.dirlookup_found (j := j) (by rw [hview]; exact h.edits.own) ?_ ?_ ?_ ?_ ?_ ?_ ?_
  all_goals rw [hview,hinum]
  · exact ha
  · exact hdir
  · exact hsize
  · exact h.mappedAt hroot (by omega)
  · exact (hb.matches_iff (h.mappedAt hroot (by omega)) hfew hfit.name hlen hnul).mpr ⟨_,hj,rfl⟩
  · intro i hi hm
    obtain ⟨q,hq,hqe⟩ := (hb.matches_iff (h.mappedAt hroot (by omega)) hfew hfit.name hlen hnul).mp hm
    exact hfirst i hi q hq hqe
  · rw [hb.entry (h.mappedAt hroot (by omega)) hj,hw.coherent.dev ip (by omega),BitVec.toNat_ofNat,
      Nat.mod_eq_of_lt (by dsimp only at *; omega)]
    refine iget_wp hw (by rw [hs.image]; exact hx) (fun hfull => ?_) fun jp t' hw' hjp hsame => ?_
    · have := hw.few hfull
      have := hs.slots
      omega
    · exact ⟨jp,_,rfl,hw',by rw [hsame ip (by omega),hinum],hjp⟩

/-- `dirlookup` of a name that no entry has; what follows is the `iunlockput` of `namex`. -/
theorem Built.dirlookup_missing {Q : Unit → St → Prop} (h : Built sb files img m) (hfit : Fits sb files)
    (hsb : sb.ninodes ≤ NINODES) (hroom : sb.nmeta + total files < sb.size) (hs : Mounted sb img s)
    (hlen : e.length ≤ DIRSIZ) (hnul : 0 ∉ e) (hno : ∀ q ∈ entries files, q.2 ≠ e)
    (hw : Walked sb p s (Pi.single ip 1) (some ip) t)
    (hinum : (t.env.itable ip).inum = ROOTINO) (hdin : (t.env.itable ip).din = (s.image sb).ino ROOTINO) (hQ : ∀ u, Q () u) :
    (dirlookup sb ip e : Code ℕ _).wp (St.exec p) (fun _ => False) (fun r t' => r = none ∧
      (iunlockput sb ip : Code ℕ Unit).wp (St.exec p) (fun _ => False) Q t') t := by
  have hview := hs.view hw hinum hdin
  have hroot := hfit.root hsb
  have hn : files.length + 2 ≤ 200 := by
    have := hfit.inodes
    simp only [NINODES] at hsb
    omega
  obtain ⟨ha,hdir,hlinks⟩ := h.root
  have hb : RootBytes files (Image.ofBlocks sb img) := h.root_holds.bytes
  have hno' {k : ℕ} (hmap : (Image.ofBlocks sb img).MappedAt ROOTINO (16 * k) 16) :
      ¬(Image.ofBlocks sb img).Matches ROOTINO e k := by
    intro hm
    obtain ⟨q,hq,hqe⟩ := (hb.matches_iff hmap (by omega) hfit.name hlen hnul).mp hm
    exact hno q (List.mem_of_getElem? hq) hqe
  have href := hw.ref ip
  rw [Pi.single_eq_same] at href
  have hlock := hw.lock ip
  rw [if_pos rfl] at hlock
  have hsize := h.root_size hroot
  by_cases hfix : (files.length + 2) % 64 = 0
  · -- the last block of the directory is full, so the rounded size reaches into the next one
    obtain ⟨o,k,hk,hop⟩ := hs.op
    have hop' : InOp sb o k t := hop.congr (by rw [hw.frame]) (by rw [hw.frame])
    have hfull : ¬t.Full sb := by
      intro hf
      have := hf _ hroom
      rw [hw.image,hs.image,h.used] at this
      simp at this
    have hhole : (Image.ofBlocks sb img).addr ROOTINO ((files.length + 2) / 64) = 0 := by
      by_contra h0
      rw [← ne_eq,h.root_holds.mapped.addr (by rwa [rootBytes_length]),rootBytes_length] at h0
      simp only [BSIZE] at h0
      omega
    refine dirlookup_hole (n := files.length + 2) hop' hk (by rw [hview]; exact h.edits.own) ?_ ?_
      (Nat.dvd_of_mod_eq_zero hfix) (by simp only [NDIRECT]; omega) ?_ ?_ ?_ hfull ?_ fun t' he => ⟨rfl,?_⟩
    · rwa [hview,hinum]
    · rwa [hview,hinum]
    · rw [hview,hinum,hsize,rootSize]
      simp only [BSIZE]
      omega
    · rw [hview,hinum]
      exact h.mappedAt hroot (by omega)
    · rwa [hview,hinum]
    · intro i hi
      rw [hview,hinum]
      exact hno' (h.mappedAt hroot (by omega))
    · have hnlink : (t'.env.itable ip).din.nlink = (t.env.itable ip).din.nlink := by
        have := he.edits.ino_self
        rw [St.view_ino_self,← he.inum,St.view_ino_self] at this
        rw [this]
      refine iunlockput_linked ?_ ?_ ?_ hQ
      · rw [he.env,Env.setDin_itable_self,hlock]
      · rw [he.env,Env.setDin_itable_self]
        dsimp only
        omega
      · rw [hnlink,hdin,hs.image]
        exact hlinks
  · have hmap : (Image.ofBlocks sb img).MappedAt ROOTINO 0 ((Image.ofBlocks sb img).size ROOTINO) := by
      intro x _ hx
      rw [h.root_holds.mapped.addr (by rwa [rootBytes_length]),rootBytes_length]
      rw [hsize,rootSize] at hx
      simp only [BSIZE] at *
      omega
    refine Xv6.dirlookup_missing (by rw [hview]; exact h.edits.own) ?_ ?_ ?_ ?_ ?_ ⟨rfl,?_⟩
    · rwa [hview,hinum]
    · rwa [hview,hinum]
    · rw [hview,hinum,hsize,rootSize]
      exact Dvd.dvd.mul_left (by decide) _
    · rwa [hview,hinum]
    · intro i hi
      rw [hview,hinum] at hi ⊢
      exact hno' fun x h₁ h₂ => hmap x (Nat.zero_le _) (by omega)
    · refine iunlockput_linked hlock (by omega) ?_ hQ
      rw [hdin,hs.image]
      exact hlinks

/-! ## What the kernel finds -/

theorem pathElems_one {w : List Byte} (hne : w ≠ []) (hslash : slash ∉ w) : pathElems (slash :: w) = [w.take DIRSIZ] := by
  have hsplit : w.splitOnP (· == slash) = [w] := by
    refine List.splitOnP_eq_singleton fun c hc => ?_
    exact beq_eq_false_iff_ne.mpr fun h => hslash (h ▸ hc)
  rw [pathElems_eq,components_slash,components,hsplit]
  simp [hne]

theorem Built.namei_found {j x : ℕ} {w : List Byte} (name : Buf.Name) (h : Built sb files img m) (hfit : Fits sb files)
    (hsb : sb.ninodes ≤ NINODES) (hs : Mounted sb img s) (hne : w ≠ []) (hslash : slash ∉ w)
    (hj : (entries files)[j]? = some (x,w)) (hfirst : ∀ i, i < j → ∀ q, (entries files)[i]? = some q → q.2 ≠ w)
    (hx : (Image.ofBlocks sb img).Alloc sb x) :
    (Buf.namei sb (slash :: w) name : Code ℕ _).wp (St.exec p) (fun _ => False) (fun r t => ∃ jp, r = some jp ∧
      Walked sb p s (Pi.single jp 1) none t ∧ (t.env.itable jp).inum = x) s := by
  obtain ⟨ha,hdir,hlinks⟩ := h.root
  obtain ⟨hlen,hnul,-⟩ := entries_name hfit.name (List.mem_of_getElem? hj)
  have helems := pathElems_one hne hslash
  rw [List.take_of_length_le hlen] at helems
  rw [← hs.image] at ha hdir hlinks
  refine namei_wp (by simpa [slash] using hnul) (namex_root hs.table hs.unlocked hs.slots ha hlinks hdir rfl helems
    fun ip t hw hinum hdin => (h.dirlookup_found hfit hsb hs hj hfirst hx hw hinum hdin).imp ?_)
  rintro r t' ⟨jp,off,rfl,hw',hinum',hjp⟩
  exact ⟨hw',hinum',fun u hu hue => ⟨jp,rfl,hu,hue.trans hjp⟩⟩

theorem Built.namei_missing {w : List Byte} (name : Buf.Name) (h : Built sb files img m) (hfit : Fits sb files)
    (hsb : sb.ninodes ≤ NINODES) (hroom : sb.nmeta + total files < sb.size) (hs : Mounted sb img s) (hne : w ≠ [])
    (hslash : slash ∉ w) (hnul : 0 ∉ w) (hno : ∀ q ∈ entries files, q.2 ≠ w.take DIRSIZ) :
    (Buf.namei sb (slash :: w) name : Code ℕ _).wp (St.exec p) (fun _ => False) (fun r _ => r = none) s := by
  obtain ⟨ha,hdir,hlinks⟩ := h.root
  rw [← hs.image] at ha hdir hlinks
  have hlen : (w.take DIRSIZ).length ≤ DIRSIZ := by
    rw [List.length_take]
    exact Nat.min_le_left _ _
  refine namei_wp (by simpa [slash] using hnul) (namex_root hs.table hs.unlocked hs.slots ha hlinks hdir rfl
    (pathElems_one hne hslash) fun ip t hw hinum hdin => (h.dirlookup_missing (Q := fun _ _ => Option.map Prod.fst
      (none : Option (Fin NINODE × List Byte)) = none) hfit hsb hroom hs hlen (fun h0 => hnul (List.mem_of_mem_take h0))
      hno hw hinum hdin fun _ => rfl).imp ?_)
  rintro r t' ⟨rfl,h'⟩
  exact h'

variable {β : Type}

def readsb : Code β (List ℕ) := do
  let bp ← bread 1
  let d ← bdata bp
  brelse bp
  pure ((List.range 8).map fun k => ofLe (d.slice (4 * k) 4))

/-- The type and the size of the file, and what `readi` returns for all of it. -/
def readFile (sb : Superblock) (path : List Byte) (name : Buf.Name) : Code β (Option (BitVec 16 × ℕ × Option ℕ × List Byte)) := do
  let r ← Buf.namei sb path name
  match r with
  | none => pure none
  | some ip =>
    ilock sb ip
    let i : Inode ← env (.inode ip)
    let d ← readi sb ip .kernel 0 i.din.size.toNat
    pure (some (i.din.type,i.din.size.toNat,d))

theorem Built.readFile_wp {i : ℕ} {f : Input} (name : Buf.Name) (h : Built sb files img m) (hfit : Fits sb files)
    (hsb : sb.ninodes ≤ NINODES) (hs : Mounted sb img s) (hne : f.shortname ≠ []) (hslash : slash ∉ f.shortname)
    (hi : files[i]? = some f) (hfirst : ∀ k, k < i + 2 → ∀ q, (entries files)[k]? = some q → q.2 ≠ f.shortname) :
    (readFile sb (slash :: f.shortname) name : Code ℕ _).wp (St.exec p) (fun _ => False)
      (fun r _ => r = some (T_FILE,f.bytes.length,some f.bytes.length,f.bytes)) s := by
  have htree : tree files (i + 2) = some (T_FILE,f.bytes) := by
    rw [tree,if_neg (by simp only [ROOTINO]; omega),if_neg (by omega),Nat.add_sub_cancel,hi]
    rfl
  have hfile := h.file htree (by simp only [ROOTINO]; omega)
  have ha := h.alloc htree
  rw [readFile,bind_eq]
  refine (Built.namei_found name h hfit hsb hs hne hslash (entries_file hi) hfirst ha).seq ?_
  rintro r t ⟨jp,rfl,hw,hinum⟩
  have href := hw.ref jp
  rw [Pi.single_eq_same] at href
  dsimp only
  rw [bind_eq,wp_bind]
  refine ilock_wp hw (by omega) (hs.unlocked jp) fun t' hw' hinum' hdin' => ?_
  rw [hinum] at hinum' hdin'
  have hview : t'.view sb jp = Image.ofBlocks sb img := by
    rw [St.view_eq_image (by rw [hdin',hinum',hw'.image]),hw'.image,hs.image]
  have hsize : (t'.env.itable jp).din.size.toNat = f.bytes.length := by
    rw [hdin',hs.image]
    exact hfile.size
  have htype : (t'.env.itable jp).din.type = T_FILE := by
    rw [hdin',hs.image]
    exact hfile.type
  have hlen := hfit.size f (List.mem_of_getElem? hi)
  have hmin : min (0 + f.bytes.length) ((t'.view sb jp).size (t'.env.itable jp).inum) - 0 = f.bytes.length := by
    rw [hview,hinum',hfile.size]
    omega
  have hmap : (Image.ofBlocks sb img).MappedAt (i + 2) 0 f.bytes.length := by
    intro x _ hx
    rw [hfile.mapped.addr hlen]
    simp only [BSIZE]
    omega
  have hcontent : (Image.ofBlocks sb img).bytesAt (i + 2) 0 f.bytes.length = f.bytes := by
    apply List.ext_getElem
    · simp [Image.bytesAt]
    · intro k h₁ h₂
      simp only [Image.bytesAt,List.getElem_map,List.getElem_range,Nat.zero_add]
      rw [hfile.bytes k (hmap k (Nat.zero_le _) (by omega))]
      exact List.getD_eq_getElem _ _ h₂
  rw [bind_eq,wp_inode,hsize,htype,bind_eq]
  refine (readi_mapped (by rw [hview]; exact h.edits.own) ?_ (by decide) ?_ ?_).seq ?_
  · rwa [hview,hinum']
  · rw [← hsize]
    exact BitVec.isLt _
  · rw [hmin,hview,hinum']
    exact hmap
  · rintro d u ⟨v,rfl,hv⟩
    rw [Image.readBytes,if_neg,hmin,hview,hinum',hcontent] at hv
    · obtain ⟨rfl,-⟩ := hv trivial
      rw [wp_pure]
    · rw [hview,hinum',hfile.size]
      simp only [MAXFILE,BSIZE] at hlen
      omega

theorem Built.readsb_run (h : Built sb files img m) (hs : Mounted sb img s) (hn : sb.ninodes < 2 ^ 32) :
    readsb.run (St.exec p) s = .ok ([FSMAGIC,sb.size,sb.size - sb.nmeta,sb.ninodes,sb.nlog,sb.logstart,sb.inodestart,
      sb.bmapstart],s) := by
  have hd : s.blk 1 = Bytes.zero.splice 0 (superBytes sb) := by
    rw [hs.blk,h.super]
  have hword (k : ℕ) (hk : k < 8) : (Bytes.zero.splice 0 (superBytes sb) : Bytes BSIZE).slice (4 * k) 4 =
      leBytes 4 ([FSMAGIC,sb.size,sb.size - sb.nmeta,sb.ninodes,sb.nlog,sb.logstart,sb.inodestart,sb.bmapstart].getD k 0) := by
    have : ((Bytes.zero : Bytes BSIZE).splice 0 (superBytes sb)).slice (0 + 4 * k) 4 = ((superBytes sb).drop (4 * k)).take 4 :=
      Bytes.slice_splice_sub _ (by simp [superBytes]; omega) (by simp [superBytes,BSIZE])
    rw [Nat.zero_add] at this
    rw [this,superBytes]
    interval_cases k <;> rfl
  have hsize := sb.size_lt
  have hlog := sb.logstart_eq
  have hinode := sb.inodestart_eq
  have hmeta := sb.nmeta_le_size
  have hbmap : sb.bmapstart < sb.nmeta := bmapstart_lt_nmeta
  have hle : sb.inodestart ≤ sb.bmapstart := Superblock.inodestart_le_bmapstart
  change Except.ok ((List.range 8).map fun k => ofLe ((s.blk 1).slice (4 * k) 4),s) = _
  rw [hd,List.map_congr_left fun k hk => by rw [hword k (List.mem_range.mp hk)]]
  simp only [List.range,List.range.loop,List.map_cons,List.map_nil,List.getD_cons_zero,List.getD_cons_succ]
  rw [ofLe_leBytes_of_lt,ofLe_leBytes_of_lt,ofLe_leBytes_of_lt,ofLe_leBytes_of_lt,ofLe_leBytes_of_lt,ofLe_leBytes_of_lt,
    ofLe_leBytes_of_lt,ofLe_leBytes_of_lt]
  all_goals first | omega | decide

end

/-- The stripped names: pairwise distinct, not empty and none of the two that every directory has. -/
structure Named (files : List Input) : Prop where
  nodup : (files.map Input.shortname).Nodup
  name : ∀ f ∈ files, f.shortname ≠ [] ∧ f.shortname ≠ dot ∧ f.shortname ≠ dotdot

theorem Named.first {files : List Input} {i : ℕ} {f : Input} (h : Named files) (hi : files[i]? = some f) :
    ∀ k, k < i + 2 → ∀ q, (entries files)[k]? = some q → q.2 ≠ f.shortname := by
  obtain ⟨-,hdot,hdotdot⟩ := h.name f (List.mem_of_getElem? hi)
  intro k hk q hq
  match k with
  | 0 =>
    obtain rfl := Option.some.inj hq
    exact hdot.symm
  | 1 =>
    obtain rfl := Option.some.inj hq
    exact hdotdot.symm
  | k + 2 =>
    intro he
    have hlen : k + 2 < (entries files).length := (List.getElem?_eq_some_iff.mp hq).1
    rw [entries_length] at hlen
    have hg : files[k]? = some files[k] := List.getElem?_eq_getElem (by omega)
    obtain rfl := Option.some.inj ((entries_file hg).symm.trans hq)
    have h₁ : (files.map Input.shortname)[k]? = some f.shortname := by
      rw [List.getElem?_map,hg]
      exact congrArg some he
    have h₂ : (files.map Input.shortname)[i]? = some f.shortname := by
      rw [List.getElem?_map,hi]
      rfl
    have hlt : k < (files.map Input.shortname).length := by
      rw [List.length_map]
      omega
    have := (List.getElem?_inj hlt h.nodup).mp (h₁.trans h₂.symm)
    omega

/-- The kernel finds in the image of `mkfs` the files that went into it, and nothing else. -/
theorem mkfs_kernel_agree (fssize : Fssize) (files : List Input) (hfit : Fits (superblock fssize) files)
    (hroom : (superblock fssize).nmeta + total files < (superblock fssize).size) (hnames : Named files) :
    ∃ img, mkfs fssize files = some img ∧ ∀ s, Mounted (superblock fssize) img s → ∀ (p : Pid) (name : Buf.Name),
      (∀ f ∈ files, ∃ t, (readFile (superblock fssize) (slash :: f.shortname) name).run (St.exec p) s =
        .ok (some (T_FILE,f.bytes.length,some f.bytes.length,f.bytes),t)) ∧
      (∀ w, w ≠ [] → slash ∉ w → 0 ∉ w → w.take DIRSIZ ∉ files.map Input.shortname → w.take DIRSIZ ≠ dot →
        w.take DIRSIZ ≠ dotdot →
        ∃ t, (Buf.namei (superblock fssize) (slash :: w) name).run (St.exec p) s = .ok (none,t)) ∧
      (∀ w ∈ [dot,dotdot], ∃ ip t, (Buf.namei (superblock fssize) (slash :: w) name).run (St.exec p) s = .ok (some ip,t) ∧
        (t.env.itable ip).inum = ROOTINO) ∧
      readsb.run (St.exec p) s = .ok ([FSMAGIC,fssize.val,fssize.val - (superblock fssize).nmeta,NINODES,LOGSIZE,
        (superblock fssize).logstart,(superblock fssize).inodestart,(superblock fssize).bmapstart],s) := by
  obtain ⟨img,m,hrun,hm⟩ := mkfs_built hfit
  refine ⟨img,hrun,fun s hs p name => ⟨?_,?_,?_,?_⟩⟩
  · intro f hf
    obtain ⟨i,hi⟩ := List.mem_iff_getElem?.mp hf
    have hslash : slash ∉ f.shortname := fun h => hfit.base f hf (Input.shortname_mem h)
    obtain ⟨r,t,hr,rfl⟩ | ⟨e,-,he⟩ := (Built.readFile_wp (p := p) name hm hfit (Nat.le_refl _) hs
      (hnames.name f hf).1 hslash hi (hnames.first hi)).run
    · exact ⟨t,hr⟩
    · exact he.elim
  · intro w hne hslash hnul hfile hdot hdotdot
    have hno : ∀ q ∈ entries files, q.2 ≠ w.take DIRSIZ := by
      intro q hq he
      rcases mem_entries hq with rfl | rfl | ⟨f,hf,hqf,-⟩
      · exact hdot he.symm
      · exact hdotdot he.symm
      · exact hfile (List.mem_map.mpr ⟨f,hf,hqf ▸ he⟩)
    obtain ⟨r,t,hr,rfl⟩ | ⟨e,-,he⟩ := (Built.namei_missing (p := p) name hm hfit (Nat.le_refl _) hroom hs hne hslash
      hnul hno).run
    · exact ⟨t,hr⟩
    · exact he.elim
  · have hroot := hm.alloc (tree_root files)
    have hdots {j : ℕ} {w : List Byte} (hne : w ≠ []) (hslash : slash ∉ w) (hj : (entries files)[j]? = some (ROOTINO,w))
        (hfirst : ∀ i, i < j → ∀ q, (entries files)[i]? = some q → q.2 ≠ w) :
        ∃ ip t, (Buf.namei (superblock fssize) (slash :: w) name).run (St.exec p) s = .ok (some ip,t) ∧
          (t.env.itable ip).inum = ROOTINO := by
      obtain ⟨r,t,hr,ip,rfl,-,hip⟩ | ⟨e,-,he⟩ := (Built.namei_found (p := p) name hm hfit (Nat.le_refl _) hs hne
        hslash hj hfirst hroot).run
      · exact ⟨ip,t,hr,hip⟩
      · exact he.elim
    intro w hw
    rcases List.mem_pair.mp hw with rfl | rfl
    · exact hdots (j := 0) (by decide) (by decide) rfl fun i hi => absurd hi (Nat.not_lt_zero _)
    · refine hdots (j := 1) (by decide) (by decide) rfl fun i hi q hq => ?_
      obtain rfl : i = 0 := by omega
      obtain rfl := Option.some.inj hq
      decide
  · exact hm.readsb_run hs (show NINODES < 2 ^ 32 by decide)

def boot (sb : Superblock) (img : Blocks) : St := ⟨img,fun _ => Bytes.zero,⟨sb.logstart,sb.nlog,1,false,.empty⟩,Env.zero⟩

theorem boot_mounted {sb : Superblock} {img : Blocks} (h : 3 ≤ sb.nlog) : Mounted sb img (boot sb img) where
  blk := rfl
  op := by
    refine ⟨1,2,Nat.le_refl _,rfl,rfl,Int.le_refl _,rfl,rfl,⟨?_,List.nodup_nil,?_,?_⟩,?_,show 2 ≤ LOGSIZE by decide,h⟩
    · exact Nat.le_trans (show 1 ≤ 3 by decide) h
    · exact fun b hb => absurd hb List.not_mem_nil
    · exact fun b hb => absurd hb List.not_mem_nil
    · change Logheader.count Bytes.zero = 0
      decide
  table := ⟨fun _ h => absurd h (Nat.lt_irrefl 0),fun _ h => absurd h (Nat.lt_irrefl 0),
    fun _ h => absurd h (Nat.lt_irrefl 0),fun _ _ h => absurd h (Nat.lt_irrefl 0)⟩
  unlocked := fun _ => rfl
  slots := by
    have : freeSlots (boot sb img) = Finset.univ := Finset.filter_true_of_mem fun _ _ => rfl
    rw [this]
    decide

theorem mkfs_kernel_agree_sample : ∃ img t, mkfs FSSIZE sampleFiles = some img ∧
    (readFile (superblock FSSIZE) [47,97] Bytes.zero).run (St.exec 0) (boot (superblock FSSIZE) img) =
      .ok (some (T_FILE,program.bytes.length,some program.bytes.length,program.bytes),t) ∧
    program.bytes = List.replicate 1024 1 ++ [2,3] := by
  have hroom : (superblock FSSIZE).nmeta + total sampleFiles < (superblock FSSIZE).size := by decide +kernel
  have hnames : Named sampleFiles := ⟨by decide,by decide⟩
  obtain ⟨img,hrun,h⟩ := mkfs_kernel_agree FSSIZE sampleFiles sampleFiles_fit hroom hnames
  obtain ⟨t,ht⟩ := (h _ (boot_mounted (by decide)) 0 Bytes.zero).1 program (List.mem_cons_of_mem _ List.mem_cons_self)
  exact ⟨img,t,hrun,ht,congrArg (List.replicate 1024 1 ++ ·) (List.append_nil _)⟩

end Mkfs

end Xv6
