import Xv6.Fs.Bmap
import Xv6.Fs.Sample

/-! # `readi` and `writei` -/
namespace Xv6
open Library Prog

def St.setMem (s : St) (p : Pid) (u : UserMem) : St :=
  { s with env := s.env.setProc p { s.env.proc p with mem := u } }

/-- Where `either_copyout` puts bytes, and whether it can. -/
def Dst.put (u : UserMem) (tot : ℕ) (bytes : List Byte) : Dst → UserMem
  | .kernel => u
  | .user va => u.put (va + tot) bytes

def Dst.Accessible (u : UserMem) (n : ℕ) : Dst → Prop
  | .kernel => True
  | .user va => UserMem.Accessible u.writable va n

/-- The bytes `either_copyin` takes, and whether it can. -/
def Src.byte (u : UserMem) (k : ℕ) : Src → Byte
  | .kernel bytes => bytes.getD k 0
  | .user va => u.byte (va + k)

def Src.Accessible (u : UserMem) (n : ℕ) : Src → Prop
  | .kernel bytes => n ≤ bytes.length
  | .user va => UserMem.Accessible u.readable va n

section
variable {sb : Superblock} {p : Pid} {X : Halt → Prop} {s t : St} {ip : Fin NINODE} {dst : Dst}
variable {u : UserMem} {n tot : ℕ}

@[simp] theorem St.setMem_setMem (s : St) (p : Pid) (u u' : UserMem) :
    (s.setMem p u).setMem p u' = s.setMem p u' := by
  simp [setMem,Env.setProc]

@[simp] theorem St.setMem_self (s : St) (p : Pid) : s.setMem p (s.env.proc p).mem = s := by
  simp [setMem,Env.setProc]

@[simp] theorem St.setMem_mem (s : St) (p : Pid) (u : UserMem) : ((s.setMem p u).env.proc p).mem = u := by
  simp [setMem,Env.setProc]

@[simp] theorem St.setMem_blk (s : St) (p : Pid) (u : UserMem) : (s.setMem p u).blk = s.blk := rfl
@[simp] theorem St.setMem_itable (s : St) (p : Pid) (u : UserMem) :
    (s.setMem p u).env.itable = s.env.itable := rfl
@[simp] theorem St.setMem_view (s : St) (p : Pid) (u : UserMem) : (s.setMem p u).view sb ip = s.view sb ip := rfl

theorem Dst.put_append (u : UserMem) (tot : ℕ) (xs ys : List Byte) :
    dst.put (dst.put u tot xs) (tot + xs.length) ys = dst.put u tot (xs ++ ys) := by
  cases dst with
  | kernel => rfl
  | user va => rw [put,put,put,← Nat.add_assoc,UserMem.put_append]

theorem Dst.put_nil (u : UserMem) (tot : ℕ) : dst.put u tot [] = u := by
  cases dst with
  | kernel => rfl
  | user va => exact UserMem.put_nil _ _

theorem Dst.Accessible.put {bytes : List Byte} (h : dst.Accessible u n) :
    dst.Accessible (dst.put u tot bytes) n := by
  cases dst with
  | kernel => trivial
  | user va => exact h

theorem Dst.Accessible.le {n' : ℕ} (h : dst.Accessible u n) (hn : n' ≤ n) : dst.Accessible u n' := by
  cases dst with
  | kernel => trivial
  | user va => exact h.sub (Nat.le_refl _) (by omega)

theorem eitherCopyout_wp (bytes : List Byte) :
    (eitherCopyout dst tot bytes : Code ℕ Bool).wp (St.exec p) X (fun ok t => ∃ u, t = s.setMem p u ∧
      (dst.Accessible (s.env.proc p).mem n → tot + bytes.length ≤ n →
        ok = true ∧ u = dst.put (s.env.proc p).mem tot bytes)) s := by
  cases dst with
  | kernel =>
    rw [eitherCopyout,wp_pure]
    exact ⟨(s.env.proc p).mem,by simp,fun _ _ => ⟨rfl,rfl⟩⟩
  | user va =>
    refine (wp_env_last rfl).mpr ?_
    refine ⟨((s.env.proc p).mem.copyout (va + tot) bytes).1,rfl,fun ha hn => ?_⟩
    rw [UserMem.copyout,UserMem.copyoutFrom_eq _ _ _ _ (Nat.le_refl _) (ha.sub (by omega) (by omega))]
    exact ⟨rfl,rfl⟩

theorem eitherCopyin_wp {src : Src} {bp off m : ℕ} :
    (eitherCopyin bp off src tot m : Code ℕ Bool).wp (St.exec p) X (fun ok t => ∃ xs : List Byte,
      t = s.setBlk bp ((s.blk bp).splice off xs) ∧ xs.length ≤ m ∧
        (src.Accessible (s.env.proc p).mem n → tot + m ≤ n →
          ok = true ∧ xs = (List.range m).map fun j => src.byte (s.env.proc p).mem (tot + j))) s := by
  cases src with
  | kernel bytes =>
    rw [eitherCopyin,bind_eq,wp_bdata,bind_eq,wp_setData,wp_pure]
    refine ⟨(bytes.drop tot).take m,rfl,List.length_take_le _ _,fun ha hn => ⟨rfl,?_⟩⟩
    have ha : n ≤ bytes.length := ha
    apply List.ext_getElem
    · simp only [List.length_take,List.length_drop,List.length_map,List.length_range]
      omega
    · intro j h₁ h₂
      have hj : j < m := by simpa using h₂
      simp only [List.getElem_take,List.getElem_drop,List.getElem_map,List.getElem_range,Src.byte]
      exact (List.getD_eq_getElem _ _ (by omega)).symm
  | user va =>
    have hcall : St.exec p (.copyin bp off (va + tot) m) s =
        .ok (((s.env.proc p).mem.copyin (va + tot) m).2,
          s.setBlk bp ((s.blk bp).splice off ((s.env.proc p).mem.copyin (va + tot) m).1)) := rfl
    rw [eitherCopyin,call,wp_op_ok hcall,wp_ret]
    refine ⟨_,rfl,UserMem.copyinFrom_length _ _ _ _,fun ha hn => ?_⟩
    rw [UserMem.copyin,UserMem.copyinFrom_eq _ _ _ _ (Nat.le_refl _) (ha.sub (by omega) (by omega))]
    simp only [Src.byte,Nat.add_assoc,and_self]

end

namespace Image
variable {m : Image} {i off n : ℕ}

@[simp] theorem bytesAt_length : (m.bytesAt i off n).length = n := by
  simp [bytesAt]

@[simp] theorem bytesAt_zero : m.bytesAt i off 0 = [] := rfl

theorem bytesAt_append (m : Image) (i off a b : ℕ) : m.bytesAt i off (a + b) = m.bytesAt i off a ++ m.bytesAt i (off + a) b := by
  simp only [bytesAt,List.range_add,List.map_append,List.map_map,Function.comp_def,Nat.add_assoc]

theorem bytesAt_block (h : off % BSIZE + n ≤ BSIZE) :
    m.bytesAt i off n = (m.blk (m.addr i (off / BSIZE))).slice (off % BSIZE) n := by
  refine List.map_congr_left fun k hk => ?_
  have hk := List.mem_range.mp hk
  simp only [BSIZE] at *
  rw [byteAt,show (off + k) / BSIZE = off / BSIZE by simp only [BSIZE]; omega,
    show (off + k) % BSIZE = off % BSIZE + k by simp only [BSIZE]; omega]

theorem content_slice (h : off + n ≤ m.size i) : ((m.content i).drop off).take n = m.bytesAt i off n := by
  obtain ⟨c,hc⟩ := Nat.exists_eq_add_of_le h
  rw [content,hc,Nat.add_assoc,bytesAt_append,bytesAt_append]
  simp

end Image

section
variable {sb : Superblock} {p : Pid} {X : Halt → Prop} {s t : St} {ip : Fin NINODE} {dst : Dst}
variable {n tot off : ℕ}

def Image.MappedAt (m : Image) (i off n : ℕ) : Prop :=
  ∀ x, off ≤ x → x < off + n → m.addr i (x / BSIZE) ≠ 0

/-- The result of a read that copied `bytes` out, all of them if the destination is accessible. -/
def Delivered (p : Pid) (dst : Dst) (bytes : List Byte) (s : St) (r : Option ℕ × List Byte) (t : St) : Prop :=
  ∃ u, t = s.setMem p u ∧ (dst.Accessible (s.env.proc p).mem bytes.length →
    r = (some bytes.length,bytes) ∧ u = dst.put (s.env.proc p).mem 0 bytes)

private theorem Delivered.done {bytes : List Byte} {u : UserMem}
    (h : dst.Accessible (s.env.proc p).mem bytes.length → u = dst.put (s.env.proc p).mem 0 bytes) :
    Delivered p dst bytes s (some bytes.length,bytes) (s.setMem p u) := ⟨u,rfl,fun ha => ⟨rfl,h ha⟩⟩

private theorem readiLoop_wp (ho : (s.view sb ip).Own sb)
    (ha : (s.view sb ip).Alloc sb (s.env.itable ip).inum) (fuel : ℕ) {u : UserMem} {acc : List Byte}
    (hfuel : n ≤ tot + fuel) (htot : tot ≤ n)
    (hmap : (s.view sb ip).MappedAt (s.env.itable ip).inum off (n - tot)) (hlen : acc.length = tot)
    (hput : dst.Accessible (s.env.proc p).mem n → u = dst.put (s.env.proc p).mem 0 acc) :
    (readiLoop sb ip dst n fuel tot off acc : Code ℕ (Option ℕ × List Byte)).wp (St.exec p) X
      (Delivered p dst (acc ++ (s.view sb ip).bytesAt (s.env.itable ip).inum off (n - tot)) s)
      (s.setMem p u) := by
  induction fuel generalizing tot off u acc with
  | zero =>
    rw [readiLoop,wp_pure,← hlen,show n = acc.length by omega,Nat.sub_self,Image.bytesAt_zero,List.append_nil]
    exact .done fun hacc => hput (by rwa [show n = acc.length by omega])
  | succ fuel ih =>
    rw [readiLoop]
    split
    · rename_i hlt
      have hBS : off % BSIZE < BSIZE := Nat.mod_lt _ (by decide)
      have hmapped := hmap off (Nat.le_refl _) (by omega)
      have hd : (s.blk ((s.view sb ip).addr (s.env.itable ip).inum (off / BSIZE))).slice (off % BSIZE)
          (min (n - tot) (BSIZE - off % BSIZE)) =
          (s.view sb ip).bytesAt (s.env.itable ip).inum off (min (n - tot) (BSIZE - off % BSIZE)) := by
        rw [Image.bytesAt_block (by omega),St.blk_of_addr ho ha hmapped,St.view_blk]
      rw [bind_eq,wp_bind]
      refine bmap_mapped (s := s.setMem p u) ho ha hmapped ?_
      rw [St.setMem_view,St.setMem_itable,if_neg hmapped,bind_eq,wp_bread]
      dsimp only
      rw [bind_eq,wp_bdata,St.setMem_blk,hd]
      have hsplit := Image.bytesAt_append (s.view sb ip) (s.env.itable ip).inum off
        (min (n - tot) (BSIZE - off % BSIZE)) (n - (tot + min (n - tot) (BSIZE - off % BSIZE)))
      rw [show min (n - tot) (BSIZE - off % BSIZE) + (n - (tot + min (n - tot) (BSIZE - off % BSIZE))) =
        n - tot by omega] at hsplit
      rw [bind_eq]
      refine (eitherCopyout_wp (n := n) _).seq ?_
      rintro ok t ⟨u',rfl,hu'⟩
      rw [bind_eq,wp_brelse,St.setMem_setMem]
      rw [St.setMem_mem,Image.bytesAt_length] at hu'
      split
      · rw [hsplit,← List.append_assoc]
        refine ih (by omega) (by omega) (fun x h₁ h₂ => hmap x (by omega) (by omega)) ?_ ?_
        · rw [List.length_append,hlen,Image.bytesAt_length]
        · intro hacc
          have hu := hput hacc
          obtain ⟨-,he⟩ := hu' (hu ▸ hacc.put) (by omega)
          rw [he,hu,← Dst.put_append,hlen,Nat.zero_add]
      · rename_i hfalse
        rw [wp_pure]
        refine ⟨u',rfl,fun hacc => absurd ?_ hfalse⟩
        rw [List.length_append,hlen,Image.bytesAt_length,Nat.add_sub_cancel' htot] at hacc
        exact (hu' (hput hacc ▸ hacc.put) (by omega)).1
    · rename_i hge
      rw [wp_pure,← hlen,show n = acc.length by omega,Nat.sub_self,Image.bytesAt_zero,List.append_nil]
      exact .done fun hacc => hput (by rwa [show n = acc.length by omega])

theorem Image.NoHole.mappedAt {m : Image} {i : ℕ} (h : m.NoHole sb) (hi : m.Alloc sb i)
    (hn : off + n ≤ m.size i) : m.MappedAt i off n := by
  intro x _ hx
  refine h i _ hi ?_
  have := Nat.div_mul_le_self x BSIZE
  omega

/-- What `readi` delivers: nothing if the range starts behind the end or wraps, else the
part of it that lies in the file. -/
def Image.readBytes (m : Image) (i off n : ℕ) : List Byte :=
  if m.size i < off ∨ 2 ^ 32 ≤ off + n then [] else m.bytesAt i off (min (off + n) (m.size i) - off)

theorem St.view_size (sb : Superblock) (s : St) (ip : Fin NINODE) :
    (s.view sb ip).size (s.env.itable ip).inum = (s.env.itable ip).din.size.toNat := by
  rw [Image.size,St.view_ino_self]

theorem readi_mapped (ho : (s.view sb ip).Own sb) (ha : (s.view sb ip).Alloc sb (s.env.itable ip).inum)
    (hoff : off < 2 ^ 32) (hn : n < 2 ^ 32) (hmap : (s.view sb ip).MappedAt (s.env.itable ip).inum off
      (min (off + n) ((s.view sb ip).size (s.env.itable ip).inum) - off)) :
    (readi sb ip dst off n : Code ℕ (Option ℕ × List Byte)).wp (St.exec p) X
      (Delivered p dst ((s.view sb ip).readBytes (s.env.itable ip).inum off n) s) s := by
  rw [readi,bind_eq,wp_inode,← St.view_size sb s ip,Image.readBytes]
  by_cases hbad : (s.view sb ip).size (s.env.itable ip).inum < off ∨ 2 ^ 32 ≤ off + n
  · rw [if_pos (by omega),if_pos hbad,wp_pure]
    exact ⟨(s.env.proc p).mem,by simp,fun _ => ⟨rfl,(Dst.put_nil _ _).symm⟩⟩
  · rw [if_neg (by omega),if_neg hbad]
    dsimp only
    rw [Nat.mod_eq_of_lt (by omega : off + n < 2 ^ 32)]
    have hlen : (if (s.view sb ip).size (s.env.itable ip).inum < off + n then
        (s.view sb ip).size (s.env.itable ip).inum - off else n) =
        min (off + n) ((s.view sb ip).size (s.env.itable ip).inum) - off := by
      split <;> omega
    rw [hlen]
    have h : (readiLoop sb ip dst _ _ 0 off [] : Code ℕ (Option ℕ × List Byte)).wp (St.exec p) X _
        (s.setMem p (s.env.proc p).mem) :=
      readiLoop_wp ho ha _ (Nat.le_add_left _ _) (Nat.zero_le _) hmap rfl fun _ => (Dst.put_nil _ _).symm
    rwa [St.setMem_self,List.nil_append,Nat.sub_zero] at h

theorem readi_wp (ho : (s.view sb ip).Own sb) (hh : (s.view sb ip).NoHole sb)
    (ha : (s.view sb ip).Alloc sb (s.env.itable ip).inum) (hoff : off < 2 ^ 32) (hn : n < 2 ^ 32) :
    (readi sb ip dst off n : Code ℕ (Option ℕ × List Byte)).wp (St.exec p) X
      (Delivered p dst ((s.view sb ip).readBytes (s.env.itable ip).inum off n) s) s := by
  refine readi_mapped ho ha hoff hn ?_
  rcases Nat.le_total off ((s.view sb ip).size (s.env.itable ip).inum) with hle | hgt
  · exact hh.mappedAt ha (by omega)
  · intro x h₁ h₂
    omega

/-! ## `writei` -/

variable {P : ℕ → Prop} {o : ℤ} {k : ℕ}

theorem St.view_setBlk {a : ℕ} (ha : sb.IsData a) (d : Block) (l : Log) :
    St.view sb { t.setBlk a d with log := l } ip = (t.view sb ip).setBlk a d := by
  rw [St.view,St.image_setBlk_log,Image.ofBlocks_setData ha]
  rfl

theorem Editing.setBlk {bn : ℕ} {d : Block} {l : Log} {j : ℕ} (h : Editing sb o k ip P s t)
    (hb : (t.view sb ip).addr (s.env.itable ip).inum bn ≠ 0)
    (hd : ∀ x, x / BSIZE = bn → ¬P x → d.get (x % BSIZE) = (t.view sb ip).byteAt (s.env.itable ip).inum x)
    (hop : InOp sb o j { t.setBlk ((t.view sb ip).addr (s.env.itable ip).inum bn) d with log := l }) :
    Editing sb o j ip P s { t.setBlk ((t.view sb ip).addr (s.env.itable ip).inum bn) d with log := l } := by
  have ha := h.alloc
  rw [h.inum] at ha
  have hdata := h.edits.own.addr_isData ha hb
  have himage : St.image sb { t.setBlk ((t.view sb ip).addr (s.env.itable ip).inum bn) d with log := l } =
      (t.image sb).setBlk ((t.view sb ip).addr (s.env.itable ip).inum bn) d := Image.ofBlocks_setData hdata d
  refine ⟨hop,h.env,h.size,?_,h.edits.trans ?_⟩
  · rw [himage]
    exact h.ino
  · rw [St.view_setBlk hdata]
    exact Image.edits_setBlk h.edits.own ha hb hd

/-- The offsets that may differ once `tot` bytes have been written. -/
def Src.Dirty (src : Src) (u : UserMem) (off n tot x : ℕ) : Prop :=
  off ≤ x ∧ (x < off + tot ∨ x < off + n ∧ ¬src.Accessible u n)

def blocksOf (off n : ℕ) : ℕ := if n = 0 then 0 else (off + n - 1) / BSIZE - off / BSIZE + 1

/-- The number of those that may have to be allocated; the block that the range begins in the middle of is not. -/
def newBlocksOf (off n : ℕ) : ℕ := blocksOf off n - if BSIZE ∣ off then 0 else 1

/-- The number of blocks that a `writei` has yet to log, at most, when `maps` bitmap blocks and `indirect` indirect
blocks are not in the log: the blocks of the range, a bitmap block for each one that is allocated, the indirect block
and its bitmap block, and the block of the inode. -/
def blocksLogged (maps indirect off n : ℕ) : ℕ :=
  if n = 0 then 1 else blocksOf off n + min (newBlocksOf off n + indirect) maps + indirect + 1

/-- Where the loop of `writei` has got to after `tot` bytes. -/
structure Writing (sb : Superblock) (p : Pid) (o : ℤ) (k : ℕ) (ip : Fin NINODE) (src : Src) (off n : ℕ) (s : St)
    (tot : ℕ) (t : St) : Prop where
  editing : Editing sb o k ip (src.Dirty (s.env.proc p).mem off n tot) s t
  le : tot ≤ n
  mapped : (t.view sb ip).MappedAt (s.env.itable ip).inum off tot
  bytes : src.Accessible (s.env.proc p).mem n → ∀ j, j < tot →
    (t.view sb ip).byteAt (s.env.itable ip).inum (off + j) = src.byte (s.env.proc p).mem j
  stop : tot = n ∨ tot = 0 ∨ BSIZE ∣ off + tot

variable {src : Src}

theorem Writing.mapBlock {u : St} {j : ℕ} (h : Writing sb p o k ip src off n s tot t)
    (hu : Editing sb o j ip (fun _ => False) t u) : Writing sb p o j ip src off n s tot u := by
  have hbytes : ∀ x, (t.view sb ip).addr (s.env.itable ip).inum (x / BSIZE) ≠ 0 →
      (u.view sb ip).byteAt (s.env.itable ip).inum x = (t.view sb ip).byteAt (s.env.itable ip).inum x := by
    intro x hx
    have he := hu.edits.bytes x not_false
    rw [h.editing.inum] at he
    exact he hx
  refine ⟨h.editing.trans (hu.mono (Nat.le_refl _) fun _ hx => hx.elim),h.le,?_,?_,h.stop⟩
  · intro x h₁ h₂
    have hm := h.mapped x h₁ h₂
    have he := hu.edits.addr (x / BSIZE)
    rw [h.editing.inum] at he
    rwa [he hm]
  · intro ha j hj
    rw [hbytes _ (h.mapped _ (by omega) (by omega)),h.bytes ha j hj]

theorem Writing.fill {xs : List Byte} {l : Log} {j m a : ℕ} (h : Writing sb p o k ip src off n s tot t)
    (hm : m = min (n - tot) (BSIZE - (off + tot) % BSIZE)) (hlt : tot < n) (hxs : xs.length ≤ m)
    (haddr : a = (t.view sb ip).addr (s.env.itable ip).inum ((off + tot) / BSIZE)) (ha : a ≠ 0)
    (hop : InOp sb o j { t.setBlk a ((t.blk a).splice ((off + tot) % BSIZE) xs) with log := l }) :
    (¬src.Accessible (s.env.proc p).mem n → Writing sb p o j ip src off n s tot
      { t.setBlk a ((t.blk a).splice ((off + tot) % BSIZE) xs) with log := l }) ∧
    ((src.Accessible (s.env.proc p).mem n →
        xs = (List.range m).map fun j => src.byte (s.env.proc p).mem (tot + j)) →
      Writing sb p o j ip src off n s (tot + m)
        { t.setBlk a ((t.blk a).splice ((off + tot) % BSIZE) xs) with log := l }) := by
  have hinum := h.editing.inum
  have halloc := h.editing.alloc
  have hBS : (off + tot) % BSIZE < BSIZE := Nat.mod_lt _ (by decide)
  have hb : (t.view sb ip).addr (s.env.itable ip).inum ((off + tot) / BSIZE) ≠ 0 := by rwa [← haddr]
  have hdata : sb.IsData a := by
    rw [haddr]
    exact h.editing.edits.own.addr_isData (hinum ▸ halloc) hb
  have hblk : t.blk a = (t.view sb ip).blk a := (Image.ofBlocks_blk hdata).symm
  have hstep : Editing sb o j ip (fun x => off + tot ≤ x ∧ x < off + tot + m) t
      { t.setBlk a ((t.blk a).splice ((off + tot) % BSIZE) xs) with log := l } := by
    have hrefl : Editing sb o k ip (fun x => off + tot ≤ x ∧ x < off + tot + m) t t :=
      .refl h.editing.op h.editing.edits.own halloc
    subst haddr
    rw [← hinum] at *
    refine hrefl.setBlk ha (fun x hx hP => ?_) hop
    rw [Bytes.get_splice_outside,hblk,← hx]
    · rfl
    · simp only [BSIZE] at *
      omega
  have hmap : ∀ bn, (t.view sb ip).addr (s.env.itable ip).inum bn ≠ 0 →
      (St.view sb { t.setBlk a ((t.blk a).splice ((off + tot) % BSIZE) xs) with log := l } ip).addr
        (s.env.itable ip).inum bn = (t.view sb ip).addr (s.env.itable ip).inum bn := by
    intro bn hb
    rw [← hinum] at *
    exact hstep.edits.addr bn hb
  constructor
  · intro hacc
    refine ⟨h.editing.trans (hstep.mono (Nat.le_refl _) fun x hx => ⟨by omega,.inr ⟨by omega,hacc⟩⟩),h.le,?_,
      fun ha => absurd ha hacc,h.stop⟩
    intro x h₁ h₂
    have hx := h.mapped x h₁ h₂
    rwa [hmap _ hx]
  · intro hsrc
    have hblock : ∀ x, off + tot ≤ x → x < off + tot + m → x / BSIZE = (off + tot) / BSIZE ∧
        x % BSIZE = (off + tot) % BSIZE + (x - (off + tot)) := by
      intro x h₁ h₂
      simp only [BSIZE] at *
      omega
    have hedit := (h.editing.mono (Nat.le_refl _) fun x hx =>
      (⟨hx.1,hx.2.imp_left fun hx => by omega⟩ : src.Dirty (s.env.proc p).mem off n (tot + m) x)).trans
      (hstep.mono (Nat.le_refl _) fun x hx => ⟨by omega,.inl (by omega)⟩)
    refine ⟨hedit,by omega,?_,?_,?_⟩
    · intro x h₁ h₂
      by_cases hx : x < off + tot
      · have hx := h.mapped x h₁ hx
        rwa [hmap _ hx]
      · rw [(hblock x (by omega) (by omega)).1,hmap _ hb,← haddr]
        exact ha
    · intro hacc j hj
      by_cases hjt : j < tot
      · have hx := h.mapped (off + j) (by omega) (by omega)
        rw [← h.bytes hacc j hjt,← hinum]
        rw [← hinum] at hx
        exact hstep.edits.bytes _ (by omega) hx
      · obtain ⟨h₁,h₂⟩ := hblock (off + j) (by omega) (by omega)
        rw [Image.byteAt,h₁,h₂,hmap _ hb,← haddr,St.view_setBlk hdata,Image.setBlk_blk,
          Function.update_self,Bytes.get_splice _ _ _ (by omega),hsrc hacc]
        rw [if_pos (by simp only [List.length_map,List.length_range]; omega),
          List.getD_eq_getElem _ _ (by simp only [List.length_map,List.length_range]; omega)]
        simp only [List.getElem_map,List.getElem_range]
        congr 1
        omega
    · have hm' : m = n - tot ∨ m = BSIZE - (off + tot) % BSIZE := by omega
      refine hm'.imp (fun _ => by omega) fun hm' => .inr ?_
      simp only [BSIZE] at *
      omega

theorem blocksOf_next {m : ℕ} (hn : 0 < n) (hm : m = min n (BSIZE - off % BSIZE)) :
    blocksOf (off + m) (n - m) + 1 ≤ blocksOf off n := by
  unfold blocksOf
  simp only [BSIZE] at *
  split <;> split <;> omega

theorem one_le_blocksLogged (maps indirect : ℕ) : 1 ≤ blocksLogged maps indirect off n := by
  unfold blocksLogged
  split <;> omega

theorem blocksLogged_mono {u u' v v' : ℕ} (hu : u' ≤ u) (hv : v' ≤ v) : blocksLogged u' v' off n ≤ blocksLogged u v off n := by
  unfold blocksLogged
  split <;> omega

theorem newBlocksOf_bounds (off n : ℕ) : newBlocksOf off n ≤ blocksOf off n ∧ blocksOf off n ≤ newBlocksOf off n + 1 := by
  unfold newBlocksOf
  split <;> omega

theorem newBlocksOf_dvd (h : BSIZE ∣ off) : newBlocksOf off n = blocksOf off n := by
  rw [newBlocksOf,if_pos h,Nat.sub_zero]

theorem blocksLogged_chunk {maps : ℕ} (hn : n ≤ (MAXOPBLOCKS - 1 - 1 - 2) / 2 * BSIZE) :
    blocksLogged maps 1 off n ≤ MAXOPBLOCKS := by
  unfold blocksLogged newBlocksOf blocksOf
  simp only [MAXOPBLOCKS,BSIZE] at *
  split
  · omega
  · split <;> omega

theorem blocksLogged_mapped {m u u' v v' : ℕ} (hn : 0 < n) (hm : m = min n (BSIZE - off % BSIZE)) (hu : u' ≤ u) (hv : v' ≤ v) :
    blocksLogged u' v' (off + m) (n - m) + 1 ≤ blocksLogged u v off n := by
  have hnext := blocksOf_next hn hm
  have hnew := newBlocksOf_bounds off n
  have hnew' := newBlocksOf_bounds (off + m) (n - m)
  unfold blocksLogged
  rw [if_neg (Nat.pos_iff_ne_zero.mp hn)]
  split <;> omega

theorem blocksLogged_new {m u u' v v' c k j : ℕ} (hn : 0 < n) (hm : m = min n (BSIZE - off % BSIZE)) (hoff : BSIZE ∣ off)
    (hmaps : u' + c ≤ u) (hle : c + v' ≤ 1 + v) (hroom : k + v' ≤ j + c + 1 + v) (hk : blocksLogged u v off n ≤ k) :
    blocksLogged u' v' (off + m) (n - m) ≤ j := by
  have hnext := blocksOf_next hn hm
  have hnew' := newBlocksOf_bounds (off + m) (n - m)
  unfold blocksLogged at *
  rw [if_neg (Nat.pos_iff_ne_zero.mp hn),newBlocksOf_dvd hoff] at hk
  split <;> omega

theorem blocksLogged_first {u v : ℕ} (hn : 0 < n) (hoff : BSIZE ∣ off) : min (1 + v) u + v + 2 ≤ blocksLogged u v off n := by
  have hnext : _ + 1 ≤ blocksOf off n := blocksOf_next hn rfl
  unfold blocksLogged
  rw [if_neg (Nat.pos_iff_ne_zero.mp hn),newBlocksOf_dvd hoff]
  omega

def Writing.Room (sb : Superblock) (ip : Fin NINODE) (X : Halt → Prop) (k off n : ℕ) (t : St) : Prop :=
  blocksLogged (t.unloggedMaps sb) (t.unloggedIndirect ip) off n ≤ k ∨ X (.panic .tooBigTransaction)

theorem Writing.Room.one_le (h : Writing.Room sb ip X k off n t) : 1 ≤ k ∨ X (.panic .tooBigTransaction) :=
  h.imp_left (Nat.le_trans (one_le_blocksLogged _ _))

/-- The loop of `writei` maps the next block: one that `log_write` will then find in the log, or with room for it. -/
theorem Writing.next_wp (h : Writing sb p o k ip src off n s tot t) (hX : Writing.Room sb ip X k (off + tot) (n - tot) t)
    (hfirst : BSIZE ∣ off ∨ (s.view sb ip).addr (s.env.itable ip).inum (off / BSIZE) ≠ 0) (hlt : tot < n)
    (hmax : off + n ≤ MAXFILE * BSIZE) :
    (bmap sb ip ((off + tot) / BSIZE) : Code ℕ ℕ).wp (St.exec p) X (fun a u =>
      a = (u.view sb ip).addr (s.env.itable ip).inum ((off + tot) / BSIZE) ∧ (a = 0 → u.Full sb) ∧
      ∃ j, Writing sb p o j ip src off n s tot u ∧ (1 ≤ j ∨ X (.panic .tooBigTransaction)) ∧
        ∀ m v, m = min (n - tot) (BSIZE - (off + tot) % BSIZE) → a ≠ 0 → u.log.lh.block ⊆ v.log.lh.block →
          v.env = u.env → Writing.Room sb ip X (j - u.log.takes a) (off + tot + m) (n - tot - m) v) t := by
  have hBS : (off + tot) % BSIZE < BSIZE := Nat.mod_lt _ (by decide)
  have hn : 0 < n - tot := Nat.sub_pos_of_lt hlt
  have hbn : (off + tot) / BSIZE < MAXFILE := by
    simp only [BSIZE,MAXFILE] at *
    omega
  have hinum := h.editing.inum
  by_cases hmap : (t.view sb ip).addr (t.env.itable ip).inum ((off + tot) / BSIZE) = 0
  · -- a block that is not mapped is taken from its beginning
    have hdvd : BSIZE ∣ off + tot := by
      rcases h.stop with htot | rfl | hdvd
      · omega
      · refine hfirst.resolve_right fun hne => ?_
        rw [hinum,Nat.add_zero,h.editing.edits.addr _ hne] at hmap
        exact hne hmap
      · exact hdvd
    refine (bmap_wp (P := fun _ => False) h.editing.op (hX.imp_left (Nat.le_trans (blocksLogged_first hn hdvd)))
      h.editing.edits.own h.editing.alloc hbn).imp ?_
    rintro a u ⟨⟨j,c,hedit,hch⟩,haddr,hfull,hlog⟩
    have hnext (m : ℕ) (hm : m = min (n - tot) (BSIZE - (off + tot) % BSIZE)) :=
      hX.imp_left (blocksLogged_new (k := k) (j := j) hn hm hdvd hch.maps hch.le hch.room)
    refine ⟨hinum ▸ haddr,hfull,j,h.mapBlock hedit,(hnext _ rfl).imp_left (Nat.le_trans (one_le_blocksLogged _ _)),?_⟩
    intro m v hm ha hsub henv
    rw [Log.takes_logged (hlog hmap ha)]
    exact (hnext m hm).imp_left (Nat.le_trans (blocksLogged_mono (St.unloggedMaps_le hsub)
      (St.unloggedIndirect_mono hsub (by rw [henv]))))
  · refine bmap_mapped h.editing.edits.own h.editing.alloc hmap
      ⟨by rw [hinum],fun h0 => absurd h0 hmap,k,h,hX.one_le,fun m v hm _ hsub henv => ?_⟩
    refine hX.imp_left fun hk => ?_
    have hle := t.log.takes_le ((t.view sb ip).addr (t.env.itable ip).inum ((off + tot) / BSIZE))
    have hmaps : v.unloggedMaps sb ≤ t.unloggedMaps sb := St.unloggedMaps_le hsub
    have hind : v.unloggedIndirect ip ≤ t.unloggedIndirect ip := St.unloggedIndirect_mono hsub (by rw [henv])
    have := blocksLogged_mapped hn hm hmaps hind
    omega

private theorem writeiLoop_wp (fuel : ℕ) (h : Writing sb p o k ip src off n s tot t)
    (hX : Writing.Room sb ip X k (off + tot) (n - tot) t)
    (hfirst : BSIZE ∣ off ∨ (s.view sb ip).addr (s.env.itable ip).inum (off / BSIZE) ≠ 0)
    (hfuel : n ≤ tot + fuel) (hmax : off + n ≤ MAXFILE * BSIZE) :
    (writeiLoop sb ip src n fuel tot (off + tot) : Code ℕ (ℕ × ℕ)).wp (St.exec p) X (fun r t =>
      r.2 = off + r.1 ∧ (∃ k, (1 ≤ k ∨ X (.panic .tooBigTransaction)) ∧ Writing sb p o k ip src off n s r.1 t) ∧
        (src.Accessible (s.env.proc p).mem n → r.1 < n → t.Full sb)) t := by
  induction fuel generalizing tot t k with
  | zero =>
    rw [writeiLoop,wp_pure]
    exact ⟨rfl,⟨k,hX.one_le,h⟩,fun _ hlt => by omega⟩
  | succ fuel ih =>
    rw [writeiLoop]
    split
    · rename_i hlt
      have hBS : (off + tot) % BSIZE < BSIZE := Nat.mod_lt _ (by decide)
      rw [bind_eq]
      refine (h.next_wp hX hfirst hlt hmax).seq ?_
      rintro a t₁ ⟨haddr,hfull,j,h₁,hj,hroom⟩
      split
      · rename_i ha
        rw [wp_pure]
        exact ⟨rfl,⟨j,hj,h₁⟩,fun _ _ => hfull ha⟩
      · rename_i ha
        rw [bind_eq,wp_bread]
        dsimp only
        rw [bind_eq]
        refine (eitherCopyin_wp (n := n)).seq ?_
        rintro ok t₂ ⟨xs,rfl,hxs,hsrc⟩
        rw [h₁.editing.proc] at hsrc
        split
        · have hdata : sb.IsData a := by
            rw [haddr]
            exact h₁.editing.edits.own.addr_isData (h₁.editing.inum ▸ h₁.editing.alloc) (haddr ▸ ha)
          refine wp_logWrite_absorb (h₁.editing.op.congr rfl rfl) hdata.not_inLog hdata.2 hj fun l _ hsub hl => ?_
          rw [bind_eq,wp_brelse,Nat.add_assoc]
          refine ih ((h₁.fill rfl hlt hxs haddr ha hl).2 fun hacc => (hsrc hacc (by omega)).2) ?_ (by omega)
          rw [← Nat.add_assoc,← Nat.sub_sub]
          exact hroom _ _ rfl ha hsub rfl
        · rename_i hfalse
          rw [bind_eq,wp_brelse,wp_pure]
          have hacc : ¬src.Accessible (s.env.proc p).mem n := fun hacc => hfalse (hsrc hacc (by omega)).1
          exact ⟨rfl,⟨j,hj,(h₁.fill rfl hlt hxs haddr ha (h₁.editing.op.congr rfl rfl)).1 hacc⟩,fun ha => absurd ha hacc⟩
    · rw [wp_pure]
      exact ⟨rfl,⟨k,hX.one_le,h⟩,fun _ hlt => by omega⟩

structure Wrote (sb : Superblock) (p : Pid) (o : ℤ) (ip : Fin NINODE) (src : Src) (off n : ℕ) (s : St) (tot : ℕ)
    (t : St) : Prop where
  op : InOp sb o 0 t
  env : t.env = s.env.setDin ip ((t.image sb).ino (s.env.itable ip).inum)
  edits : Image.Edits sb (s.view sb ip) (t.image sb) (s.env.itable ip).inum
    (src.Dirty (s.env.proc p).mem off n tot)
  le : tot ≤ n
  noHole : (t.image sb).NoHole sb
  size : (t.image sb).size (s.env.itable ip).inum = max ((s.view sb ip).size (s.env.itable ip).inum) (off + tot)
  bytes : src.Accessible (s.env.proc p).mem n → ∀ j, j < tot →
    (t.image sb).byteAt (s.env.itable ip).inum (off + j) = src.byte (s.env.proc p).mem j
  full : src.Accessible (s.env.proc p).mem n → tot < n → t.Full sb
  stop : tot = n ∨ tot = 0 ∨ BSIZE ∣ off + tot

def Image.BadWrite (m : Image) (i off n : ℕ) : Prop :=
  m.size i < off ∨ 2 ^ 32 ≤ off + n ∨ MAXFILE * BSIZE < off + n

def Writei (sb : Superblock) (p : Pid) (o : ℤ) (ip : Fin NINODE) (src : Src) (off n : ℕ) (s : St)
    (r : Option ℕ) (t : St) : Prop :=
  (s.view sb ip).BadWrite (s.env.itable ip).inum off n ∧ r = none ∧ t = s ∨
    ¬(s.view sb ip).BadWrite (s.env.itable ip).inum off n ∧ ∃ tot, r = some tot ∧ Wrote sb p o ip src off n s tot t

theorem Writing.finish {r : ℕ × ℕ} (h : Writing sb p o k ip src off n s r.1 t) (hr : r.2 = off + r.1)
    (hX : 1 ≤ k ∨ X (.panic .tooBigTransaction)) (hh : (s.view sb ip).NoHole sb)
    (hoff : off ≤ (s.view sb ip).size (s.env.itable ip).inum)
    (hfull : src.Accessible (s.env.proc p).mem n → r.1 < n → t.Full sb) {z : BitVec 32}
    (hz : z.toNat = max ((s.view sb ip).size (s.env.itable ip).inum) r.2) :
    (iupdate sb ip : Code ℕ Unit).wp (St.exec p) X (fun _ u => Wrote sb p o ip src off n s r.1 u)
      { t with env := t.env.setDin ip { (t.env.itable ip).din with size := z } } := by
  have hinum := h.editing.inum
  have halloc := h.editing.alloc
  rw [hinum] at halloc
  have hview : St.view sb { t with env := t.env.setDin ip { (t.env.itable ip).din with size := z } } ip =
      (t.view sb ip).setIno (s.env.itable ip).inum { (t.view sb ip).ino (s.env.itable ip).inum with size := z } := by
    rw [← hinum,St.view_ino_self,St.view,Env.setDin_itable_self,St.view,Image.setIno_setIno]
    rfl
  have hedits := Image.edits_size (P := fun _ => False) h.editing.edits.own halloc z
  rw [← hview] at hedits
  have hop : InOp sb o k { t with env := t.env.setDin ip { (t.env.itable ip).din with size := z } } :=
    h.editing.op.congr rfl rfl
  refine (iupdate_wp hop ?_ hX).imp ?_
  · rw [Env.setDin_itable_self]
    exact hinum ▸ halloc.2.1
  rintro ⟨⟩ u ⟨hop,henv,himage⟩
  rw [← himage] at hedits hview
  have hall := h.editing.edits.trans (hedits.mono fun _ hx => hx.elim)
  have hmap : ∀ x, off ≤ x → x < off + r.1 → (u.image sb).addr (s.env.itable ip).inum (x / BSIZE) ≠ 0 := by
    intro x h₁ h₂
    have hm := h.mapped x h₁ h₂
    rwa [hedits.addr _ hm]
  have hsize : (u.image sb).size (s.env.itable ip).inum =
      max ((s.view sb ip).size (s.env.itable ip).inum) (off + r.1) := by
    rw [Image.size,hview,Image.setIno_ino,Function.update_self,← hr]
    exact hz
  refine ⟨hop.mono (Nat.zero_le _),?_,hall,h.le,hall.noHole hh hoff hmap hsize,hsize,?_,?_,h.stop⟩
  · rw [henv]
    have hino : (u.image sb).ino (s.env.itable ip).inum = { (t.env.itable ip).din with size := z } := by
      rw [hview,Image.setIno_ino,Function.update_self,← hinum,St.view_ino_self]
    rw [hino]
    change t.env.setDin ip _ = _
    rw [h.editing.env,Env.setDin_setDin]
  · intro hacc j hj
    rw [← h.bytes hacc j hj]
    exact hedits.bytes _ not_false (h.mapped _ (by omega) (by omega))
  · intro hacc hlt c hc
    rw [hview]
    exact hfull hacc hlt c hc

theorem Writing.wp_end {Q : Option ℕ → St → Prop} {r : ℕ × ℕ} (h : Writing sb p o k ip src off n s r.1 t)
    (hr : r.2 = off + r.1) (hX : 1 ≤ k ∨ X (.panic .tooBigTransaction)) (hh : (s.view sb ip).NoHole sb)
    (hoff : off ≤ (s.view sb ip).size (s.env.itable ip).inum) (hmax : off + n ≤ MAXFILE * BSIZE)
    (hfull : src.Accessible (s.env.proc p).mem n → r.1 < n → t.Full sb)
    (hQ : ∀ u, Wrote sb p o ip src off n s r.1 u → Q (some r.1) u) :
    (do
      let i : Inode ← env (.inode ip)
      if i.din.size.toNat < r.2 then
        setDin ip { i.din with size := BitVec.ofNat 32 r.2 }
      else pure ()
      iupdate sb ip
      pure (some r.1) : Code ℕ (Option ℕ)).wp (St.exec p) X Q t := by
  have hsize : (t.env.itable ip).din.size.toNat = (s.view sb ip).size (s.env.itable ip).inum := by
    rw [St.view_size sb s ip,h.editing.size]
  have hpost : ∀ u, Wrote sb p o ip src off n s r.1 u →
      (pure (some r.1) : Code ℕ (Option ℕ)).wp (St.exec p) X Q u := by
    intro u hu
    rw [wp_pure]
    exact hQ u hu
  have hle := h.le
  rw [bind_eq,wp_inode]
  dsimp only
  split
  · rename_i hlt
    rw [bind_eq,wp_setDin,bind_eq]
    refine (h.finish hr hX hh hoff hfull ?_).seq fun _ u hu => hpost u hu
    rw [BitVec.toNat_ofNat,Nat.mod_eq_of_lt (by simp only [BSIZE,MAXFILE] at *; omega)]
    omega
  · rename_i hlt
    have hfin := h.finish (X := X) (z := (t.env.itable ip).din.size) hr hX hh hoff hfull (by omega)
    rw [Env.setDin_self] at hfin
    rw [bind_eq]
    exact hfin.seq fun _ u hu => hpost u hu

theorem Writing.start (h : InOp sb o k s) (ho : (s.view sb ip).Own sb)
    (ha : (s.view sb ip).Alloc sb (s.env.itable ip).inum) : Writing sb p o k ip src off n s 0 s :=
  ⟨.refl h ho ha,Nat.zero_le _,fun x _ _ => by omega,fun _ j hj => absurd hj (Nat.not_lt_zero j),.inr (.inl rfl)⟩

theorem writei_bad {Q : Option ℕ → St → Prop} (hbad : (s.view sb ip).BadWrite (s.env.itable ip).inum off n)
    (hoff : off < 2 ^ 32) (hn : n < 2 ^ 32) (hQ : Q none s) :
    (writei sb ip src off n : Code ℕ (Option ℕ)).wp (St.exec p) X Q s := by
  rw [writei,bind_eq,wp_inode,← St.view_size sb s ip]
  split
  · rwa [wp_pure]
  · rename_i h
    unfold Image.BadWrite at hbad
    rwa [if_pos (by simp only [BSIZE,MAXFILE] at *; omega),wp_pure]

theorem writei_wp (h : InOp sb o k s)
    (hX : blocksLogged (sb.size / BPB + 1) 1 off n ≤ k ∨ X (.panic .tooBigTransaction))
    (ho : (s.view sb ip).Own sb) (hh : (s.view sb ip).NoHole sb)
    (ha : (s.view sb ip).Alloc sb (s.env.itable ip).inum) (hoff : off < 2 ^ 32) (hn : n < 2 ^ 32) :
    (writei sb ip src off n : Code ℕ (Option ℕ)).wp (St.exec p) X (Writei sb p o ip src off n s) s := by
  by_cases hbad : (s.view sb ip).BadWrite (s.env.itable ip).inum off n
  · exact writei_bad hbad hoff hn (.inl ⟨hbad,rfl,rfl⟩)
  · have hok := hbad
    unfold Image.BadWrite at hok
    have hsize := St.view_size sb s ip
    rw [writei,bind_eq,wp_inode,← hsize,if_neg (by omega),if_neg (by simp only [BSIZE,MAXFILE] at *; omega),bind_eq]
    have hfirst : BSIZE ∣ off ∨ (s.view sb ip).addr (s.env.itable ip).inum (off / BSIZE) ≠ 0 := by
      by_cases hdvd : BSIZE ∣ off
      · exact .inl hdvd
      · refine .inr (hh _ _ ha ?_)
        simp only [BSIZE] at *
        omega
    have hroom : Writing.Room sb ip X k off n s :=
      hX.imp_left (Nat.le_trans (blocksLogged_mono St.unloggedMaps_le_nbitmap St.unloggedIndirect_le))
    refine (writeiLoop_wp n (.start h ho ha) hroom hfirst (Nat.le_add_left _ _) (by omega)).seq ?_
    rintro r t ⟨hr,⟨k',hX',hw⟩,hfull⟩
    exact hw.wp_end hr hX' hh (by omega) (by omega) hfull fun u hu => .inr ⟨hbad,r.1,rfl,hu⟩

/-! ## The content of an inode as a byte array -/

theorem Wrote.content {tot : ℕ} (h : Wrote sb p o ip src off n s tot t)
    (hh : (s.view sb ip).NoHole sb) (hoff : off ≤ (s.view sb ip).size (s.env.itable ip).inum)
    (hacc : src.Accessible (s.env.proc p).mem n) :
    (t.image sb).content (s.env.itable ip).inum =
      ((s.view sb ip).content (s.env.itable ip).inum).take off ++
        ((List.range tot).map fun j => src.byte (s.env.proc p).mem j) ++
          ((s.view sb ip).content (s.env.itable ip).inum).drop (off + tot) := by
  have hlen (m : Image) (i : ℕ) : (m.content i).length = m.size i := Image.bytesAt_length
  apply List.ext_getElem
  · simp only [List.length_append,List.length_take,List.length_drop,List.length_map,List.length_range,hlen,h.size]
    omega
  · intro x h₁ h₂
    rw [hlen,h.size] at h₁
    have hget (m : Image) (i : ℕ) (hx : x < (m.content i).length) : (m.content i)[x] = m.byteAt i x := by
      simp [Image.content,Image.bytesAt]
    -- an old byte outside the range lies in a mapped block
    have hold (hx : x < off ∨ off + tot ≤ x) (hlt : x < (s.view sb ip).size (s.env.itable ip).inum) :
        (t.image sb).byteAt (s.env.itable ip).inum x = (s.view sb ip).byteAt (s.env.itable ip).inum x := by
      refine h.edits.bytes x ?_ (hh _ _ h.edits.alloc ?_)
      · rintro ⟨h₃,h₄ | h₄⟩
        · omega
        · exact h₄.2 hacc
      · have := Nat.div_mul_le_self x BSIZE
        omega
    rw [hget _ _ (by rw [hlen,h.size]; exact h₁)]
    by_cases hx : x < off
    · rw [List.getElem_append_left (by simp [hlen]; omega),List.getElem_append_left (by simp [hlen]; omega),
        List.getElem_take,hget,hold (.inl hx) (by omega)]
    · by_cases hx' : x < off + tot
      · rw [List.getElem_append_left (by simp [hlen]; omega),List.getElem_append_right (by simp [hlen]; omega)]
        have hb := h.bytes hacc (x - off) (by omega)
        rw [Nat.add_sub_cancel' (Nat.not_lt.mp hx)] at hb
        rw [hb]
        simp only [List.getElem_map,List.getElem_range,List.length_take,hlen]
        congr 1
        omega
      · rw [List.getElem_append_right (by simp [hlen]; omega),List.getElem_drop]
        simp only [List.length_append,List.length_take,List.length_map,List.length_range,hlen]
        rw [hold (.inr (by omega)) (by omega)]
        simp only [Image.content,Image.bytesAt,List.getElem_map,List.getElem_range]
        congr 1
        omega

theorem Wrote.content_other {tot j : ℕ} (h : Wrote sb p o ip src off n s tot t)
    (hh : (s.view sb ip).NoHole sb) (hj : (s.view sb ip).Alloc sb j) (hji : j ≠ (s.env.itable ip).inum) :
    (t.image sb).content j = (s.view sb ip).content j := by
  rw [Image.content,Image.content,h.edits.size_ne hji]
  refine List.map_congr_left fun x hx => ?_
  refine h.edits.byteAt_other hj hji (hh j _ hj ?_)
  have := Nat.div_mul_le_self (0 + x) BSIZE
  have := List.mem_range.mp hx
  omega

theorem Image.readBytes_eq (m : Image) (i off n : ℕ) : m.readBytes i off n =
    if m.size i < off ∨ 2 ^ 32 ≤ off + n then []
    else ((m.content i).drop off).take (min (off + n) (m.size i) - off) := by
  unfold Image.readBytes
  split
  · rfl
  · rw [Image.content_slice (by omega)]

theorem readi_run (ho : (s.image sb).Own sb) (hh : (s.image sb).NoHole sb)
    (hvalid : (s.env.itable ip).din = (s.image sb).ino (s.env.itable ip).inum)
    (ha : (s.image sb).Alloc sb (s.env.itable ip).inum) (hoff : off < 2 ^ 32) (hn : n < 2 ^ 32)
    (hacc : dst.Accessible (s.env.proc p).mem n) {bytes : List Byte}
    (hb : bytes = (s.image sb).readBytes (s.env.itable ip).inum off n) :
    (readi sb ip dst off n).run (St.exec p) s =
      .ok ((some bytes.length,bytes),s.setMem p (dst.put (s.env.proc p).mem 0 bytes)) := by
  have hview := St.view_eq_image hvalid
  have hwp : (readi sb ip dst off n : Code ℕ (Option ℕ × List Byte)).wp (St.exec p) (fun _ => False)
      (Delivered p dst ((s.view sb ip).readBytes (s.env.itable ip).inum off n) s) s := by
    rw [← hview] at ho hh ha
    exact readi_wp ho hh ha hoff hn
  rw [hview,← hb] at hwp
  obtain ⟨r,t,hr,u,rfl,hu⟩ | ⟨e,-,he⟩ := hwp.run
  · have hlen : bytes.length ≤ n := by
      rw [hb,Image.readBytes]
      split
      · exact Nat.zero_le _
      · rw [Image.bytesAt_length]
        omega
    obtain ⟨rfl,rfl⟩ := hu (hacc.le hlen)
    exact hr
  · exact he.elim

/-- `readi` and `writei` read and replace ranges of the inode's content and touch no other inode. -/
theorem content_refines_bytes (sb : Superblock) (p : Pid) (s : St) (ip : Fin NINODE) (off n : ℕ)
    (hown : (s.image sb).Own sb) (hhole : (s.image sb).NoHole sb)
    (hvalid : (s.env.itable ip).din = (s.image sb).ino (s.env.itable ip).inum)
    (halloc : (s.image sb).Alloc sb (s.env.itable ip).inum) (hoff : off < 2 ^ 32) (hn : n < 2 ^ 32) :
    (∀ dst : Dst, dst.Accessible (s.env.proc p).mem n → ∃ bytes,
      bytes = (if (s.image sb).size (s.env.itable ip).inum < off ∨ 2 ^ 32 ≤ off + n then []
        else (((s.image sb).content (s.env.itable ip).inum).drop off).take
          (min (off + n) ((s.image sb).size (s.env.itable ip).inum) - off)) ∧
      (readi sb ip dst off n).run (St.exec p) s =
        .ok ((some bytes.length,bytes),s.setMem p (dst.put (s.env.proc p).mem 0 bytes))) ∧
    (∀ (src : Src) (o : ℤ) (k : ℕ), src.Accessible (s.env.proc p).mem n → InOp sb o k s →
      ((s.image sb).BadWrite (s.env.itable ip).inum off n →
        (writei sb ip src off n).run (St.exec p) s = .ok (none,s)) ∧
      (¬(s.image sb).BadWrite (s.env.itable ip).inum off n →
        (writei sb ip src off n).run (St.exec p) s = .error (.panic .tooBigTransaction) ∧
          k < blocksLogged (sb.size / BPB + 1) 1 off n ∨
        ∃ r t, (writei sb ip src off n).run (St.exec p) s = .ok (some r,t) ∧ r ≤ n ∧
          (r < n → ∀ c, c < sb.size → (t.image sb).used c = true) ∧
          (t.image sb).content (s.env.itable ip).inum =
            ((s.image sb).content (s.env.itable ip).inum).take off ++
              ((List.range r).map fun j => src.byte (s.env.proc p).mem j) ++
                ((s.image sb).content (s.env.itable ip).inum).drop (off + r) ∧
          (t.image sb).size (s.env.itable ip).inum = max ((s.image sb).size (s.env.itable ip).inum) (off + r) ∧
          (∀ j, (s.image sb).Alloc sb j → j ≠ (s.env.itable ip).inum →
            (t.image sb).content j = (s.image sb).content j ∧ (t.image sb).size j = (s.image sb).size j) ∧
          (r = n → ∀ dst : Dst, dst.Accessible (s.env.proc p).mem n →
            (readi sb ip dst off n).run (St.exec p) t =
              .ok ((some n,(List.range n).map fun j => src.byte (s.env.proc p).mem j),
                t.setMem p (dst.put (s.env.proc p).mem 0
                  ((List.range n).map fun j => src.byte (s.env.proc p).mem j)))))) := by
  refine ⟨fun dst hacc => ⟨_,rfl,?_⟩,fun src o k hacc hop => ?_⟩
  · exact readi_run hown hhole hvalid halloc hoff hn hacc (Image.readBytes_eq _ _ _ _).symm
  have hview := St.view_eq_image hvalid
  rw [← hview] at hown hhole halloc ⊢
  constructor
  · intro hbad
    have hwp : (writei sb ip src off n : Code ℕ (Option ℕ)).wp (St.exec p) (fun _ => False)
        (fun r t => r = none ∧ t = s) s := writei_bad hbad hoff hn ⟨rfl,rfl⟩
    obtain ⟨r,t,hr,rfl,rfl⟩ | ⟨e,-,he⟩ := hwp.run
    · exact hr
    · exact he.elim
  intro hbad
  have hwp : (writei sb ip src off n : Code ℕ (Option ℕ)).wp (St.exec p)
      (fun e => e = .panic .tooBigTransaction ∧ k < blocksLogged (sb.size / BPB + 1) 1 off n) (Writei sb p o ip src off n s) s := by
    refine writei_wp hop ?_ hown hhole halloc hoff hn
    by_cases hk : blocksLogged (sb.size / BPB + 1) 1 off n ≤ k
    · exact .inl hk
    · exact .inr ⟨rfl,by omega⟩
  obtain ⟨r,t,hr,hpost⟩ | ⟨e,hr,rfl,hk⟩ := hwp.run
  · obtain ⟨hbad',-,-⟩ | ⟨-,tot,rfl,hw⟩ := hpost
    · exact absurd hbad' hbad
    unfold Image.BadWrite at hbad
    have hcontent := hw.content hhole (by omega) hacc
    refine .inr ⟨tot,t,hr,hw.le,hw.full hacc,hcontent,hw.size,
      fun j hj hji => ⟨hw.content_other hhole hj hji,hw.edits.size_ne hji⟩,?_⟩
    rintro rfl dst hdst
    have hinum : (t.env.itable ip).inum = (s.env.itable ip).inum := by
      rw [hw.env,Env.setDin_itable_self]
    have hvalid' : (t.env.itable ip).din = (t.image sb).ino (t.env.itable ip).inum := by
      rw [hinum]
      nth_rewrite 1 [hw.env]
      rw [Env.setDin_itable_self]
    have hmem : t.env.proc = s.env.proc := by
      rw [hw.env]
      rfl
    have halloc' : (t.image sb).Alloc sb (t.env.itable ip).inum := by
      rw [hinum,hw.edits.alloc_iff]
      exact halloc
    have hbytes : ((List.range tot).map fun j => src.byte (s.env.proc p).mem j) =
        (t.image sb).readBytes (t.env.itable ip).inum off tot := by
      have hsize := hw.size
      rw [hinum,Image.readBytes,if_neg (by omega),show min (off + tot)
        ((t.image sb).size (s.env.itable ip).inum) - off = tot by omega]
      exact List.map_congr_left fun j hj => (hw.bytes hacc j (List.mem_range.mp hj)).symm
    have hread := readi_run (p := p) hw.edits.own hw.noHole hvalid' halloc' hoff hn (hmem ▸ hdst) hbytes
    rwa [List.length_map,List.length_range,hmem] at hread
  · exact .inl ⟨hr,hk⟩

end

def Sample.begun : St := { Sample.state with log := { Sample.state.log with outstanding := 1 } }

theorem Sample.begun_inOp : InOp Sample.super 1 MAXOPBLOCKS Sample.begun where
  start := rfl
  size := rfl
  pos := by decide
  outstanding := rfl
  committing := rfl
  fits := ⟨by decide,List.nodup_nil,fun _ hb => (nomatch hb),fun _ hb => (nomatch hb)⟩
  clear := by decide +kernel
  room := by decide

/-- Three blocks are written from the middle of the first one on, two of them new, and read back. -/
theorem content_refines_bytes_blocks : ∃ t u,
    (writei Sample.super 0 (.kernel (List.replicate 3000 7)) 40 3000).run (St.exec 0) Sample.begun = .ok (some 3000,t) ∧
      (t.image Sample.super).size 1 = 3040 ∧
      (readi Sample.super 0 .kernel 40 3000).run (St.exec 0) t = .ok ((some 3000,List.replicate 3000 7),u) := by
  have himage : Sample.begun.image Sample.super = Sample.image := Sample.state_image
  have hwritei := (content_refines_bytes Sample.super 0 Sample.begun 0 40 3000 (himage ▸ Sample.own) (himage ▸ Sample.noHole)
    (by rw [himage]; rfl) (by rw [himage]; decide) (by decide) (by decide)).2 (.kernel (List.replicate 3000 7)) 1 _
    (by rw [Src.Accessible,List.length_replicate]) Sample.begun_inOp
  rcases hwritei.2 (by rw [himage]; unfold Image.BadWrite; decide) with ⟨-,hk⟩ | ⟨r,t,hr,-,-,-,hsize,-,hback⟩
  · exact absurd hk (Nat.not_lt.mpr (blocksLogged_chunk (by decide)))
  have hrun : ((writei Sample.super 0 (.kernel (List.replicate 3000 7)) 40 3000).run (St.exec 0) Sample.begun).toOption.map
      Prod.fst = some (some 3000) := by decide +kernel
  rw [hr] at hrun
  cases hrun
  have hbytes : ((List.range 3000).map fun j => Src.byte (Sample.begun.env.proc 0).mem j (.kernel (List.replicate 3000 7))) =
      List.replicate 3000 7 := by
    refine List.eq_replicate_iff.mpr ⟨by rw [List.length_map,List.length_range],fun b hb => ?_⟩
    obtain ⟨j,hj,rfl⟩ := List.mem_map.mp hb
    exact List.getD_replicate _ (List.mem_range.mp hj)
  have hread := hback rfl .kernel trivial
  rw [hbytes] at hread
  refine ⟨t,_,hr,?_,hread⟩
  rw [himage] at hsize
  exact hsize

end Xv6
