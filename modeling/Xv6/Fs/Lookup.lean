import Xv6.Fs.Path
import Xv6.Fs.Content

/-! # Path lookup

What `dirlookup` and `namex` compute, in a directory tree that nobody else is changing:
the inode that the elements of the path lead to. The state in the middle of a lookup is
the one it started from with some references more, at most one inode locked, and inodes
read in from the disk.
-/
namespace Xv6
open Library Prog
open Function (update_of_ne update_self)

/-! ## Directories -/

namespace Image
variable (m : Image)

def entry (d k : ℕ) : Dirent := Dirent.ofBytes (m.bytesAt d (16 * k) 16)

def Matches (d : ℕ) (name : List Byte) (k : ℕ) : Prop :=
  (m.entry d k).inum ≠ 0 ∧ namecmp name (m.entry d k).name = 0

instance (d : ℕ) (name : List Byte) (k : ℕ) : Decidable (m.Matches d name k) :=
  inferInstanceAs (Decidable (_ ∧ _))

def find (d : ℕ) (name : List Byte) : Option ℕ :=
  (List.range (m.size d / 16)).find? fun k => decide (m.Matches d name k)

def lookup (d : ℕ) (name : List Byte) : Option ℕ := (m.find d name).map fun k => (m.entry d k).inum.toNat

def IsDir (d : ℕ) : Prop := (m.ino d).type = T_DIR

instance (d : ℕ) : Decidable (m.IsDir d) := inferInstanceAs (Decidable (_ = _))

/-- The inode reached from `d` by looking up one name after the other. -/
def walk : ℕ → List (List Byte) → Option ℕ
  | d, [] => some d
  | d, name :: rest => if m.IsDir d then (m.lookup d name).bind fun x => walk x rest else none

def walkParent (d : ℕ) (names : List (List Byte)) : Option (ℕ × List Byte) :=
  match names.getLast? with
  | none => none
  | some name => ((m.walk d names.dropLast).filter fun x => m.IsDir x).map fun x => (x,name)

/-- What `namex` looks for: the inode of the path, or the parent directory and the last name. -/
def resolve (nameiparent : Bool) : ℕ → List (List Byte) → Option (ℕ × List Byte)
  | d, [] => if nameiparent then none else some (d,[])
  | d, name :: rest =>
    if m.IsDir d then
      if nameiparent ∧ rest.isEmpty then some (d,name)
      else (m.lookup d name).bind fun x => resolve nameiparent x rest
    else none

/-- A tree of directories: entries name inodes that are allocated and have links. -/
structure Consistent (sb : Superblock) : Prop where
  own : m.Own sb
  noHole : m.NoHole sb
  root : m.Alloc sb ROOTINO ∧ (m.ino ROOTINO).nlink ≠ 0
  size : ∀ d, m.Alloc sb d → m.IsDir d → 16 ∣ m.size d
  live : ∀ d k, m.Alloc sb d → m.IsDir d → k < m.size d / 16 → (m.entry d k).inum ≠ 0 →
    m.Alloc sb (m.entry d k).inum.toNat ∧ (m.ino (m.entry d k).inum.toNat).nlink ≠ 0

variable {m} {sb : Superblock} {d x : ℕ} {name : List Byte}

theorem resolve_namei (d : ℕ) (names : List (List Byte)) :
    m.resolve false d names = (m.walk d names).map fun x => (x,[]) := by
  induction names generalizing d with
  | nil => rfl
  | cons name rest ih =>
    rw [resolve,walk]
    split
    · rw [if_neg (by simp),Option.map_bind]
      exact congrArg _ (funext ih)
    · rfl

theorem resolve_nameiparent (d : ℕ) (names : List (List Byte)) : m.resolve true d names = m.walkParent d names := by
  induction names generalizing d with
  | nil => rfl
  | cons name rest ih =>
    rw [resolve]
    cases rest with
    | nil =>
      by_cases hd : m.IsDir d
      · simp [walkParent,walk,hd]
      · simp [walkParent,walk,hd]
    | cons r rest =>
      rw [walkParent,List.getLast?_cons_cons,List.dropLast_cons_cons,walk]
      split
      · rw [if_neg (by simp),funext ih]
        unfold walkParent
        cases (r :: rest).getLast? with
        | none => simp
        | some last =>
          cases m.lookup d name with
          | none => rfl
          | some x => rfl
      · cases (r :: rest).getLast? with
        | none => rfl
        | some last => rfl

theorem find_eq_some {k : ℕ} (h : m.find d name = some k) :
    k < m.size d / 16 ∧ m.Matches d name k ∧ ∀ j, j < k → ¬m.Matches d name j := by
  unfold find at h
  have hmem := List.mem_range.mp (List.mem_of_find?_eq_some h)
  have hp := List.find?_some h
  refine ⟨hmem,by simpa using hp,fun j hj hm => ?_⟩
  obtain ⟨-,as,bs,hsplit,has⟩ := List.find?_eq_some_iff_append.mp h
  have hlen : as.length = k := by
    have hk : (List.range (m.size d / 16))[as.length]? = some k := by
      rw [hsplit]
      simp
    obtain ⟨hlt,he⟩ := List.getElem?_eq_some_iff.mp hk
    rwa [List.getElem_range] at he
  have hj' : (List.range (m.size d / 16))[j]? = as[j]? := by
    rw [hsplit,List.getElem?_append_left (by omega)]
  have hlt : j < as.length := by omega
  rw [List.getElem?_range (by omega),List.getElem?_eq_getElem hlt] at hj'
  have := has _ (List.getElem_mem hlt)
  rw [← Option.some.inj hj'] at this
  simp [hm] at this

theorem find_eq_none (h : m.find d name = none) : ∀ k, k < m.size d / 16 → ¬m.Matches d name k := by
  intro k hk hm
  have := List.find?_eq_none.mp h k (List.mem_range.mpr hk)
  simp [hm] at this

theorem Consistent.lookup (h : m.Consistent sb) (hd : m.Alloc sb d) (hdir : m.IsDir d)
    (hx : m.lookup d name = some x) : m.Alloc sb x ∧ (m.ino x).nlink ≠ 0 := by
  obtain ⟨k,hk,rfl⟩ := Option.map_eq_some_iff.mp hx
  obtain ⟨hlt,hm,-⟩ := find_eq_some hk
  exact h.live d k hd hdir hlt hm.1

end Image

/-! ## The inode table during a lookup -/

theorem Env.setInode_self (e : Env) (ip : Fin NINODE) (i : Inode) : (e.setInode ip i).itable ip = i :=
  update_self _ _ _

theorem Env.setInode_inum {e : Env} {ip : Fin NINODE} {i : Inode} (h : i.inum = (e.itable ip).inum) (jp : Fin NINODE) :
    ((e.setInode ip i).itable jp).inum = (e.itable jp).inum := by
  by_cases hj : jp = ip
  · subst hj
    rw [setInode_self,h]
  · exact congrArg Inode.inum (update_of_ne hj _ _)

/-- The inodes in memory agree with the disk, and no inode is there twice. -/
structure Coherent (sb : Superblock) (s : St) : Prop where
  dev : ∀ ip, 0 < (s.env.itable ip).ref → (s.env.itable ip).dev = ROOTDEV
  alloc : ∀ ip, 0 < (s.env.itable ip).ref → (s.image sb).Alloc sb (s.env.itable ip).inum
  valid : ∀ ip, 0 < (s.env.itable ip).ref → (s.env.itable ip).valid = true →
    (s.env.itable ip).din = (s.image sb).ino (s.env.itable ip).inum
  inj : ∀ ip jp, 0 < (s.env.itable ip).ref → 0 < (s.env.itable jp).ref →
    (s.env.itable ip).inum = (s.env.itable jp).inum → ip = jp

/-- `t` is `s` with `h ip` references more to each inode and with `l` locked. -/
structure Walked (sb : Superblock) (p : Pid) (s : St) (h : Fin NINODE → ℕ) (l : Option (Fin NINODE)) (t : St) : Prop where
  frame : t = { s with env := { s.env with itable := t.env.itable } }
  ref : ∀ ip, (t.env.itable ip).ref = (s.env.itable ip).ref + h ip
  lock : ∀ ip, (t.env.itable ip).lock = if l = some ip then some p else (s.env.itable ip).lock
  same : ∀ ip, 0 < (s.env.itable ip).ref →
    (t.env.itable ip).dev = (s.env.itable ip).dev ∧ (t.env.itable ip).inum = (s.env.itable ip).inum
  coherent : Coherent sb t

section
variable {sb : Superblock} {p : Pid} {X : Halt → Prop} {s t : St} {h h' : Fin NINODE → ℕ}
variable {l l' : Option (Fin NINODE)} {ip : Fin NINODE} {inum : ℕ}

theorem Walked.refl (hs : Coherent sb s) : Walked sb p s 0 none s :=
  ⟨rfl,fun _ => rfl,fun _ => by simp,fun _ _ => ⟨rfl,rfl⟩,hs⟩

theorem Walked.image (hw : Walked sb p s h l t) : t.image sb = s.image sb := by
  rw [hw.frame]
  rfl

theorem Walked.set {i : Inode} (hw : Walked sb p s h l t) (href : i.ref = (s.env.itable ip).ref + h' ip)
    (hh : ∀ jp, jp ≠ ip → h' jp = h jp) (hlock : i.lock = if l' = some ip then some p else (s.env.itable ip).lock)
    (hl : ∀ jp, jp ≠ ip → (l' = some jp ↔ l = some jp))
    (hsame : 0 < (s.env.itable ip).ref → i.dev = (t.env.itable ip).dev ∧ i.inum = (t.env.itable ip).inum)
    (hdev : 0 < i.ref → i.dev = ROOTDEV) (halloc : 0 < i.ref → (s.image sb).Alloc sb i.inum)
    (hvalid : 0 < i.ref → i.valid = true → i.din = (s.image sb).ino i.inum)
    (hinj : 0 < i.ref → ∀ jp, jp ≠ ip → 0 < (t.env.itable jp).ref → (t.env.itable jp).inum ≠ i.inum) :
    Walked sb p s h' l' { t with env := t.env.setInode ip i } := by
  have hself := Env.setInode_self t.env ip i
  have hother : ∀ jp, jp ≠ ip → (t.env.setInode ip i).itable jp = t.env.itable jp :=
    fun jp hj => update_of_ne hj _ _
  have himage : St.image sb { t with env := t.env.setInode ip i } = s.image sb := hw.image
  refine ⟨?_,?_,?_,?_,⟨?_,?_,?_,?_⟩⟩
  · rw [hw.frame]
    rfl
  · intro jp
    by_cases hj : jp = ip
    · subst hj
      rw [hself,href]
    · rw [hother jp hj,hw.ref,hh jp hj]
  · intro jp
    by_cases hj : jp = ip
    · subst hj
      rw [hself,hlock]
    · rw [hother jp hj,hw.lock]
      simp only [hl jp hj]
  · intro jp hr
    by_cases hj : jp = ip
    · subst hj
      obtain ⟨h₁,h₂⟩ := hw.same jp hr
      obtain ⟨h₃,h₄⟩ := hsame hr
      rw [hself,h₃,h₄]
      exact ⟨h₁,h₂⟩
    · rw [hother jp hj]
      exact hw.same jp hr
  · intro jp
    by_cases hj : jp = ip
    · subst hj
      rw [hself]
      exact hdev
    · rw [hother jp hj]
      exact hw.coherent.dev jp
  · intro jp
    rw [himage]
    by_cases hj : jp = ip
    · subst hj
      rw [hself]
      exact halloc
    · rw [hother jp hj,← hw.image]
      exact hw.coherent.alloc jp
  · intro jp
    rw [himage]
    by_cases hj : jp = ip
    · subst hj
      rw [hself]
      exact hvalid
    · rw [hother jp hj,← hw.image]
      exact hw.coherent.valid jp
  · intro jp kp
    by_cases hj : jp = ip <;> by_cases hk : kp = ip
    · intros
      rw [hj,hk]
    · subst hj
      rw [hself,hother kp hk]
      exact fun h₁ h₂ he => absurd he.symm (hinj h₁ kp hk h₂)
    · subst hk
      rw [hself,hother jp hj]
      exact fun h₁ h₂ he => absurd he (hinj h₂ jp hj h₁)
    · rw [hother jp hj,hother kp hk]
      exact hw.coherent.inj jp kp

theorem Walked.modify {i : Inode} (hw : Walked sb p s h l t) (hpos : 0 < (t.env.itable ip).ref)
    (hid : i.dev = (t.env.itable ip).dev ∧ i.inum = (t.env.itable ip).inum)
    (hvalid : i.valid = true → i.din = (s.image sb).ino i.inum)
    (href : i.ref = (s.env.itable ip).ref + h' ip) (hh : ∀ jp, jp ≠ ip → h' jp = h jp)
    (hlock : i.lock = if l' = some ip then some p else (s.env.itable ip).lock)
    (hl : ∀ jp, jp ≠ ip → (l' = some jp ↔ l = some jp)) :
    Walked sb p s h' l' { t with env := t.env.setInode ip i } := by
  refine hw.set href hh hlock hl (fun _ => hid) (fun _ => ?_) (fun _ => ?_) (fun _ => hvalid) fun _ jp hj hr he => ?_
  · rw [hid.1]
    exact hw.coherent.dev ip hpos
  · rw [hid.2,← hw.image]
    exact hw.coherent.alloc ip hpos
  · rw [hid.2] at he
    exact hj (hw.coherent.inj jp ip hr hpos he)

theorem Walked.valid (hw : Walked sb p s h l t) (hpos : 0 < (t.env.itable ip).ref)
    (hv : (t.env.itable ip).valid = true) : (t.env.itable ip).din = (s.image sb).ino (t.env.itable ip).inum := by
  rw [← hw.image]
  exact hw.coherent.valid ip hpos hv

theorem iget_wp {Q : Fin NINODE → St → Prop} (hw : Walked sb p s h l t) (ha : (s.image sb).Alloc sb inum)
    (hX : (∀ ip, 0 < (t.env.itable ip).ref) → X (.panic .igetNoInodes))
    (hQ : ∀ ip t', Walked sb p s (h + Pi.single ip 1) l t' → (t'.env.itable ip).inum = inum →
      (∀ jp, 0 < (t.env.itable jp).ref → (t'.env.itable jp).inum = (t.env.itable jp).inum) → Q ip t') :
    (env (.iget ROOTDEV inum) : Code ℕ (Fin NINODE)).wp (St.exec p) X Q t := by
  have hother (ip jp : Fin NINODE) (i : Inode) (hj : jp ≠ ip) : (t.env.setInode ip i).itable jp = t.env.itable jp :=
    update_of_ne hj _ _
  have hsum (ip : Fin NINODE) : (h + Pi.single ip 1 : Fin NINODE → ℕ) ip = h ip + 1 := by simp
  have hrest (ip jp : Fin NINODE) (hj : jp ≠ ip) : (h + Pi.single ip 1 : Fin NINODE → ℕ) jp = h jp := by simp [hj]
  have hexec : EnvOp.exec p (.iget ROOTDEV inum) t.env = (t.env.iget ROOTDEV inum).mapError .panic := rfl
  rw [Env.iget] at hexec
  split at hexec
  · rename_i ip hfind
    have hp := List.find?_some hfind
    simp only [decide_eq_true_eq] at hp
    obtain ⟨hpos,-,hinum⟩ := hp
    refine (wp_env_last hexec).mpr (hQ ip _ (hw.modify hpos ⟨rfl,rfl⟩ (fun hv => hw.valid hpos hv) ?_
      (hrest ip) (hw.lock ip) fun _ _ => Iff.rfl) ?_ ?_)
    · rw [hsum,← Nat.add_assoc,← hw.ref]
    · rw [Env.setInode_self]
      exact hinum
    · intro jp _
      by_cases hj : jp = ip
      · subst hj
        rw [Env.setInode_self]
      · rw [hother ip jp _ hj]
  · rename_i hnone
    have habsent : ∀ jp, 0 < (t.env.itable jp).ref → (t.env.itable jp).inum ≠ inum := by
      intro jp hpos he
      have := List.find?_eq_none.mp hnone jp (List.mem_finRange jp)
      simp only [decide_eq_true_eq] at this
      exact this ⟨hpos,hw.coherent.dev jp hpos,he⟩
    split at hexec
    · rename_i ip hfind
      have hzero : (t.env.itable ip).ref = 0 := by simpa using List.find?_some hfind
      have hsplit := hw.ref ip
      refine (wp_env_last hexec).mpr (hQ ip _ (hw.set ?_ (hrest ip) (hw.lock ip) (fun _ _ => Iff.rfl) (fun hs => ?_)
        (fun _ => rfl) (fun _ => ha) (fun _ hv => ?_) fun _ jp _ hr => habsent jp hr) ?_ ?_)
      · rw [hsum]
        change 1 = _
        omega
      · omega
      · cases hv
      · rw [Env.setInode_self]
      · intro jp hr
        have hj : jp ≠ ip := by
          rintro rfl
          omega
        rw [hother ip jp _ hj]
    · rename_i hfull
      have hX' := hX fun ip => by
        have := List.find?_eq_none.mp hfull ip (List.mem_finRange ip)
        simp only [decide_eq_true_eq] at this
        omega
      exact (Prog.wp_op_error (o := Op.env (.iget ROOTDEV inum)) (by simp only [St.exec,hexec]; rfl)).mpr hX'

theorem idup_wp {Q : Unit → St → Prop} (hw : Walked sb p s h l t) (hpos : 0 < (t.env.itable ip).ref)
    (hQ : ∀ t', Walked sb p s (h + Pi.single ip 1) l t' → (t'.env.itable ip).inum = (t.env.itable ip).inum → Q () t') :
    (env (.idup ip) : Code ℕ Unit).wp (St.exec p) X Q t := by
  have hexec : EnvOp.exec p (.idup ip) t.env =
      .ok ((),t.env.setInode ip { t.env.itable ip with ref := (t.env.itable ip).ref + 1 }) := rfl
  refine (wp_env_last hexec).mpr (hQ _ (hw.modify hpos ⟨rfl,rfl⟩ (fun hv => hw.valid hpos hv) ?_
    (fun jp hj => by simp [hj]) (hw.lock ip) fun _ _ => Iff.rfl) ?_)
  · rw [Pi.add_apply,Pi.single_eq_same,← Nat.add_assoc,← hw.ref]
  · rw [Env.setInode_self]

theorem ilock_wp {Q : Unit → St → Prop} (hw : Walked sb p s h none t) (hpos : 0 < (t.env.itable ip).ref)
    (hfree : (s.env.itable ip).lock = none)
    (hQ : ∀ t', Walked sb p s h (some ip) t' → (t'.env.itable ip).inum = (t.env.itable ip).inum →
      (t'.env.itable ip).din = (s.image sb).ino (t.env.itable ip).inum → Q () t') :
    (ilock sb ip : Code ℕ Unit).wp (St.exec p) X Q t := by
  have hlock := hw.lock ip
  rw [if_neg (by simp),hfree] at hlock
  have hexec : EnvOp.exec p (.ilock ip) t.env =
      .ok ((),t.env.setInode ip { t.env.itable ip with lock := some p }) := by
    simp only [EnvOp.exec,Env.ilock]
    rw [if_neg (by omega),if_neg (by simp [hlock])]
    rfl
  have hlocked : Walked sb p s h (some ip) { t with env := t.env.setInode ip { t.env.itable ip with lock := some p } } := by
    refine hw.modify hpos ⟨rfl,rfl⟩ (fun hv => hw.valid hpos hv) (hw.ref ip) (fun _ _ => rfl) (by simp) fun jp hj => ?_
    simp [Ne.symm hj]
  rw [ilock,bind_eq,wp_env_ok hexec,bind_eq,wp_inode]
  dsimp only
  rw [Env.setInode_self]
  split
  · rename_i hv
    rw [wp_pure]
    refine hQ _ hlocked ?_ ?_
    · rw [Env.setInode_self]
    · rw [Env.setInode_self]
      exact hw.valid hpos hv
  · have hi := hw.coherent.alloc ip hpos
    rw [hw.image] at hi
    have hdin : Dinode.ofBlock (t.blk (sb.iblock (t.env.itable ip).inum)) ((t.env.itable ip).inum % IPB) =
        (s.image sb).ino (t.env.itable ip).inum := by
      rw [← hw.image]
      exact (Image.ofBlocks_ino hi.2.1).symm
    rw [bind_eq,wp_bread,bind_eq,wp_bdata,bind_eq,wp_brelse]
    dsimp only
    rw [hdin,bind_eq,wp_env_ok rfl,if_neg hi.2.2,wp_pure]
    have hl := hlocked.lock ip
    rw [Env.setInode_self] at hl
    refine hQ _ (hlocked.modify (by rw [Env.setInode_self]; exact hpos) ?_ (fun _ => ?_) ?_ (fun _ _ => rfl) ?_
      fun _ _ => Iff.rfl) ?_ ?_
    · exact ⟨rfl,rfl⟩
    · dsimp only
      rw [Env.setInode_self]
    · dsimp only
      rw [Env.setInode_self]
      exact hw.ref ip
    · dsimp only
      rw [Env.setInode_self]
      exact hl
    · rw [Env.setInode_self,Env.setInode_self]
    · rw [Env.setInode_self]

theorem iunlock_wp {Q : Unit → St → Prop} (hw : Walked sb p s h (some ip) t) (hpos : 0 < (t.env.itable ip).ref)
    (hfree : (s.env.itable ip).lock = none)
    (hQ : ∀ t', Walked sb p s h none t' → (∀ jp, (t'.env.itable jp).inum = (t.env.itable jp).inum) → Q () t') :
    (iunlock ip : Code ℕ Unit).wp (St.exec p) X Q t := by
  have hlock := hw.lock ip
  rw [if_pos rfl] at hlock
  have hexec : EnvOp.exec p (.iunlock ip) t.env =
      .ok ((),t.env.setInode ip { t.env.itable ip with lock := none }) := by
    simp only [EnvOp.exec,Env.iunlock]
    rw [if_neg]
    · rfl
    · rintro (h₁ | h₁)
      · exact h₁ hlock
      · omega
  refine (wp_env_last hexec).mpr (hQ _ (hw.modify hpos ⟨rfl,rfl⟩ (fun hv => hw.valid hpos hv) (hw.ref ip) (fun _ _ => rfl)
    (by simp [hfree]) fun jp hj => ?_) ?_)
  · simp [Ne.symm hj]
  · exact Env.setInode_inum rfl

/-- The reference that `iput` drops is not the last one to an inode without links. -/
def Keeps (sb : Superblock) (s t : St) (ip : Fin NINODE) : Prop :=
  0 < (s.env.itable ip).ref ∨ ((s.image sb).ino (t.env.itable ip).inum).nlink ≠ 0

theorem iput_wp {Q : Unit → St → Prop} (hw : Walked sb p s (h + Pi.single ip 1) none t) (hk : Keeps sb s t ip)
    (hQ : ∀ t', Walked sb p s h none t' → (∀ jp, (t'.env.itable jp).inum = (t.env.itable jp).inum) → Q () t') :
    (iput sb ip : Code ℕ Unit).wp (St.exec p) X Q t := by
  have href := hw.ref ip
  rw [Pi.add_apply,Pi.single_eq_same] at href
  have hpos : 0 < (t.env.itable ip).ref := by omega
  have hexec : EnvOp.exec p (.iputTest ip) t.env =
      .ok (false,t.env.setInode ip { t.env.itable ip with ref := (t.env.itable ip).ref - 1 }) := by
    simp only [EnvOp.exec,Env.iputTest]
    rw [if_neg]
    rintro ⟨h₁,h₂,h₃⟩
    rcases hk with hk | hk
    · omega
    · rw [hw.valid hpos h₂] at h₃
      exact hk h₃
  rw [iput,bind_eq,wp_env_ok hexec,if_neg (by simp),wp_pure]
  refine hQ _ (hw.modify hpos ⟨rfl,rfl⟩ (fun hv => hw.valid hpos hv) ?_ (fun jp hj => by simp [hj]) (hw.lock ip)
    fun _ _ => Iff.rfl) (Env.setInode_inum rfl)
  dsimp only
  omega

theorem iunlockput_wp {Q : Unit → St → Prop} (hw : Walked sb p s (h + Pi.single ip 1) (some ip) t)
    (hfree : (s.env.itable ip).lock = none) (hk : Keeps sb s t ip)
    (hQ : ∀ t', Walked sb p s h none t' → (∀ jp, (t'.env.itable jp).inum = (t.env.itable jp).inum) → Q () t') :
    (iunlockput sb ip : Code ℕ Unit).wp (St.exec p) X Q t := by
  have href := hw.ref ip
  rw [Pi.add_apply,Pi.single_eq_same] at href
  rw [iunlockput,bind_eq,wp_bind]
  refine iunlock_wp hw (by omega) hfree fun t' hw' hinum => iput_wp hw' ?_ fun u hu hinum' => hQ u hu fun jp => ?_
  · rw [Keeps,hinum]
    exact hk
  · rw [hinum',hinum]

/-! ## `dirlookup` -/

variable {name : List Byte} {d k : ℕ} {Q : Option (Fin NINODE × ℕ) → St → Prop}

theorem readEntry_wp {Q : Option ℕ × List Byte → St → Prop} (ho : (t.view sb ip).Own sb)
    (ha : (t.view sb ip).Alloc sb (t.env.itable ip).inum)
    (hk : 16 * k + 16 ≤ (t.view sb ip).size (t.env.itable ip).inum)
    (hmap : (t.view sb ip).MappedAt (t.env.itable ip).inum (16 * k) 16)
    (hQ : Q (some 16,(t.view sb ip).bytesAt (t.env.itable ip).inum (16 * k) 16) t) :
    (readi sb ip .kernel (16 * k) 16 : Code ℕ (Option ℕ × List Byte)).wp (St.exec p) X Q t := by
  have hsize : (t.view sb ip).size (t.env.itable ip).inum < 2 ^ 32 := BitVec.isLt _
  have hmin : min (16 * k + 16) ((t.view sb ip).size (t.env.itable ip).inum) - 16 * k = 16 := by omega
  refine (readi_mapped ho ha (by omega) (by omega) (by rwa [hmin])).imp ?_
  rintro r t' ⟨u,rfl,hu⟩
  rw [Image.readBytes,if_neg (by omega),hmin] at hu
  obtain ⟨rfl,rfl⟩ := hu trivial
  rw [Dst.put,St.setMem_self,Image.bytesAt_length]
  exact hQ

theorem dirlookupFrom_round (fuel : ℕ) (ho : (t.view sb ip).Own sb)
    (ha : (t.view sb ip).Alloc sb (t.env.itable ip).inum)
    (hk : 16 * k + 16 ≤ (t.view sb ip).size (t.env.itable ip).inum)
    (hmap : (t.view sb ip).MappedAt (t.env.itable ip).inum (16 * k) 16)
    (hyes : (t.view sb ip).Matches (t.env.itable ip).inum name k →
      (env (.iget (t.env.itable ip).dev ((t.view sb ip).entry (t.env.itable ip).inum k).inum.toNat) :
        Code ℕ (Fin NINODE)).wp (St.exec p) X (fun jp => Q (some (jp,16 * k))) t)
    (hno : ¬(t.view sb ip).Matches (t.env.itable ip).inum name k →
      (dirlookupFrom sb ip name fuel (16 * (k + 1)) : Code ℕ _).wp (St.exec p) X Q t) :
    (dirlookupFrom sb ip name (fuel + 1) (16 * k) : Code ℕ _).wp (St.exec p) X Q t := by
  rw [dirlookupFrom,bind_eq,wp_inode,← St.view_size sb t ip,if_pos (by omega),bind_eq,wp_bind]
  refine readEntry_wp ho ha hk hmap ?_
  dsimp only
  rw [if_neg (by simp)]
  change (if ((t.view sb ip).entry (t.env.itable ip).inum k).inum = 0 then _ else _ : Code ℕ _).wp _ _ _ _
  split
  · rename_i h0
    exact hno fun hm => hm.1 h0
  · rename_i h0
    split
    · rename_i hcmp
      rw [bind_eq,wp_bind]
      exact (hyes ⟨h0,hcmp⟩).imp fun jp u hq => (wp_pure _ _ _).mpr hq
    · rename_i hcmp
      exact hno fun hm => hcmp hm.2

theorem dirlookupFrom_skip {n j : ℕ} (fuel : ℕ) (ho : (t.view sb ip).Own sb)
    (ha : (t.view sb ip).Alloc sb (t.env.itable ip).inum) (hj : j = k + n)
    (hsize : 16 * j ≤ (t.view sb ip).size (t.env.itable ip).inum)
    (hmap : (t.view sb ip).MappedAt (t.env.itable ip).inum 0 (16 * j))
    (hno : ∀ i, i < j → ¬(t.view sb ip).Matches (t.env.itable ip).inum name i)
    (hQ : (dirlookupFrom sb ip name fuel (16 * j) : Code ℕ _).wp (St.exec p) X Q t) :
    (dirlookupFrom sb ip name (fuel + n) (16 * k) : Code ℕ _).wp (St.exec p) X Q t := by
  induction n generalizing k with
  | zero =>
    subst hj
    exact hQ
  | succ n ih =>
    refine dirlookupFrom_round (fuel + n) ho ha (by omega) (fun x h₁ h₂ => hmap x (Nat.zero_le _) (by omega))
      (fun hm => absurd hm (hno k (by omega))) fun _ => ih (by omega)

theorem dirlookup_found {j : ℕ} (ho : (t.view sb ip).Own sb)
    (ha : (t.view sb ip).Alloc sb (t.env.itable ip).inum) (hdir : (t.view sb ip).IsDir (t.env.itable ip).inum)
    (hj : 16 * j + 16 ≤ (t.view sb ip).size (t.env.itable ip).inum)
    (hmap : (t.view sb ip).MappedAt (t.env.itable ip).inum 0 (16 * j + 16))
    (hyes : (t.view sb ip).Matches (t.env.itable ip).inum name j)
    (hno : ∀ i, i < j → ¬(t.view sb ip).Matches (t.env.itable ip).inum name i)
    (hQ : (env (.iget (t.env.itable ip).dev ((t.view sb ip).entry (t.env.itable ip).inum j).inum.toNat) :
      Code ℕ (Fin NINODE)).wp (St.exec p) X (fun jp => Q (some (jp,16 * j))) t) :
    (dirlookup sb ip name : Code ℕ _).wp (St.exec p) X Q t := by
  rw [Image.IsDir,St.view_ino_self] at hdir
  rw [dirlookup,bind_eq,wp_inode,if_neg (by simp [hdir]),← St.view_size sb t ip]
  generalize hn : (t.view sb ip).size (t.env.itable ip).inum / 16 = n
  have hskip : (dirlookupFrom sb ip name (n - j + 1 + j) (16 * 0) : Code ℕ _).wp (St.exec p) X Q t :=
    dirlookupFrom_skip _ ho ha (Nat.zero_add j).symm (by omega) (fun x h₁ h₂ => hmap x h₁ (by omega)) hno
    (dirlookupFrom_round _ ho ha hj (fun x h₁ h₂ => hmap x (Nat.zero_le _) (by omega)) (fun _ => hQ)
      fun h => absurd hyes h)
  rwa [show n - j + 1 + j = n + 1 by omega] at hskip

theorem dirlookup_missing (ho : (t.view sb ip).Own sb)
    (ha : (t.view sb ip).Alloc sb (t.env.itable ip).inum) (hdir : (t.view sb ip).IsDir (t.env.itable ip).inum)
    (hsize : 16 ∣ (t.view sb ip).size (t.env.itable ip).inum)
    (hmap : (t.view sb ip).MappedAt (t.env.itable ip).inum 0 ((t.view sb ip).size (t.env.itable ip).inum))
    (hno : ∀ i, i < (t.view sb ip).size (t.env.itable ip).inum / 16 →
      ¬(t.view sb ip).Matches (t.env.itable ip).inum name i) (hQ : Q none t) :
    (dirlookup sb ip name : Code ℕ _).wp (St.exec p) X Q t := by
  rw [Image.IsDir,St.view_ino_self] at hdir
  rw [dirlookup,bind_eq,wp_inode,if_neg (by simp [hdir]),← St.view_size sb t ip]
  generalize hn : (t.view sb ip).size (t.env.itable ip).inum / 16 = n at *
  have hn16 : 16 * n = (t.view sb ip).size (t.env.itable ip).inum := by omega
  rw [Nat.add_comm n 1]
  refine dirlookupFrom_skip (k := 0) 1 ho ha (Nat.zero_add n).symm (by omega) (by rwa [hn16]) hno ?_
  · rw [dirlookupFrom,bind_eq,wp_inode,← St.view_size sb t ip,if_neg (by omega),wp_pure]
    exact hQ

theorem dirlookup_wp (hc : (s.image sb).Consistent sb)
    (hw : Walked sb p s h (some ip) t) (hpos : 0 < (t.env.itable ip).ref) (hd : (t.env.itable ip).inum = d)
    (hdin : (t.env.itable ip).din = (s.image sb).ino d) (hdir : (s.image sb).IsDir d)
    (hX : (∀ ip, 0 < (t.env.itable ip).ref) → X (.panic .igetNoInodes))
    (hnone : (s.image sb).lookup d name = none → Q none t)
    (hsome : ∀ x jp t' off, (s.image sb).lookup d name = some x → Walked sb p s (h + Pi.single jp 1) (some ip) t' →
      (t'.env.itable jp).inum = x → (t'.env.itable ip).inum = d → Q (some (jp,off)) t') :
    (dirlookup sb ip name : Code ℕ _).wp (St.exec p) X Q t := by
  subst hd
  have hview : t.view sb ip = s.image sb := by
    rw [St.view_eq_image (by rw [hdin,hw.image]),hw.image]
  have halloc := hw.coherent.alloc ip hpos
  rw [hw.image] at halloc
  have hsize := hc.size _ halloc hdir
  have hmap : (s.image sb).MappedAt (t.env.itable ip).inum 0 ((s.image sb).size (t.env.itable ip).inum) :=
    hc.noHole.mappedAt halloc (by omega)
  cases hf : (s.image sb).find (t.env.itable ip).inum name with
  | none =>
    refine dirlookup_missing (hview ▸ hc.own) (hview ▸ halloc) (hview ▸ hdir) (hview ▸ hsize) (by rwa [hview])
      (by rw [hview]; exact Image.find_eq_none hf) (hnone ?_)
    rw [Image.lookup,hf]
    rfl
  | some k =>
    obtain ⟨hlt,hm,hno⟩ := Image.find_eq_some hf
    have hx : (s.image sb).lookup (t.env.itable ip).inum name =
        some ((s.image sb).entry (t.env.itable ip).inum k).inum.toNat := by
      rw [Image.lookup,hf]
      rfl
    refine dirlookup_found (j := k) (hview ▸ hc.own) (hview ▸ halloc) (hview ▸ hdir) (by rw [hview]; omega)
      (by rw [hview]; exact fun x h₁ h₂ => hmap x h₁ (by omega)) (by rwa [hview]) (by rwa [hview]) ?_
    rw [hview,hw.coherent.dev ip hpos]
    refine iget_wp hw (hc.lookup halloc hdir hx).1 hX fun jp t' hw' hinum hsame => ?_
    exact hsome _ jp t' _ hx hw' hinum (hsame ip hpos)

/-! ## `namex` -/

def freeSlots (s : St) : Finset (Fin NINODE) := Finset.univ.filter fun ip => (s.env.itable ip).ref = 0

theorem Walked.few (hw : Walked sb p s (Pi.single ip 1) l t) (hfull : ∀ ip, 0 < (t.env.itable ip).ref) :
    (freeSlots s).card ≤ 1 := by
  refine Finset.card_le_one_iff_subset_singleton.mpr ⟨ip,fun jp hj => ?_⟩
  have hzero := (Finset.mem_filter.mp hj).2
  have href := hw.ref jp
  have := hfull jp
  by_contra hne
  rw [Finset.mem_singleton] at hne
  rw [Pi.single_eq_of_ne hne] at href
  omega

/-- The outcome of a lookup that should have found `o`. -/
def Resolved (sb : Superblock) (p : Pid) (s : St) (o : Option (ℕ × List Byte)) (r : Option (Fin NINODE × List Byte))
    (t : St) : Prop :=
  match o with
  | none => r = none ∧ Walked sb p s 0 none t
  | some (x,name) => ∃ jp, r = some (jp,name) ∧ Walked sb p s (Pi.single jp 1) none t ∧ (t.env.itable jp).inum = x

theorem giveUp_wp (hw : Walked sb p s (Pi.single ip 1) (some ip) t) (hfree : (s.env.itable ip).lock = none)
    (hk : Keeps sb s t ip) :
    ((iunlockput sb ip : Code ℕ Unit).bind fun _ => pure none).wp (St.exec p) X (Resolved sb p s none) t := by
  rw [← zero_add (Pi.single ip 1)] at hw
  rw [wp_bind]
  exact iunlockput_wp hw hfree hk fun t' hw' _ => (wp_pure _ _ _).mpr ⟨rfl,hw'⟩

theorem namexLoop_wp {flag : Bool} {names : List (List Byte)} (hc : (s.image sb).Consistent sb)
    (hfree : ∀ ip, (s.env.itable ip).lock = none) (hX : (freeSlots s).card ≤ 1 → X (.panic .igetNoInodes))
    (hw : Walked sb p s (Pi.single ip 1) none t) (hk : Keeps sb s t ip) (hd : (t.env.itable ip).inum = d) :
    (namexLoop sb flag ip names : Code ℕ _).wp (St.exec p) X (Resolved sb p s ((s.image sb).resolve flag d names)) t := by
  induction names generalizing ip t d with
  | nil =>
    rw [namexLoop,Image.resolve]
    cases flag with
    | true =>
      rw [← zero_add (Pi.single ip 1)] at hw
      rw [if_pos rfl,if_pos rfl,bind_eq,wp_bind]
      exact iput_wp hw hk fun t' hw' _ => (wp_pure _ _ _).mpr ⟨rfl,hw'⟩
    | false =>
      rw [if_neg (by simp),if_neg (by simp),wp_pure]
      exact ⟨ip,rfl,hw,hd⟩
  | cons name rest ih =>
    have href := hw.ref ip
    rw [Pi.single_eq_same] at href
    rw [namexLoop,Image.resolve,bind_eq,wp_bind]
    refine ilock_wp hw (by omega) (hfree ip) fun t₁ hw₁ hinum₁ hdin₁ => ?_
    rw [hd] at hinum₁ hdin₁
    have href₁ := hw₁.ref ip
    rw [Pi.single_eq_same] at href₁
    have hkeeps : ∀ u : St, (u.env.itable ip).inum = d → Keeps sb s u ip := by
      intro u hu
      rw [Keeps,hu,← hd]
      exact hk
    rw [bind_eq,wp_inode]
    have htype : (t₁.env.itable ip).din.type = T_DIR ↔ (s.image sb).IsDir d := by
      rw [hdin₁]
      rfl
    by_cases hdir : (s.image sb).IsDir d
    · have halloc : (s.image sb).Alloc sb d := by
        rw [← hinum₁,← hw₁.image]
        exact hw₁.coherent.alloc ip (by omega)
      rw [if_neg (not_not.mpr (htype.mpr hdir)),if_pos hdir]
      split
      · rw [bind_eq,wp_bind]
        refine iunlock_wp hw₁ (by omega) (hfree ip) fun t₂ hw₂ hinum₂ => (wp_pure _ _ _).mpr ⟨ip,rfl,hw₂,?_⟩
        rw [hinum₂,hinum₁]
      · rw [bind_eq,wp_bind]
        refine dirlookup_wp hc hw₁ (by omega) hinum₁ hdin₁ hdir (fun hfull => hX (hw₁.few hfull)) ?_ ?_
        · intro hnone
          rw [hnone]
          exact giveUp_wp hw₁ (hfree ip) (hkeeps t₁ hinum₁)
        · intro x jp t₂ off hx hw₂ hinum₂ hinum₂'
          have hlinked := (hc.lookup halloc hdir hx).2
          rw [add_comm] at hw₂
          rw [hx,Option.bind_some]
          dsimp only
          rw [bind_eq,wp_bind]
          refine iunlockput_wp hw₂ (hfree ip) (hkeeps t₂ hinum₂') fun t₃ hw₃ hinum₃ => ih hw₃ (.inr ?_) ?_
          · rw [hinum₃,hinum₂]
            exact hlinked
          · rw [hinum₃,hinum₂]
    · rw [if_pos (fun h => hdir (htype.mp h)),if_neg hdir]
      exact giveUp_wp hw₁ (hfree ip) (hkeeps t₁ hinum₁)

variable {c : Fin NINODE} {path : List Byte}

/-- Where a lookup starts: at the root, or in the current directory `c`. -/
def startOf (s : St) (c : Fin NINODE) (path : List Byte) : ℕ :=
  if path.head? = some slash then ROOTINO else (s.env.itable c).inum

theorem namex_wp {flag : Bool} (hc : (s.image sb).Consistent sb) (hs : Coherent sb s)
    (hfree : ∀ ip, (s.env.itable ip).lock = none) (hX : (freeSlots s).card ≤ 1 → X (.panic .igetNoInodes))
    (hcwd : (s.env.proc p).cwd = some c) (hcref : 0 < (s.env.itable c).ref) :
    (namex sb path flag : Code ℕ _).wp (St.exec p) X
      (Resolved sb p s ((s.image sb).resolve flag (startOf s c path) (pathElems path))) s := by
  have hw : Walked sb p s 0 none s := .refl hs
  rw [namex,startOf]
  split
  · rw [bind_eq,wp_bind]
    refine iget_wp hw hc.root.1 (fun hfull => hX ?_) fun ip t hw' hinum _ => ?_
    · have : freeSlots s = ∅ := Finset.filter_eq_empty_iff.mpr fun ip _ => by
        have := hfull ip
        omega
      simp [this]
    · rw [zero_add] at hw'
      refine namexLoop_wp hc hfree hX hw' (.inr ?_) hinum
      rw [hinum]
      exact hc.root.2
  · have hproc : EnvOp.exec p .proc s.env = .ok (s.env.proc p,s.env) := rfl
    rw [bind_eq,wp_env_ok hproc,hcwd]
    dsimp only
    rw [bind_eq,wp_bind]
    refine idup_wp hw hcref fun t hw' hinum => ?_
    rw [zero_add] at hw'
    exact namexLoop_wp hc hfree hX hw' (.inl hcref) hinum

/-- `t` is `s` with one reference more to the inode that is returned; an unused slot of the table may
have been used for another inode in between. -/
structure Returned (s t : St) (r : Option (Fin NINODE)) : Prop where
  frame : t = { s with env := { s.env with itable := t.env.itable } }
  ref : ∀ ip, (t.env.itable ip).ref = (s.env.itable ip).ref + if r = some ip then 1 else 0
  lock : ∀ ip, (t.env.itable ip).lock = (s.env.itable ip).lock
  same : ∀ ip, 0 < (s.env.itable ip).ref →
    (t.env.itable ip).dev = (s.env.itable ip).dev ∧ (t.env.itable ip).inum = (s.env.itable ip).inum

theorem Resolved.returned {o : Option (ℕ × List Byte)} {r : Option (Fin NINODE × List Byte)} (h : Resolved sb p s o r t) :
    Returned s t (r.map Prod.fst) ∧ r.map (fun q => ((t.env.itable q.1).inum,q.2)) = o := by
  cases o with
  | none =>
    obtain ⟨rfl,hw⟩ := h
    exact ⟨⟨hw.frame,hw.ref,fun ip => by rw [hw.lock ip,if_neg (by simp)],hw.same⟩,rfl⟩
  | some q =>
    obtain ⟨x,name⟩ := q
    obtain ⟨jp,rfl,hw,rfl⟩ := h
    refine ⟨⟨hw.frame,fun ip => ?_,fun ip => by rw [hw.lock ip,if_neg (by simp)],hw.same⟩,rfl⟩
    rw [hw.ref ip,Pi.single_apply]
    simp [eq_comm]

/-- `namei` and `nameiparent` follow the elements of the path, and return with nothing but the reference
to what they return. -/
theorem path_lookup (sb : Superblock) (p : Pid) (s : St) (path : List Byte) (name : Buf.Name) (c : Fin NINODE)
    (hpath : 0 ∉ path) (hcwd : (s.env.proc p).cwd = some c) (hcref : 0 < (s.env.itable c).ref)
    (htree : (s.image sb).Consistent sb) (htable : Coherent sb s) (hlocks : ∀ ip, (s.env.itable ip).lock = none) :
    ((Buf.namei sb path name).run (St.exec p) s = .error (.panic .igetNoInodes) ∧ (freeSlots s).card ≤ 1 ∨
      ∃ r t, (Buf.namei sb path name).run (St.exec p) s = .ok (r,t) ∧ Returned s t r ∧
        r.map (fun ip => (t.env.itable ip).inum) =
          (s.image sb).walk (startOf s c path) ((components path).map (·.take DIRSIZ))) ∧
    ((Buf.nameiparent sb path name).run (St.exec p) s = .error (.panic .igetNoInodes) ∧ (freeSlots s).card ≤ 1 ∨
      ∃ r last t, (Buf.nameiparent sb path name).run (St.exec p) s = .ok ((r,last),t) ∧ Returned s t r ∧
        r.map (fun ip => ((t.env.itable ip).inum,last.string)) =
          (s.image sb).walkParent (startOf s c path) ((components path).map (·.take DIRSIZ))) := by
  have hnamex (flag : Bool) : (Buf.namex sb path flag name : Code ℕ _).wp (St.exec p)
      (fun e => e = .panic .igetNoInodes ∧ (freeSlots s).card ≤ 1) (fun r t => Resolved sb p s
        ((s.image sb).resolve flag (startOf s c path) (pathElems path)) (Buf.result flag r) t) s := by
    have h : (namex sb path flag : Code ℕ _).wp (St.exec p) (fun e => e = .panic .igetNoInodes ∧ (freeSlots s).card ≤ 1) _ s :=
      namex_wp htree htable hlocks (fun h => ⟨rfl,h⟩) hcwd hcref
    rw [← Buf.namex_eq sb name hpath,wp_bind] at h
    exact h.imp fun _ _ h => (wp_pure _ _ _).mp h
  rw [← pathElems_eq]
  constructor
  · have h : (Buf.namei sb path name : Code ℕ _).wp (St.exec p)
        (fun e => e = .panic .igetNoInodes ∧ (freeSlots s).card ≤ 1) (fun r t => Returned s t r ∧
          r.map (fun ip => (t.env.itable ip).inum) = (s.image sb).walk (startOf s c path) (pathElems path)) s := by
      rw [Buf.namei,bind_eq,wp_bind]
      refine (hnamex false).imp fun r t hr => (wp_pure _ _ _).mpr ?_
      obtain ⟨hret,heq⟩ := hr.returned
      rw [Image.resolve_namei] at heq
      rw [Buf.result,Option.map_map] at hret heq
      have heq := congrArg (Option.map Prod.fst) heq
      rw [Option.map_map,Option.map_map] at heq
      exact ⟨by simpa [Function.comp_def] using hret,by simpa [Function.comp_def] using heq⟩
    obtain ⟨r,t,hr,h⟩ | ⟨e,hr,rfl,hfew⟩ := h.run
    · exact .inr ⟨r,t,hr,h⟩
    · exact .inl ⟨hr,hfew⟩
  · obtain ⟨⟨r,last⟩,t,hr,h⟩ | ⟨e,hr,rfl,hfew⟩ := (hnamex true).run
    · obtain ⟨hret,heq⟩ := h.returned
      rw [Image.resolve_nameiparent] at heq
      rw [Buf.result,Option.map_map] at hret heq
      exact .inr ⟨r,last,t,hr,by simpa [Function.comp_def] using hret,by simpa [Function.comp_def] using heq⟩
    · exact .inl ⟨hr,hfew⟩

end

/-! ## A lookup in a small file system -/

namespace Sample

theorem consistent : image.Consistent super where
  own := own
  noHole := noHole
  root := by decide
  size := by
    intro d hd _
    rcases (alloc_iff d).mp hd with rfl | rfl | rfl <;> decide
  live := by
    intro d k hd _ hk h
    revert h
    rcases (alloc_iff d).mp hd with rfl | rfl | rfl
    · have : ∀ k, k < 3 → (image.entry 1 k).inum ≠ 0 → image.Alloc super (image.entry 1 k).inum.toNat ∧
          (image.ino (image.entry 1 k).inum.toNat).nlink ≠ 0 := by
        decide +kernel
      exact this k hk
    · have : ∀ k, k < 3 → (image.entry 2 k).inum ≠ 0 → image.Alloc super (image.entry 2 k).inum.toNat ∧
          (image.ino (image.entry 2 k).inum.toNat).nlink ≠ 0 := by
        decide +kernel
      exact this k hk
    · have : ∀ k, k < 2 → (image.entry 3 k).inum ≠ 0 → image.Alloc super (image.entry 3 k).inum.toNat ∧
          (image.ino (image.entry 3 k).inum.toNat).nlink ≠ 0 := by
        decide +kernel
      exact this k hk

theorem itable_ref (ip : Fin NINODE) (h : 0 < (state.env.itable ip).ref) : ip = 0 ∨ ip = 1 := by
  by_contra hne
  rw [not_or] at hne
  simp [state,env,hne.1,hne.2] at h

theorem coherent : Coherent super state where
  dev := by
    intro ip h
    rcases itable_ref ip h with rfl | rfl <;> rfl
  alloc := by
    intro ip h
    rw [state_image]
    rcases itable_ref ip h with rfl | rfl <;> decide
  valid := by
    intro ip h _
    rw [state_image]
    rcases itable_ref ip h with rfl | rfl <;> rfl
  inj := by
    intro ip jp hi hj
    rcases itable_ref ip hi with rfl | rfl <;> rcases itable_ref jp hj with rfl | rfl <;> decide

theorem unlocked (ip : Fin NINODE) : (state.env.itable ip).lock = none := by
  simp only [state,env]
  split
  · rfl
  · split <;> rfl

end Sample

/-- `namei("/a/b")` -/
theorem path_lookup_sample : ∃ r t, (Buf.namei Sample.super [47,97,47,98] Bytes.zero).run (St.exec 0) Sample.state = .ok (r,t) ∧
    r.map (fun ip => (t.env.itable ip).inum) = some 3 := by
  have h := path_lookup Sample.super 0 Sample.state [47,97,47,98] Bytes.zero 0 (by decide) rfl (by decide)
    (Sample.state_image ▸ Sample.consistent) Sample.coherent Sample.unlocked
  obtain ⟨-,hfew⟩ | ⟨r,t,hr,-,hw⟩ := h.1
  · exact absurd hfew (by decide +kernel)
  · refine ⟨r,t,hr,hw.trans ?_⟩
    rw [Sample.state_image]
    decide +kernel

end Xv6
