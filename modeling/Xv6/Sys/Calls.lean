import Xv6.Sys.Refs
import Xv6.Sys.Tables

/-! # What the file system calls hold

From a process that is in no call to a process that is in no call: a descriptor for every reference
to a file, one reference to the current directory, nothing locked.
-/
namespace Xv6.Refs
open Library
open Function (update update_eq_self update_of_ne update_self)

variable {β : Type} {R : Rights} {fork : Prop} (sb : Superblock) {g : Hold} {r l : Fin NINODE → ℕ} {ip dp : Fin NINODE}
    {f : Fin NFILE}

/-- A call may do everything; only `fork` fills another slot. -/
abbrev full (fork : Prop) : Rights := ⟨True,True,True,fork⟩

theorem covered_of_le (h : l ≤ r) : g.Covered r l := fun ip => (h ip).trans (Nat.le_add_right _ _)

theorem end_spec {v : ℤ} {Q : ℤ → Hold → Prop} (h : Q v g) :
    (endOp.bind fun _ => (pure v : Code β ℤ)).ensures (holdMoves β R) Q g := Quiet.bind Quiet.endOp fun _ => h

/-! ## Calls that open and close no file -/

section Paths
variable {Q : ℤ → Hold → Prop} (hR : R.inodes) (hc : g.Covered r l) (hcwd : ∀ cwd, g.cwd = some cwd → 0 < r cwd)
include hR hc hcwd

theorem sysMake_spec {path : Option (List Byte)} {type major minor : BitVec 16} (hQ : ∀ v, Q v (g.refs r l)) :
    (sysMake sb path type major minor).ensures (holdMoves β R) Q (g.refs r l) := by
  refine Quiet.bind Quiet.beginOp fun _ => ?_
  split
  · exact end_spec (hQ _)
  · exact .bind (create_spec sb hR hc hcwd (end_spec (hQ _)) fun ip => .bind (iunlockput_spec sb hR hc (end_spec (hQ _))))

theorem sysExec_spec {path : Option (List Byte)} {reads : List (ℕ × ℕ)} (hQ : ∀ v, Q v (g.refs r l)) :
    (sysExec sb path reads).ensures (holdMoves β R) Q (g.refs r l) := by
  rw [sysExec]
  split
  · exact hQ _
  refine Quiet.bind Quiet.beginOp fun _ => .bind (namei_spec sb hR hc hcwd (end_spec (hQ _)) fun ip => ?_)
  refine .bind (ilock_spec sb hR (spare hc) ?_)
  have hreads : ∀ reads, (execReads sb ip reads : Code β Bool).only (Quiet R) := fun reads => by
    induction reads with
    | nil => exact Prog.only_ret _
    | cons x rest ih =>
      refine (Quiet.readi sb _ _ _ _).bind fun a => ?_
      split
      · exact ih
      · exact Prog.only_ret _
  exact Quiet.bind (hreads reads) fun ok => .bind (iunlockput_spec sb hR hc (end_spec (hQ _)))

theorem sysLink_spec {old new : Option (List Byte)} (hQ : ∀ v, Q v (g.refs r l)) :
    (sysLink sb old new).ensures (holdMoves β R) Q (g.refs r l) := by
  rw [sysLink]
  split
  · rename_i old new
    refine Quiet.bind Quiet.beginOp fun _ => .bind (namei_spec sb hR hc hcwd (end_spec (hQ _)) fun ip => ?_)
    refine .bind (ilock_spec sb hR (spare hc) (Quiet.bind (Quiet.inode _) fun i => ?_))
    split
    · exact .bind (iunlockput_spec sb hR hc (end_spec (hQ _)))
    refine Quiet.bind (Quiet.setDin _ _) fun _ => Quiet.bind (Quiet.iupdate sb _) fun _ => .bind (iunlock_spec hR ?_)
    have hc' : g.Covered (r + Pi.single ip 1) l := hc.add _
    have hcwd' : ∀ cwd, g.cwd = some cwd → 0 < (r + (Pi.single ip 1 : Fin NINODE → ℕ)) cwd := fun cwd h =>
      (hcwd cwd h).trans_le (Nat.le_add_right _ _)
    refine .bind (Prog.ensures.mono (Q := fun _ t => t = g.refs (r + Pi.single ip 1) l) ?_ ?_)
    · refine .bind (namex_spec sb hR hc' hcwd' rfl fun dp name => ?_)
      refine .bind (ilock_spec sb hR (spare hc') (Quiet.bind (Quiet.inode _) fun d => Quiet.bind (Quiet.inode _) fun i => ?_))
      have hput : ∀ ok : Bool, Prog.ensures (holdMoves β R) ((iunlockput sb dp).bind fun _ => pure ok)
          (fun _ t => t = g.refs (r + Pi.single ip 1) l)
          (g.refs (r + Pi.single ip 1 + Pi.single dp 1) (l + Pi.single dp 1)) := fun ok =>
        .bind (iunlockput_spec sb hR hc' rfl)
      split
      · exact hput _
      · exact .bind (dirlink_spec sb hR (hc'.lock dp) hput)
    rintro linked _ rfl
    split
    · exact .bind (iput_spec sb hR hc (end_spec (hQ _)))
    · refine .bind (ilock_spec sb hR (spare hc) (Quiet.bind (Quiet.inode _) fun i => Quiet.bind (Quiet.setDin _ _) fun _ =>
        Quiet.bind (Quiet.iupdate sb _) fun _ => .bind (iunlockput_spec sb hR hc (end_spec (hQ _)))))
  · exact hQ _

theorem sysUnlink_spec {path : Option (List Byte)} (hQ : ∀ v, Q v (g.refs r l)) :
    (sysUnlink sb path).ensures (holdMoves β R) Q (g.refs r l) := by
  rw [sysUnlink]
  split
  · exact hQ _
  refine Quiet.bind Quiet.beginOp fun _ => .bind (namex_spec sb hR hc hcwd (end_spec (hQ _)) fun dp name => ?_)
  refine .bind (ilock_spec sb hR (spare hc) ?_)
  have hbad : Prog.ensures (holdMoves β R) ((iunlockput sb dp).bind fun _ => endOp.bind fun _ => pure (-1)) Q
      (g.refs (r + Pi.single dp 1) (l + Pi.single dp 1)) := .bind (iunlockput_spec sb hR hc (end_spec (hQ _)))
  split
  · exact hbad
  refine .bind (dirlookup_spec sb hR hbad fun ip off => ?_)
  refine .bind (ilock_spec sb hR (spare (hc.lock dp)) (Quiet.bind (Quiet.inode _) fun i => ?_))
  split
  · exact panic_spec
  have hempty : (if i.din.type = T_DIR then isdirempty sb ip else pure true : Code β Bool).only (Quiet R) := by
    split
    · exact Quiet.isdirempty sb ip
    · exact Prog.only_ret _
  refine Quiet.bind hempty fun empty => ?_
  split
  · exact .bind (iunlockput_spec sb hR (hc.lock dp) hbad)
  refine Quiet.bind (Quiet.writei sb _ _ _ _) fun w => ?_
  split
  · exact panic_spec
  have hrest : Prog.ensures (holdMoves β R) ((iunlockput sb dp).bind fun _ => (env (.inode ip)).bind fun i =>
      (setDin ip { i.din with nlink := i.din.nlink - 1 }).bind fun _ => (iupdate sb ip).bind fun _ =>
        (iunlockput sb ip).bind fun _ => endOp.bind fun _ => pure 0) Q
      (g.refs (r + Pi.single dp 1 + Pi.single ip 1) (l + Pi.single dp 1 + Pi.single ip 1)) := by
    rw [add_right_comm r,add_right_comm l]
    exact .bind (iunlockput_spec sb hR (hc.lock ip) (Quiet.bind (Quiet.inode _) fun i => Quiet.bind (Quiet.setDin _ _) fun _ =>
      Quiet.bind (Quiet.iupdate sb _) fun _ => .bind (iunlockput_spec sb hR hc (end_spec (hQ _)))))
  split
  · exact Quiet.bind (Quiet.inode _) fun d => Quiet.bind (Quiet.setDin _ _) fun _ => Quiet.bind (Quiet.iupdate sb _) fun _ => hrest
  · exact hrest

end Paths

theorem sysChdir_spec {path : Option (List Byte)} {cwd : Fin NINODE} {Q : ℤ → Hold → Prop} (hR : R.inodes) (hc : g.Covered r l)
    (hg : g.cwd = some cwd) (hQ : ∀ v, Q v (g.refs (r + Pi.single cwd 1) l))
    (hnew : ∀ ip, Q 0 (Hold.refs { g with cwd := some ip } (r + Pi.single ip 1) l)) :
    (sysChdir sb path).ensures (holdMoves β R) Q (g.refs (r + Pi.single cwd 1) l) := by
  have hc' : g.Covered (r + Pi.single cwd 1) l := hc.add _
  have hcwd : ∀ cwd', g.cwd = some cwd' → 0 < (r + (Pi.single cwd 1 : Fin NINODE → ℕ)) cwd' := fun cwd' h => by
    rw [← Option.some.inj (hg.symm.trans h)]
    exact pos_add_single
  refine Quiet.bind Quiet.beginOp fun _ => ?_
  split
  · exact end_spec (hQ _)
  refine .bind (namei_spec sb hR hc' hcwd (end_spec (hQ _)) fun ip => ?_)
  refine .bind (ilock_spec sb hR (spare hc') (Quiet.bind (Quiet.inode _) fun i => ?_))
  split
  · exact .bind (iunlockput_spec sb hR hc' (end_spec (hQ _)))
  refine .bind (iunlock_spec hR (.bind (proc_spec fun p _ hp => ?_)))
  split
  · exact panic_spec
  · rename_i cwd' hcwd'
    obtain rfl : cwd = cwd' := Option.some.inj (hg.symm.trans (hp.symm.trans hcwd'))
    rw [add_right_comm]
    refine .bind (iput_spec sb hR (hc.add _) (Quiet.bind Quiet.endOp fun _ => .bind (env_spec hR fun _ g' hg' => ?_)))
    obtain rfl : g' = Hold.refs { g with cwd := some ip } (r + Pi.single ip 1) l := hg'
    exact hnew ip

/-! ## Files -/

theorem slots_update (o : Fin NOFILE → Option (Fin NFILE)) (fd : Fin NOFILE) (x : Option (Fin NFILE)) (f : Fin NFILE) :
    slots (update o fd x) f + (if o fd = some f then 1 else 0) = slots o f + if x = some f then 1 else 0 := by
  have h := Pool.total_update (fun x => if x = some f then 1 else 0) o fd x
  simpa only [slots,Finset.card_filter,Pool.total] using h

theorem slots_pos {o : Fin NOFILE → Option (Fin NFILE)} {fd : Fin NOFILE} (h : o fd = some f) : 0 < slots o f :=
  Finset.card_pos.mpr ⟨fd,by simpa using h⟩

theorem spare_of_kind (hf : 0 < g.fref f) (hk : (g.kind f).ip = some ip) (hlock : g.lock ip = 0) : g.Spare ip := by
  have hle := Hold.fref_le_filed hk
  simp only [Hold.Spare]
  omega

theorem fileclose_spec {Q : Unit → Hold → Prop} (hf : 0 < g.fref f) (hk : g.kind f ≠ .fresh) (hlock : g.lock = 0)
    (h : Q () (g.setFref f (g.fref f - 1) (g.kind f))) : (fileclose sb f).ensures (holdMoves β (full fork)) Q g := by
  refine .bind (env_spec ⟨trivial,hf,fun ip hip => ⟨trivial,spare_of_kind hf hip (congrFun hlock ip)⟩⟩ fun last g' hg => ?_)
  cases last with
  | none => exact hg.2 ▸ h
  | some ff =>
    obtain ⟨hff,hone,rfl⟩ : ff.kind = g.kind f ∧ g.fref f = 1 ∧ g' = (g.setFref f 0 (g.kind f)).unwrap (g.kind f) := hg
    rw [hone,Nat.sub_self] at h
    have hinode : Prog.ensures (holdMoves β (full fork)) (beginOp.bind fun _ => (iput sb ff.ip).bind fun _ => endOp) Q
        ((g.setFref f 0 (g.kind f)).take ff.ip) := by
      have hc : (g.setFref f 0 (g.kind f)).Covered g.iref g.lock := covered_of_le (hlock ▸ Pi.le_def.mpr fun _ => Nat.zero_le _)
      refine Quiet.bind Quiet.beginOp fun _ => .bind (iput_spec (g := g.setFref f 0 (g.kind f)) sb trivial hc ?_)
      exact Quiet.endOp.ensures (fun o ho => ho _) fun _ => h
    unfold File.kind at hff
    dsimp only
    cases htype : ff.type with
    | none =>
      rw [htype] at hff
      exact absurd hff.symm hk
    | pipe =>
      simp only [htype] at hff
      rw [← hff] at h ⊢
      refine .bind (env_spec ⟨trivial,?_⟩ fun _ g' hg' => ?_)
      · simp [Hold.unwrap]
      · obtain rfl : g' = _ := hg'
        change Q () _
        simpa [Hold.unwrap] using h
    | inode =>
      simp only [htype] at hff
      have hu : (g.setFref f 0 (g.kind f)).unwrap (g.kind f) = (g.setFref f 0 (g.kind f)).take ff.ip := by
        rw [← hff]
        rfl
      rw [hu]
      exact hinode
    | device =>
      simp only [htype] at hff
      have hu : (g.setFref f 0 (g.kind f)).unwrap (g.kind f) = (g.setFref f 0 (g.kind f)).take ff.ip := by
        rw [← hff]
        rfl
      rw [hu]
      exact hinode

theorem argfd_eq_some {fd : ℤ} {p : Proc} {k : Fin NOFILE} (h : argfd fd p = some (k,f)) : p.ofile k = some f := by
  unfold argfd at h
  split at h
  · simp only [Option.map_eq_some_iff,Prod.mk.injEq] at h
    obtain ⟨f',hf',rfl,rfl⟩ := h
    exact hf'
  · cases h

section Descriptors
variable {Q : ℤ → Hold → Prop}

theorem Idle.fref_pos (hi : g.Idle) {fd : Fin NOFILE} (h : g.ofile fd = some f) : 0 < g.fref f ∧ g.kind f ≠ .fresh := by
  have hpos : 0 < g.fref f := hi.fref f ▸ slots_pos h
  exact ⟨hpos,hi.kind f hpos⟩

theorem Idle.reslot (hi : g.Idle) {fd : Fin NOFILE} {x : Option (Fin NFILE)} {n : ℕ} {k : Kind}
    (hfd : ∀ f', f' ≠ f → g.ofile fd ≠ some f' ∧ x ≠ some f')
    (hn : n + (if g.ofile fd = some f then 1 else 0) = g.fref f + if x = some f then 1 else 0) (hk : 0 < n → k ≠ .fresh) :
    (Hold.setFref { g with ofile := update g.ofile fd x } f n k).Idle := by
  refine ⟨fun f' => ?_,fun f' hf' => ?_,hi.cwd,hi.lock,hi.ends⟩
  · have hup := slots_update g.ofile fd x f'
    have hold := hi.fref f'
    rcases eq_or_ne f' f with rfl | hne
    · simp only [Hold.setFref,update_self]
      omega
    · rw [if_neg (hfd f' hne).1,if_neg (hfd f' hne).2] at hup
      simp only [Hold.setFref,update_of_ne hne]
      omega
  · rcases eq_or_ne f' f with rfl | hne
    · simp only [Hold.setFref,update_self] at hf' ⊢
      exact hk hf'
    · simp only [Hold.setFref,update_of_ne hne] at hf' ⊢
      exact hi.kind f' hf'

theorem Idle.closed (hi : g.Idle) {fd : Fin NOFILE} (h : g.ofile fd = some f) :
    (Hold.setFref { g with ofile := update g.ofile fd none } f (g.fref f - 1) (g.kind f)).Idle := by
  obtain ⟨hpos,hkind⟩ := Idle.fref_pos hi h
  refine Idle.reslot hi (fun f' hne => ⟨?_,nofun⟩) ?_ fun _ => hkind
  · rw [h]
    exact fun heq => hne (Option.some.inj heq).symm
  · rw [if_pos h,if_neg nofun]
    omega

theorem sysClose_spec (hi : g.Idle) {fd : ℤ} (hQ : ∀ v h, h.Idle → Q v h) :
    (sysClose sb fd).ensures (holdMoves β (full fork)) Q g := by
  refine .bind (proc_spec fun p hp _ => ?_)
  split
  · exact hQ _ _ hi
  · rename_i k f hfd
    have hk : g.ofile k = some f := hp ▸ argfd_eq_some hfd
    obtain ⟨hpos,hkind⟩ := Idle.fref_pos hi hk
    refine .bind (env_spec trivial fun _ g' hg => ?_)
    obtain rfl : g' = { g with ofile := update g.ofile k none } := hg
    exact .bind (fileclose_spec sb hpos hkind hi.lock (hQ _ _ (Idle.closed hi hk)))

theorem sysDup_spec (hi : g.Idle) {fd : ℤ} (hQ : ∀ v h, h.Idle → Q v h) : (sysDup fd).ensures (holdMoves β (full fork)) Q g := by
  refine .bind (proc_spec fun p hp _ => ?_)
  split
  · exact hQ _ _ hi
  · rename_i k f hfd
    obtain ⟨hpos,hkind⟩ := Idle.fref_pos hi (hp ▸ argfd_eq_some hfd)
    refine .bind (env_spec trivial fun fd' g' hg => ?_)
    cases fd' with
    | none => exact hg ▸ hQ _ _ hi
    | some fd' =>
      obtain ⟨hfree,rfl⟩ : g.ofile fd' = none ∧ g' = { g with ofile := update g.ofile fd' (some f) } := hg
      refine .bind (env_spec ⟨trivial,hpos,hkind⟩ fun _ g' hg => ?_)
      obtain rfl : g' = Hold.setFref { g with ofile := update g.ofile fd' (some f) } f (g.fref f + 1) (g.kind f) := hg
      refine hQ _ _ (Idle.reslot hi (fun f' hne => ⟨?_,fun heq => hne (Option.some.inj heq).symm⟩) ?_ fun _ => hkind)
      · rw [hfree]
        nofun
      · rw [hfree,if_neg nofun,if_pos rfl]

theorem kind_ip {x : File} (h : x.type = .inode ∨ x.type = .device) : x.kind.ip = some x.ip := by
  unfold File.kind
  rcases h with h | h <;> rw [h] <;> rfl

theorem kind_inode {x : File} : x.kind = .inode ip ↔ x.type = .inode ∧ x.ip = ip := by
  unfold File.kind
  cases x.type <;> simp

theorem kind_pipe {x : File} (h : x.type = .pipe) : x.kind = .pipe x.pipe x.readable x.writable := by
  unfold File.kind
  rw [h]

theorem sysFstat_spec (hi : g.Idle) {fd : ℤ} {addr : ℕ} (hQ : ∀ v, Q v g) :
    (sysFstat sb fd addr).ensures (holdMoves β (full fork)) Q g := by
  refine .bind (proc_spec fun p hp _ => ?_)
  split
  · exact hQ _
  rename_i k f hfd
  obtain ⟨hpos,-⟩ := Idle.fref_pos hi (hp ▸ argfd_eq_some hfd)
  refine .bind (file_spec hpos fun x hx => ?_)
  split
  · rename_i htype
    have hip : (g.kind f).ip = some x.ip := hx ▸ kind_ip htype
    have hs := spare_of_kind hpos hip (congrFun hi.lock x.ip)
    refine .bind (ilock_spec (g := g) (r := g.iref) (l := g.lock) sb trivial hs (Quiet.bind (Quiet.inode _) fun i => ?_))
    exact .bind (iunlock_spec trivial (Quiet.bind (Quiet.copyout _ _) fun _ => hQ _))
  · exact hQ _

theorem sysRead_spec (hi : g.Idle) {fd : ℤ} {addr : ℕ} {n : ℤ} (hQ : ∀ v, Q v g) :
    (sysRead sb fd addr n).ensures (holdMoves β (full fork)) Q g := by
  refine .bind (proc_spec fun p hp _ => ?_)
  split
  · exact hQ _
  rename_i k f hfd
  obtain ⟨hpos,-⟩ := Idle.fref_pos hi (hp ▸ argfd_eq_some hfd)
  refine .bind (file_spec hpos fun x hx => ?_)
  split
  · exact hQ _
  split
  · rename_i htype
    exact env_spec ⟨f,_,_,hpos,hx.symm.trans (kind_pipe htype)⟩ fun v _ hg => hg ▸ hQ v
  · split
    · exact hQ _
    · exact env_spec trivial fun v _ hg => hg ▸ hQ v
  · rename_i htype
    have hip : (g.kind f).ip = some x.ip := hx ▸ kind_ip (.inl htype)
    have hs := spare_of_kind hpos hip (congrFun hi.lock x.ip)
    refine .bind (ilock_spec (g := g) (r := g.iref) (l := g.lock) sb trivial hs (.bind (file_spec hpos fun x' hx' => ?_)))
    -- `f` still refers to the inode that was locked
    have hsame : x'.ip = x.ip := (kind_inode.mp (hx'.trans (hx.symm.trans (kind_inode.mpr ⟨htype,rfl⟩)))).2
    refine Quiet.bind (Quiet.readi sb _ _ _ _) fun a => ?_
    have hunlock : ∀ v : ℤ, Prog.ensures (holdMoves β (full fork)) ((iunlock x'.ip).bind fun _ => pure v) Q
        (g.refs g.iref (g.lock + Pi.single x.ip 1)) := fun v => by
      rw [hsame]
      exact .bind (iunlock_spec trivial (hQ v))
    split
    · split
      · exact Quiet.bind (Quiet.setOff _ _) fun _ => hunlock _
      · exact hunlock _
    · exact hunlock _
  · exact panic_spec

theorem filewriteLoop_spec {P : ℕ → Hold → Prop} {addr n fuel i : ℕ} (hlock : g.lock = 0) (hpos : 0 < g.fref f)
    (hk : g.kind f = .inode ip)
    (hP : ∀ v, P v g) : (filewriteLoop sb f addr n fuel i).ensures (holdMoves β (full fork)) P g := by
  induction fuel generalizing i with
  | zero => exact hP _
  | succ fuel ih =>
    rw [filewriteLoop]
    split
    · refine Quiet.bind Quiet.beginOp fun _ => .bind (file_spec hpos fun x hx => ?_)
      have hx : x.ip = ip := (kind_inode.mp (hx.trans hk)).2
      have hip : (g.kind f).ip = some x.ip := by rw [hk,hx,Kind.ip]
      have hs := spare_of_kind hpos hip (congrFun hlock x.ip)
      refine .bind (ilock_spec (g := g) (r := g.iref) (l := g.lock) sb trivial hs (.bind (file_spec hpos fun x' hx' => ?_)))
      have hx' : x'.ip = x.ip := (kind_inode.mp (hx'.trans hk)).2.trans hx.symm
      have hrest : ∀ a : Option ℕ, Prog.ensures (holdMoves β (full fork)) ((iunlock x'.ip).bind fun _ => endOp.bind fun _ =>
          if a = some (min (n - i) filewriteMax) then filewriteLoop sb f addr n fuel (i + min (n - i) filewriteMax) else pure i)
          P (g.refs g.iref (g.lock + Pi.single x.ip 1)) := by
        intro a
        rw [hx']
        refine .bind (iunlock_spec trivial (Quiet.bind Quiet.endOp fun _ => ?_))
        split
        · exact ih
        · exact hP _
      refine Quiet.bind (Quiet.writei sb _ _ _ _) fun a => ?_
      cases a with
      | none => exact hrest none
      | some tot =>
        rcases Nat.eq_zero_or_pos tot with rfl | htot
        · exact hrest (some 0)
        · dsimp only
          rw [if_pos htot]
          exact Quiet.bind (Quiet.setOff _ _) fun _ => hrest (some tot)
    · exact hP _

theorem sysWrite_spec (hi : g.Idle) {fd : ℤ} {addr : ℕ} {n : ℤ} (hQ : ∀ v, Q v g) :
    (sysWrite sb fd addr n).ensures (holdMoves β (full fork)) Q g := by
  refine .bind (proc_spec fun p hp _ => ?_)
  split
  · exact hQ _
  rename_i k f hfd
  obtain ⟨hpos,-⟩ := Idle.fref_pos hi (hp ▸ argfd_eq_some hfd)
  refine .bind (file_spec hpos fun x hx => ?_)
  split
  · exact hQ _
  split
  · rename_i htype
    exact env_spec ⟨f,_,_,hpos,hx.symm.trans (kind_pipe htype)⟩ fun v _ hg => hg ▸ hQ v
  · split
    · exact hQ _
    · exact env_spec trivial fun v _ hg => hg ▸ hQ v
  · rename_i htype
    have hk : g.kind f = .inode x.ip := hx.symm.trans (kind_inode.mpr ⟨htype,rfl⟩)
    exact .bind (filewriteLoop_spec sb hi.lock hpos hk fun _ => hQ _)
  · exact panic_spec

/-! ## `fork` and `exit` -/

theorem forkFiles_spec {P : Unit → Hold → Prop} {fs : List (Option (Fin NFILE))}
    (hfs : ∀ f, some f ∈ fs → 0 < g.fref f ∧ g.kind f ≠ .fresh)
    (hP : P () { g with fref := fun f => g.fref f + fs.count (some f) }) :
      (forkFiles fs).ensures (holdMoves β (full fork)) P g := by
  induction fs generalizing g with
  | nil => exact hP
  | cons x fs ih =>
    cases x with
    | none =>
      refine ih (fun f hf => hfs f (List.mem_cons_of_mem _ hf)) ?_
      simpa using hP
    | some f =>
      obtain ⟨hpos,hk⟩ := hfs f List.mem_cons_self
      refine .bind (env_spec ⟨trivial,hpos,hk⟩ fun _ g' hg => ?_)
      obtain rfl : g' = g.setFref f (g.fref f + 1) (g.kind f) := hg
      have hkind : (g.setFref f (g.fref f + 1) (g.kind f)).kind = g.kind := update_eq_self ..
      refine ih (fun f' hf' => ?_) ?_
      · obtain ⟨hpos',hk'⟩ := hfs f' (List.mem_cons_of_mem _ hf')
        rw [hkind]
        refine ⟨?_,hk'⟩
        rcases eq_or_ne f' f with rfl | hne
        · simp [Hold.setFref]
        · simpa [Hold.setFref,hne] using hpos'
      · have hfref : (fun f' => (g.setFref f (g.fref f + 1) (g.kind f)).fref f' + fs.count (some f')) =
            fun f' => g.fref f' + (some f :: fs).count (some f') := by
          funext f'
          rcases eq_or_ne f' f with rfl | hne
          · simp [Hold.setFref]
            omega
          · simp [Hold.setFref,hne,hne.symm]
        rw [hkind,hfref]
        exact hP

theorem count_ofile (o : Fin NOFILE → Option (Fin NFILE)) (f : Fin NFILE) :
    ((List.finRange NOFILE).map o).count (some f) = slots o f := by
  have huniv : (Finset.univ : Finset (Fin NOFILE)).val = ↑(List.finRange NOFILE) := rfl
  rw [List.count,List.countP_map,List.countP_eq_length_filter,slots,Finset.card_def,Finset.filter_val,huniv,
    Multiset.filter_coe,Multiset.coe_card]
  exact congrArg List.length (List.filter_congr fun fd _ => by rw [Bool.eq_iff_iff]; simp)

theorem sysFork_spec (hi : g.Idle) {child : Pid} (hQ : ∀ v h, h.Idle → Q v h) :
    (sysFork child).ensures (holdMoves β (full True)) Q g := by
  obtain ⟨cwd,hcwd,hiref⟩ := hi.cwd
  refine .bind (proc_spec fun p hp hpc => ?_)
  split
  · exact panic_spec
  rename_i cwd' hcwd'
  obtain rfl : cwd = cwd' := Option.some.inj (hcwd.symm.trans (hpc.symm.trans hcwd'))
  rw [hp]
  refine .bind (forkFiles_spec (fun f hf => ?_) ?_)
  · obtain ⟨fd,-,hfd⟩ := List.mem_map.mp hf
    exact Idle.fref_pos hi hfd
  have hfref : (fun f => g.fref f + ((List.finRange NOFILE).map g.ofile).count (some f)) = g.fref + slots g.ofile := by
    funext f
    rw [count_ofile,Pi.add_apply]
  rw [hfref]
  refine .bind (env_spec ⟨trivial,?_⟩ fun _ g' hg => ?_)
  · simp [hiref]
  obtain rfl : g' = { g with fref := g.fref + slots g.ofile, iref := g.iref + Pi.single cwd 1 } := hg
  refine .bind (env_spec ⟨trivial,fun f => Nat.le_add_left _ _,fun fd f hfd => (Idle.fref_pos hi hfd).2,
    fun ip => congrFun hi.lock ip,
    cwd,hcwd,?_⟩ fun _ g' hg => ?_)
  · simp
  · obtain ⟨ip,hip,rfl⟩ := hg
    obtain rfl : cwd = ip := Option.some.inj (hcwd.symm.trans hip)
    refine hQ _ _ ⟨fun f => ?_,fun f hf => hi.kind f ?_,⟨cwd,hcwd,?_⟩,hi.lock,hi.ends⟩
    · simpa using hi.fref f
    · simpa using hf
    · simpa using hiref

theorem exitFiles_spec {P : Unit → Hold → Prop} {fds : List (Fin NOFILE)} (hi : g.Idle)
    (hP : ∀ h, h.Idle → (∀ fd, fd ∈ fds ∨ g.ofile fd = none → h.ofile fd = none) → P () h) :
    (exitFiles sb fds).ensures (holdMoves β (full fork)) P g := by
  induction fds generalizing g with
  | nil => exact hP g hi fun fd h => h.resolve_left List.not_mem_nil
  | cons fd fds ih =>
    refine .bind (proc_spec fun p hp _ => ?_)
    rw [hp]
    cases hfd : g.ofile fd with
    | none =>
      refine ih hi fun h hh hnone => hP h hh fun fd' hfd' => hnone fd' ?_
      rcases hfd' with hmem | hold
      · rcases List.mem_cons.mp hmem with rfl | hmem
        · exact .inr hfd
        · exact .inl hmem
      · exact .inr hold
    | some f =>
      obtain ⟨hpos,hk⟩ := Idle.fref_pos hi hfd
      refine .bind (fileclose_spec sb hpos hk hi.lock (.bind (env_spec trivial fun _ g' hg => ?_)))
      obtain rfl : g' = Hold.setFref { g with ofile := update g.ofile fd none } f (g.fref f - 1) (g.kind f) := hg
      refine ih (Idle.closed hi hfd) fun h hh hnone => hP h hh fun fd' hfd' => hnone fd' ?_
      rcases eq_or_ne fd' fd with rfl | hne
      · exact .inr (update_self ..)
      · rcases hfd' with hmem | hold
        · exact .inl ((List.mem_cons.mp hmem).resolve_left hne)
        · exact .inr ((update_of_ne hne ..).trans hold)

theorem sysExit_spec (hi : g.Idle) (hQ : ∀ v h, h.Gone → Q v h) : (sysExit sb).ensures (holdMoves β (full fork)) Q g := by
  refine .bind (exitFiles_spec sb hi fun h hh hnone => Quiet.bind Quiet.beginOp fun _ => .bind (proc_spec fun p hp hpc => ?_))
  have hofile : ∀ fd, h.ofile fd = none := fun fd => hnone fd (.inl (List.mem_finRange fd))
  obtain ⟨cwd,hcwd,hiref⟩ := hh.cwd
  split
  · exact panic_spec
  rename_i cwd' hcwd'
  obtain rfl : cwd = cwd' := Option.some.inj (hcwd.symm.trans (hpc.symm.trans hcwd'))
  have hstate : h = h.refs (0 + Pi.single cwd 1) 0 := by
    rw [zero_add,← hiref,← hh.lock]
    rfl
  rw [hstate]
  refine .bind (iput_spec sb trivial (covered_of_le le_rfl) (Quiet.bind Quiet.endOp fun _ => .bind
    (env_spec trivial fun _ g' hg => ?_)))
  obtain rfl : g' = Hold.refs { h with cwd := none } 0 0 := hg
  refine hQ _ _ ⟨?_,rfl,rfl,hh.ends,hofile,rfl⟩
  funext f
  show h.fref f = 0
  rw [hh.fref f]
  simp [slots,hofile]

/-! ## `open` -/

theorem openInode_spec {path : List Byte} {omode : BitVec 32} {P : Option (Fin NINODE) → Hold → Prop} (hR : R.inodes)
    (hc : g.Covered r l) (hcwd : ∀ cwd, g.cwd = some cwd → 0 < r cwd) (hnone : P none (g.refs r l))
    (hsome : ∀ ip, P (some ip) (g.refs (r + Pi.single ip 1) (l + Pi.single ip 1))) :
    (openInode sb path omode).ensures (holdMoves β R) P (g.refs r l) := by
  rw [openInode]
  split
  · exact create_spec sb hR hc hcwd hnone hsome
  · refine .bind (namei_spec sb hR hc hcwd hnone fun ip => .bind
      (ilock_spec sb hR (spare hc) (Quiet.bind (Quiet.inode _) fun i => ?_)))
    split
    · exact .bind (iunlockput_spec sb hR hc hnone)
    · exact hsome ip

theorem fileclose_fresh_spec {P : Unit → Hold → Prop} (hf : 0 < g.fref f) (hk : g.kind f = .fresh)
    (hP : P () (g.setFref f 0 .fresh)) : (fileclose sb f).ensures (holdMoves β (full fork)) P g := by
  refine .bind (env_spec ⟨trivial,hf,fun ip hip => absurd hip (hk ▸ Kind.ip_fresh ip)⟩ fun last g' hg => ?_)
  cases last with
  | none => exact absurd hk hg.1
  | some ff =>
    obtain ⟨hff,-,rfl⟩ : ff.kind = g.kind f ∧ g.fref f = 1 ∧ g' = (g.setFref f 0 (g.kind f)).unwrap (g.kind f) := hg
    have htype : ff.type = .none := Coupled.kind_eq_fresh.mp (hff.trans hk)
    rw [hk]
    simp only [htype]
    exact hP

theorem Idle.discarded (hi : g.Idle) (hfree : g.fref f = 0) : ((g.setFref f 1 .fresh).setFref f 0 .fresh).Idle := by
  refine ⟨fun f' => ?_,fun f' hf' => ?_,hi.cwd,hi.lock,hi.ends⟩
  · rw [← show slots g.ofile f' = slots ((g.setFref f 1 .fresh).setFref f 0 .fresh).ofile f' from rfl,← hi.fref f']
    rcases eq_or_ne f' f with rfl | hne
    · simp [Hold.setFref,hfree]
    · simp [Hold.setFref,hne]
  · rcases eq_or_ne f' f with rfl | hne
    · simp [Hold.setFref] at hf'
    · simp only [Hold.setFref,update_of_ne hne] at hf' ⊢
      exact hi.kind f' hf'

theorem initFile_spec (hi : g.Idle) {cwd : Fin NINODE} {fd : Fin NOFILE} {type : FileType} {readable writable : Bool}
    {off : BitVec 32}
    {major : BitVec 16} {c : Unit → Code β ℤ} (hiref : g.iref = Pi.single cwd 1) (hfree : g.fref f = 0) (hfd : g.ofile fd = none)
    (htype : type = .inode ∨ type = .device) (hc : ∀ h : Hold, h.Idle → h.iref = Pi.single cwd 1 →
      (c ()).ensures (holdMoves β (full fork)) Q (h.refs (Pi.single cwd 1) (0 + Pi.single ip 1))) :
    ((env (.initFile f type readable writable ip off major)).bind c).ensures (holdMoves β (full fork)) Q
      (Hold.refs { g.setFref f 1 .fresh with ofile := update g.ofile fd (some f) } (Pi.single cwd 1 + Pi.single ip 1)
        (0 + Pi.single ip 1)) := by
  have hpos : 0 < (g.setFref f 1 .fresh).fref f := by simp [Hold.setFref]
  have hkind : (g.setFref f 1 .fresh).kind f = .fresh := update_self ..
  refine .bind (env_spec ⟨trivial,trivial,hpos,hkind,pos_add_single,htype⟩ fun _ g' hg => ?_)
  obtain ⟨-,rfl⟩ := hg
  generalize hk : (if type = .inode then Kind.inode ip else .device ip) = k
  have hk' : k ≠ .fresh := by
    rw [← hk]
    split <;> simp
  have hdone : (Hold.setFref { g with ofile := update g.ofile fd (some f) } f 1 k).Idle := by
    refine Idle.reslot hi (fun f' hne => ⟨?_,fun heq => hne (Option.some.inj heq).symm⟩) ?_ fun _ => hk'
    · rw [hfd]
      exact (Option.some_ne_none f').symm
    · rw [hfd,if_neg (Option.some_ne_none f).symm,if_pos rfl,hfree]
  have hstate : Hold.drop (Hold.setFref (Hold.refs { g.setFref f 1 .fresh with ofile := update g.ofile fd (some f) }
      (Pi.single cwd 1 + Pi.single ip 1) (0 + Pi.single ip 1)) f 1 k) ip =
      Hold.refs (Hold.setFref { g with ofile := update g.ofile fd (some f) } f 1 k) (Pi.single cwd 1) (0 + Pi.single ip 1) := by
    simp [Hold.drop,Hold.setFref,Hold.refs]
  rw [hstate]
  exact hc _ hdone hiref

theorem sysOpen_spec (hi : g.Idle) {path : Option (List Byte)} {omode : BitVec 32} (hQ : ∀ v h, h.Idle → Q v h) :
    (sysOpen sb path omode).ensures (holdMoves β (full fork)) Q g := by
  obtain ⟨cwd,hcwd,hiref⟩ := hi.cwd
  have hidle : ∀ h : Hold, h.Idle → h.iref = Pi.single cwd 1 → ∀ v, Q v (h.refs (Pi.single cwd 1) 0) := fun h hh hr v => by
    have hstate : h.refs (Pi.single cwd 1) 0 = h := by
      rw [← hr,← hh.lock]
      rfl
    exact hQ v _ (hstate.symm ▸ hh)
  have hstate : g = g.refs (Pi.single cwd 1) 0 := by
    rw [← hiref,← hi.lock]
    rfl
  have hzero : ∀ h : Hold, h.Covered (Pi.single cwd 1) 0 := fun h => covered_of_le fun _ => Nat.zero_le _
  rw [sysOpen]
  split
  · exact hQ _ _ hi
  rw [hstate]
  refine Quiet.bind Quiet.beginOp fun _ => .bind (openInode_spec sb trivial (hzero g) (fun cwd' h => ?_)
    (end_spec (hidle g hi hiref _)) fun ip => ?_)
  · rw [← Option.some.inj (hcwd.symm.trans h)]
    simp
  refine Quiet.bind (Quiet.inode _) fun i => ?_
  split
  · exact .bind (iunlockput_spec sb trivial (hzero g) (end_spec (hidle g hi hiref _)))
  refine .bind (env_spec trivial fun file g' hg => ?_)
  cases file with
  | none =>
    obtain rfl : g' = _ := hg
    exact .bind (iunlockput_spec sb trivial (hzero g) (end_spec (hidle g hi hiref _)))
  | some f =>
    obtain ⟨hfree,rfl⟩ : g.fref f = 0 ∧
      g' = (g.setFref f 1 .fresh).refs (Pi.single cwd 1 + Pi.single ip 1) (0 + Pi.single ip 1) := hg
    have hpos : 0 < (g.setFref f 1 .fresh).fref f := by simp [Hold.setFref]
    refine .bind (env_spec trivial fun fd g' hg => ?_)
    cases fd with
    | none =>
      obtain rfl : g' = _ := hg
      refine .bind (fileclose_fresh_spec sb hpos (update_self ..) ?_)
      exact .bind (iunlockput_spec (g := (g.setFref f 1 .fresh).setFref f 0 .fresh) sb trivial (hzero _)
        (end_spec (hidle _ (Idle.discarded hi hfree) hiref _)))
    | some fd =>
      obtain ⟨hfd,rfl⟩ : g.ofile fd = none ∧ g' = Hold.refs { g.setFref f 1 .fresh with ofile := update g.ofile fd (some f) }
        (Pi.single cwd 1 + Pi.single ip 1) (0 + Pi.single ip 1) := hg
      have hlast : ∀ h : Hold, h.Idle → h.iref = Pi.single cwd 1 → Prog.ensures (holdMoves β (full fork))
          ((iunlock ip).bind fun _ => endOp.bind fun _ => pure (fd.val : ℤ)) Q (h.refs (Pi.single cwd 1) (0 + Pi.single ip 1)) :=
        fun h hh hr => .bind (iunlock_spec trivial (end_spec (hidle h hh hr _)))
      refine .bind (file_spec hpos fun x _ => ?_)
      dsimp only
      by_cases hdev : i.din.type = T_DEVICE
      · rw [if_pos hdev]
        refine initFile_spec hi hiref hfree hfd (.inr rfl) fun h hh hr => ?_
        split
        · exact Quiet.bind (Quiet.itrunc sb ip) fun _ => hlast h hh hr
        · exact hlast h hh hr
      · rw [if_neg hdev]
        refine initFile_spec hi hiref hfree hfd (.inl rfl) fun h hh hr => ?_
        split
        · exact Quiet.bind (Quiet.itrunc sb ip) fun _ => hlast h hh hr
        · exact hlast h hh hr

end Descriptors

def post : Call → Hold → Prop
  | .exit, h => h.Gone
  | _, h => h.Idle

theorem code_spec (c : Call) (hc : ∀ d, c = .fork d → fork) (hi : g.Idle) :
    (c.code sb : Code β ℤ).ensures (holdMoves β (full fork)) (fun _ h => post c h) g := by
  obtain ⟨cwd,hcwd,hiref⟩ := id hi.cwd
  have hpos : ∀ cwd', g.cwd = some cwd' → 0 < g.iref cwd' := fun cwd' h => by
    rw [← Option.some.inj (hcwd.symm.trans h),hiref,Pi.single_eq_same]
    exact Nat.one_pos
  have hcov : g.Covered g.iref g.lock := covered_of_le (hi.lock ▸ Pi.le_def.mpr fun _ => Nat.zero_le _)
  cases c with
  | «open» path omode => exact sysOpen_spec sb hi fun _ _ h => h
  | mkdir path => exact sysMake_spec (g := g) sb trivial hcov hpos fun _ => hi
  | mknod path major minor => exact sysMake_spec (g := g) sb trivial hcov hpos fun _ => hi
  | link old new => exact sysLink_spec (g := g) sb trivial hcov hpos fun _ => hi
  | unlink path => exact sysUnlink_spec (g := g) sb trivial hcov hpos fun _ => hi
  | chdir path =>
    have hstate : g = g.refs (0 + Pi.single cwd 1) g.lock := by
      rw [zero_add,← hiref]
      rfl
    have hzero : g.Covered 0 g.lock := covered_of_le (hi.lock ▸ le_rfl)
    rw [hstate]
    refine sysChdir_spec sb trivial hzero hcwd (fun _ => hstate ▸ hi) fun ip => ?_
    exact ⟨hi.fref,hi.kind,⟨ip,rfl,zero_add _⟩,hi.lock,hi.ends⟩
  | close fd => exact sysClose_spec sb hi fun _ _ h => h
  | exit => exact sysExit_spec sb hi fun _ _ h => h
  | dup fd => exact sysDup_spec hi fun _ _ h => h
  | fork child =>
    have : fork = True := eq_true (hc child rfl)
    subst this
    exact sysFork_spec hi fun _ _ h => h
  | read fd addr n => exact sysRead_spec sb hi fun _ => hi
  | write fd addr n => exact sysWrite_spec sb hi fun _ => hi
  | fstat fd addr => exact sysFstat_spec sb hi fun _ => hi
  | exec path reads => exact sysExec_spec (g := g) sb trivial hcov hpos fun _ => hi

end Xv6.Refs
