import Xv6.Sys.Quiet

/-! # References of the file system calls

Every exit of the path functions and of the calls gives back the references and locks taken so far.
In the rules below `r` counts references to inodes and `l` locks; the postcondition is what the rest
of the call needs.
-/
namespace Xv6.Refs
open Library

variable {β : Type} {R : Rights} (sb : Superblock) {g : Hold} {r l : Fin NINODE → ℕ} {ip dp : Fin NINODE} {Q : Unit → Hold → Prop}

/-! ## Operations -/

theorem env_spec {o : EnvOp} {Q : o.Res → Hold → Prop} (hs : g.safe R o) (h : ∀ a g', g.step o a g' → Q a g') :
    (env o : Code β o.Res).ensures (holdMoves β R) Q g := ⟨hs,h⟩

theorem iget_spec {dev inum : ℕ} {Q : Fin NINODE → Hold → Prop} (hR : R.inodes)
    (h : ∀ ip, Q ip (g.refs (r + Pi.single ip 1) l)) :
    (env (.iget dev inum) : Code β (Fin NINODE)).ensures (holdMoves β R) Q (g.refs r l) :=
  env_spec hR fun ip _ hg => hg ▸ h ip

theorem idup_spec (hR : R.inodes) (hr : 0 < r ip) (h : Q () (g.refs (r + Pi.single ip 1) l)) :
    (env (.idup ip) : Code β Unit).ensures (holdMoves β R) Q (g.refs r l) :=
  env_spec ⟨hR,hr⟩ fun _ _ hg => hg ▸ h

theorem proc_spec {Q : Proc → Hold → Prop} (h : ∀ p, p.ofile = g.ofile → p.cwd = g.cwd → Q p g) :
    (env .proc : Code β Proc).ensures (holdMoves β R) Q g :=
  env_spec trivial fun p _ hg => hg.2.2 ▸ h p hg.1 hg.2.1

theorem file_spec {f : Fin NFILE} {Q : File → Hold → Prop} (hf : 0 < g.fref f) (h : ∀ x, x.kind = g.kind f → Q x g) :
    (env (.file f) : Code β File).ensures (holdMoves β R) Q g :=
  env_spec trivial fun x _ hg => hg.2 ▸ h x (hg.1 hf)

theorem panic_spec {α : Type} {q : Panic} {Q : α → Hold → Prop} :
    (panic q : Code β α).ensures (holdMoves β R) Q g := ⟨trivial,nofun⟩

theorem release_refs : (g.refs r (l + Pi.single ip 1)).release ip = g.refs r l := by
  simp only [Hold.release,Hold.refs,add_tsub_cancel_right]

theorem drop_refs : (g.refs (r + Pi.single ip 1) l).drop ip = g.refs r l := by
  simp only [Hold.drop,Hold.refs,add_tsub_cancel_right]

theorem pos_add_single : 0 < (r + (Pi.single ip 1 : Fin NINODE → ℕ)) ip := by
  rw [Pi.add_apply,Pi.single_eq_same]
  exact Nat.succ_pos _

theorem spare (hc : g.Covered r l) : (g.refs (r + Pi.single ip 1) l).Spare ip := by
  have := hc ip
  show l ip < (r + (Pi.single ip 1 : Fin NINODE → ℕ)) ip + g.filed ip
  rw [Pi.add_apply,Pi.single_eq_same]
  omega

/-! ## Inodes -/

theorem ilock_spec (hR : R.inodes) (hs : (g.refs r l).Spare ip)
    (h : Q () (g.refs r (l + Pi.single ip 1))) : (ilock sb ip).ensures (holdMoves β R) Q (g.refs r l) := by
  refine .bind (env_spec ⟨hR,hs⟩ fun _ g' hg => ?_)
  obtain rfl : g' = g.refs r (l + Pi.single ip 1) := hg
  refine Quiet.bind (Quiet.inode _) fun i => ?_
  split
  · exact h
  · refine Quiet.bind (Quiet.bread _) fun bp => Quiet.bind (Quiet.bdata _) fun d => Quiet.bind (Quiet.brelse _) fun _ =>
      Quiet.bind (Quiet.setInode _ _ _) fun _ => ?_
    split
    · exact panic_spec
    · exact h

theorem iunlock_spec (hR : R.inodes) (h : Q () (g.refs r l)) :
    (iunlock ip).ensures (holdMoves β R) Q (g.refs r (l + Pi.single ip 1)) := by
  refine env_spec ⟨hR,pos_add_single⟩ fun _ g' hg => ?_
  obtain rfl : g' = (g.refs r (l + Pi.single ip 1)).release ip := hg
  rwa [release_refs]

/-- Both branches of `iput` end without the reference; the one that frees the inode holds its lock
in between. -/
theorem iput_spec (hR : R.inodes) (hc : g.Covered r l) (h : Q () (g.refs r l)) :
    (iput sb ip).ensures (holdMoves β R) Q (g.refs (r + Pi.single ip 1) l) := by
  refine .bind (env_spec ⟨hR,pos_add_single,spare hc⟩ fun free g' hg => ?_)
  cases free with
  | false =>
    obtain rfl : g' = (g.refs (r + Pi.single ip 1) l).drop ip := hg
    rw [drop_refs]
    exact h
  | true =>
    obtain rfl : g' = g.refs (r + Pi.single ip 1) (l + Pi.single ip 1) := hg
    refine Quiet.bind (Quiet.itrunc sb ip) fun _ => Quiet.bind (Quiet.inode _) fun i => Quiet.bind (Quiet.setDin _ _) fun _ =>
      Quiet.bind (Quiet.iupdate sb ip) fun _ => Quiet.bind (Quiet.inode _) fun i => Quiet.bind (Quiet.setInode _ _ _) fun _ => ?_
    refine .bind (env_spec ⟨hR,pos_add_single⟩ fun _ g' hg => ?_)
    obtain rfl : g' = (g.refs (r + Pi.single ip 1) (l + Pi.single ip 1)).release ip := hg
    rw [release_refs]
    refine env_spec ⟨hR,pos_add_single,spare hc⟩ fun _ g' hg => ?_
    obtain rfl : g' = (g.refs (r + Pi.single ip 1) l).drop ip := hg
    rwa [drop_refs]

theorem iunlockput_spec (hR : R.inodes) (hc : g.Covered r l) (h : Q () (g.refs r l)) :
    (iunlockput sb ip).ensures (holdMoves β R) Q (g.refs (r + Pi.single ip 1) (l + Pi.single ip 1)) :=
  .bind (iunlock_spec hR (iput_spec sb hR hc h))

theorem ialloc_spec {dev : ℕ} {type : BitVec 16} {Q : Option (Fin NINODE) → Hold → Prop} (hR : R.inodes)
    (hnone : Q none (g.refs r l)) (hsome : ∀ ip, Q (some ip) (g.refs (r + Pi.single ip 1) l)) :
    (ialloc sb dev type).ensures (holdMoves β R) Q (g.refs r l) := by
  rw [ialloc]
  induction List.range' 1 (sb.ninodes - 1) with
  | nil => exact hnone
  | cons inum rest ih =>
    refine Quiet.bind (Quiet.bread _) fun bp => Quiet.bind (Quiet.bdata _) fun d => ?_
    split
    · exact Quiet.bind (Quiet.setData _ _) fun _ => Quiet.bind (Quiet.logWrite _) fun _ => Quiet.bind (Quiet.brelse _) fun _ =>
        .bind (iget_spec hR hsome)
    · exact Quiet.bind (Quiet.brelse _) fun _ => ih

/-! ## Directories and paths -/

theorem dirlookup_spec {name : List Byte} {Q : Option (Fin NINODE × ℕ) → Hold → Prop} (hR : R.inodes)
    (hnone : Q none (g.refs r l)) (hsome : ∀ ip off, Q (some (ip,off)) (g.refs (r + Pi.single ip 1) l)) :
    (dirlookup sb dp name).ensures (holdMoves β R) Q (g.refs r l) := by
  have hloop : ∀ fuel off, (dirlookupFrom sb dp name fuel off).ensures (holdMoves β R) Q (g.refs r l) := by
    intro fuel
    induction fuel with
    | zero => exact fun _ => hnone
    | succ fuel ih =>
      intro off
      refine Quiet.bind (Quiet.inode _) fun d => ?_
      split
      · refine Quiet.bind (Quiet.readi sb _ _ _ _) fun x => ?_
        split
        · exact panic_spec
        · dsimp only
          split
          · exact ih _
          · split
            · exact .bind (iget_spec hR fun ip => hsome ip off)
            · exact ih _
      · exact hnone
  refine Quiet.bind (Quiet.inode _) fun d => ?_
  split
  · exact panic_spec
  · exact hloop _ _

theorem dirlink_spec {name : List Byte} {inum : ℕ} {Q : Bool → Hold → Prop} (hR : R.inodes) (hc : g.Covered r l)
    (h : ∀ ok, Q ok (g.refs r l)) : (dirlink sb dp name inum).ensures (holdMoves β R) Q (g.refs r l) := by
  refine .bind (dirlookup_spec sb hR ?_ fun ip off => ?_)
  · exact Quiet.bind (Quiet.inode _) fun d => Quiet.bind (Quiet.dirlinkFrom sb _ _ _) fun off =>
      Quiet.bind (Quiet.writei sb _ _ _ _) fun _ => h _
  · exact .bind (iput_spec sb hR hc (h _))

theorem namexLoop_spec {np : Bool} {elems : List (List Byte)} {Q : Option (Fin NINODE × List Byte) → Hold → Prop}
    (hR : R.inodes) (hc : g.Covered r l) (hnone : Q none (g.refs r l))
    (hsome : ∀ ip name, Q (some (ip,name)) (g.refs (r + Pi.single ip 1) l)) :
    (namexLoop sb np ip elems).ensures (holdMoves β R) Q (g.refs (r + Pi.single ip 1) l) := by
  induction elems generalizing ip with
  | nil =>
    rw [namexLoop]
    split
    · exact .bind (iput_spec sb hR hc hnone)
    · exact hsome _ _
  | cons name rest ih =>
    refine .bind (ilock_spec sb hR (spare hc) (Quiet.bind (Quiet.inode _) fun i => ?_))
    split
    · exact .bind (iunlockput_spec sb hR hc hnone)
    split
    · exact .bind (iunlock_spec hR (hsome _ _))
    refine .bind (dirlookup_spec sb hR ?_ fun next off => ?_)
    · exact .bind (iunlockput_spec sb hR hc hnone)
    · -- the next inode is referenced before the last one is let go
      rw [add_right_comm]
      exact .bind (iunlockput_spec sb hR (hc.add _) ih)

theorem namex_spec {path : List Byte} {np : Bool} {Q : Option (Fin NINODE × List Byte) → Hold → Prop} (hR : R.inodes)
    (hc : g.Covered r l) (hcwd : ∀ cwd, g.cwd = some cwd → 0 < r cwd) (hnone : Q none (g.refs r l))
    (hsome : ∀ ip name, Q (some (ip,name)) (g.refs (r + Pi.single ip 1) l)) :
    (namex sb path np).ensures (holdMoves β R) Q (g.refs r l) := by
  rw [namex]
  split
  · exact .bind (iget_spec hR fun ip => namexLoop_spec sb hR hc hnone hsome)
  · refine .bind (proc_spec fun p _ hp => ?_)
    split
    · exact panic_spec
    · rename_i cwd hsome'
      have hpos : 0 < r cwd := hcwd cwd (hp.symm.trans hsome')
      exact .bind (idup_spec hR hpos (namexLoop_spec sb hR hc hnone hsome))

theorem namei_spec {path : List Byte} {Q : Option (Fin NINODE) → Hold → Prop} (hR : R.inodes) (hc : g.Covered r l)
    (hcwd : ∀ cwd, g.cwd = some cwd → 0 < r cwd) (hnone : Q none (g.refs r l))
    (hsome : ∀ ip, Q (some ip) (g.refs (r + Pi.single ip 1) l)) :
    (namei sb path).ensures (holdMoves β R) Q (g.refs r l) :=
  .bind (namex_spec sb hR hc hcwd hnone fun ip _ => hsome ip)

/-! ## `create` -/

theorem create_spec {path : List Byte} {type major minor : BitVec 16} {Q : Option (Fin NINODE) → Hold → Prop}
    (hR : R.inodes) (hc : g.Covered r l) (hcwd : ∀ cwd, g.cwd = some cwd → 0 < r cwd) (hnone : Q none (g.refs r l))
    (hsome : ∀ ip, Q (some ip) (g.refs (r + Pi.single ip 1) (l + Pi.single ip 1))) :
    (create sb path type major minor).ensures (holdMoves β R) Q (g.refs r l) := by
  refine .bind (namex_spec sb hR hc hcwd hnone fun dp name => ?_)
  refine .bind (ilock_spec sb hR (spare hc) (.bind (dirlookup_spec sb hR ?_ fun ip off => ?_)))
  · refine Quiet.bind (Quiet.inode _) fun d => .bind (ialloc_spec sb hR ?_ fun ip => ?_)
    · exact .bind (iunlockput_spec sb hR hc hnone)
    refine .bind (ilock_spec sb hR (spare (hc.lock dp)) (Quiet.bind (Quiet.inode _) fun i => ?_))
    refine Quiet.bind (Quiet.setDin _ _) fun _ => Quiet.bind (Quiet.iupdate sb _) fun _ => ?_
    have hcc := (hc.lock dp).lock ip
    -- whichever of the links fails, both inodes are still referenced and locked
    refine .bind (Prog.ensures.mono
      (Q := fun _ t => t = g.refs (r + Pi.single dp 1 + Pi.single ip 1) (l + Pi.single dp 1 + Pi.single ip 1)) ?_ ?_)
    · split
      · refine .bind (dirlink_spec sb hR hcc fun ok => ?_)
        split
        · exact dirlink_spec sb hR hcc fun _ => rfl
        · exact rfl
      · exact rfl
    rintro ok _ rfl
    refine .bind (Prog.ensures.mono
      (Q := fun _ t => t = g.refs (r + Pi.single dp 1 + Pi.single ip 1) (l + Pi.single dp 1 + Pi.single ip 1)) ?_ ?_)
    · split
      · exact dirlink_spec sb hR hcc fun _ => rfl
      · exact rfl
    rintro ok _ rfl
    split
    · have hrest : ∀ _ : Unit, Prog.ensures (holdMoves β R) ((iunlockput sb dp).bind fun _ => pure (some ip)) Q
          (g.refs (r + Pi.single dp 1 + Pi.single ip 1) (l + Pi.single dp 1 + Pi.single ip 1)) := by
        intro _
        rw [add_right_comm r,add_right_comm l]
        exact .bind (iunlockput_spec sb hR (hc.lock ip) (hsome ip))
      split
      · exact Quiet.bind (Quiet.inode _) fun d => Quiet.bind (Quiet.setDin _ _) fun _ => Quiet.bind (Quiet.iupdate sb _) hrest
      · exact hrest ()
    · exact Quiet.bind (Quiet.inode _) fun i => Quiet.bind (Quiet.setDin _ _) fun _ => Quiet.bind (Quiet.iupdate sb _) fun _ =>
        .bind (iunlockput_spec sb hR (hc.lock dp) (.bind (iunlockput_spec sb hR hc hnone)))
  · rw [add_right_comm]
    refine .bind (iunlockput_spec sb hR (hc.add _) (.bind (ilock_spec sb hR (spare hc)
      (Quiet.bind (Quiet.inode _) fun i => ?_))))
    split
    · exact hsome ip
    · exact .bind (iunlockput_spec sb hR hc hnone)

end Xv6.Refs
