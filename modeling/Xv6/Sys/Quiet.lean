import Xv6.Sys.Hold
import Xv6.Fs.Calm

/-! # Code that takes and gives back nothing

Blocks, bitmap, log and the content of inodes: the code below `ilock` and above the buffer cache
touches no reference and no lock of the inode table, so it leaves what its process holds alone.
-/
namespace Xv6
open Library

def Quiet (R : Rights) {β : Type} (o : Op β) : Prop :=
  ∀ g, (holdMoves β R).safe o g ∧ ∀ r g', (holdMoves β R).step o g r g' → g' = g

namespace Quiet
variable {β α : Type} {R : Rights}

theorem bind {p : Code β α} {γ : Type} {f : α → Code β γ} {Q : γ → Hold → Prop} {g : Hold} (hp : p.only (Quiet R))
    (hf : ∀ a, (f a).ensures (holdMoves β R) Q g) : (p.bind f).ensures (holdMoves β R) Q g :=
  (Prog.ensures_bind p f).mpr (hp.ensures (fun _ ho => ho g) hf)

theorem env {o : EnvOp} (h : ∀ g, Hold.safe R g o ∧ ∀ r g', Hold.step g o r g' → g' = g) :
    (Xv6.env o : Code β o.Res).only (Quiet R) := Prog.only_call h

theorem of_calm {o : Op β} (h : Calm o) : Quiet R o := by
  intro g
  cases o with
  | env o =>
    cases o with
    | inode | setInode => exact ⟨trivial,fun _ _ h => h⟩
    | _ => exact h.elim
  | copyin => exact h.elim
  | _ => exact ⟨trivial,fun _ _ h => h⟩

theorem calm {p : Code β α} (h : p.only Calm) : p.only (Quiet R) := h.mono fun _ => of_calm

theorem inode (ip : Fin NINODE) : (Xv6.env (.inode ip) : Code β Inode).only (Quiet R) := calm (Calm.inode ip)

theorem setInode (ip : Fin NINODE) (valid : Bool) (din : Dinode) :
    (Xv6.env (.setInode ip valid din) : Code β Unit).only (Quiet R) := calm (Calm.setInode ip valid din)

theorem setOff (f : Fin NFILE) (off : BitVec 32) : (Xv6.env (.setOff f off) : Code β Unit).only (Quiet R) :=
  env fun _ => ⟨trivial,fun _ _ h => h⟩

theorem copyout (dstva : ℕ) (src : List Byte) : (Xv6.env (.copyout dstva src) : Code β Bool).only (Quiet R) :=
  env fun _ => ⟨trivial,fun _ _ h => h⟩

theorem panic (q : Panic) : (Xv6.panic q : Code β α).only (Quiet R) := calm (Calm.panic q)
theorem bread (b : ℕ) : (Xv6.bread b : Code β β).only (Quiet R) := calm (Calm.bread b)
theorem brelse (b : β) : (Xv6.brelse b : Code β Unit).only (Quiet R) := calm (Calm.brelse b)
theorem bdata (b : β) : (Xv6.bdata b : Code β Block).only (Quiet R) := calm (Calm.bdata b)
theorem setData (b : β) (d : Block) : (Xv6.setData b d : Code β Unit).only (Quiet R) := calm (Calm.setData b d)
theorem beginOp : (Xv6.beginOp : Code β Unit).only (Quiet R) := calm Calm.beginOp
theorem endOp : (Xv6.endOp : Code β Unit).only (Quiet R) := calm Calm.endOp
theorem logWrite (b : β) : (Xv6.logWrite b : Code β Unit).only (Quiet R) := calm (Calm.logWrite b)

variable (sb : Superblock)

theorem iupdate (ip : Fin NINODE) : (Xv6.iupdate sb ip : Code β Unit).only (Quiet R) := calm (Calm.iupdate sb ip)
theorem setDin (ip : Fin NINODE) (din : Dinode) : (Xv6.setDin ip din : Code β Unit).only (Quiet R) :=
  calm (Calm.setDin ip din)
theorem bmap (ip : Fin NINODE) (bn : ℕ) : (Xv6.bmap sb ip bn : Code β ℕ).only (Quiet R) := calm (Calm.bmap sb ip bn)
theorem itrunc (ip : Fin NINODE) : (Xv6.itrunc sb ip : Code β Unit).only (Quiet R) := calm (Calm.itrunc sb ip)

theorem eitherCopyout (dst : Dst) (tot : ℕ) (bytes : List Byte) :
    (Xv6.eitherCopyout dst tot bytes : Code β Bool).only (Quiet R) := by
  cases dst with
  | kernel => exact trivial
  | user va => exact copyout _ _

theorem eitherCopyin (bp : β) (off : ℕ) (src : Src) (tot m : ℕ) :
    (Xv6.eitherCopyin bp off src tot m : Code β Bool).only (Quiet R) := by
  cases src with
  | kernel bytes => exact (bdata _).bind fun _ => (setData _ _).bind fun _ => trivial
  | user va => exact Prog.only_call fun _ => ⟨trivial,fun _ _ h => h⟩

theorem readiLoop (ip : Fin NINODE) (dst : Dst) (n fuel tot off : ℕ) (acc : List Byte) :
    (Xv6.readiLoop sb ip dst n fuel tot off acc : Code β _).only (Quiet R) := by
  induction fuel generalizing tot off acc with
  | zero => exact trivial
  | succ fuel ih =>
    rw [Xv6.readiLoop]
    split
    · refine (bmap sb _ _).bind fun addr => ?_
      split
      · exact trivial
      · refine (bread _).bind fun bp => (bdata _).bind fun d => (eitherCopyout _ _ _).bind fun ok =>
          (brelse _).bind fun _ => ?_
        split
        · exact ih _ _ _
        · exact trivial
    · exact trivial

theorem readi (ip : Fin NINODE) (dst : Dst) (off n : ℕ) : (Xv6.readi sb ip dst off n : Code β _).only (Quiet R) := by
  refine (inode _).bind fun i => ?_
  split
  · exact trivial
  · exact readiLoop sb _ _ _ _ _ _ _

theorem writeiLoop (ip : Fin NINODE) (src : Src) (n fuel tot off : ℕ) :
    (Xv6.writeiLoop sb ip src n fuel tot off : Code β _).only (Quiet R) := by
  induction fuel generalizing tot off with
  | zero => exact trivial
  | succ fuel ih =>
    rw [Xv6.writeiLoop]
    split
    · refine (bmap sb _ _).bind fun addr => ?_
      split
      · exact trivial
      · refine (bread _).bind fun bp => (eitherCopyin _ _ _ _ _).bind fun ok => ?_
        split
        · exact (logWrite _).bind fun _ => (brelse _).bind fun _ => ih _ _
        · exact (brelse _).bind fun _ => trivial
    · exact trivial

theorem writei (ip : Fin NINODE) (src : Src) (off n : ℕ) :
    (Xv6.writei sb ip src off n : Code β (Option ℕ)).only (Quiet R) := by
  refine (inode _).bind fun i => ?_
  split
  · exact trivial
  · split
    · exact trivial
    · refine (writeiLoop sb _ _ _ _ _ _).bind fun r => (inode _).bind fun i => ?_
      have hrest : ∀ _ : Unit, ((Xv6.iupdate sb ip : Code β Unit).bind fun _ => pure (some r.1)).only (Quiet R) :=
        fun _ => (iupdate sb ip).bind fun _ => trivial
      split
      · exact (setDin _ _).bind hrest
      · exact hrest ()

theorem dirlinkFrom (dp : Fin NINODE) (fuel off : ℕ) : (Xv6.dirlinkFrom sb dp fuel off : Code β ℕ).only (Quiet R) := by
  induction fuel generalizing off with
  | zero => exact trivial
  | succ fuel ih =>
    refine (inode _).bind fun d => ?_
    split
    · refine (readi sb _ _ _ _).bind fun r => ?_
      split
      · exact panic _
      · split
        · exact trivial
        · exact ih _
    · exact trivial

theorem isdirempty (dp : Fin NINODE) : (Xv6.isdirempty sb dp : Code β Bool).only (Quiet R) := by
  have hloop : ∀ fuel off, (Xv6.isdiremptyFrom sb dp fuel off : Code β Bool).only (Quiet R) := by
    intro fuel
    induction fuel with
    | zero => exact fun _ => trivial
    | succ fuel ih =>
      intro off
      refine (inode _).bind fun d => ?_
      split
      · refine (readi sb _ _ _ _).bind fun r => ?_
        split
        · exact panic _
        · split
          · exact trivial
          · exact ih _
      · exact trivial
  exact (inode _).bind fun d => hloop _ _

end Quiet

end Xv6
