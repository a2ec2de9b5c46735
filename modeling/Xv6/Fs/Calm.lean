import Xv6.Fs.Syscalls
import Xv6.Library.Moves

/-! # Code that stays below the inode table

Blocks, bitmap, log and the content of inodes: this code reads and writes buffers and the fields of
inodes, and nothing else of the kernel.
-/
namespace Xv6
open Library

def Calm {β : Type} : Op β → Prop
  | .env (.inode _) | .env (.setInode _ _ _) => True
  | .env _ | .copyin _ _ _ _ => False
  | _ => True

namespace Calm
variable {β α : Type}

theorem inode (ip : Fin NINODE) : (Xv6.env (.inode ip) : Code β Inode).only Calm := Prog.only_call trivial

theorem setInode (ip : Fin NINODE) (valid : Bool) (din : Dinode) :
    (Xv6.env (.setInode ip valid din) : Code β Unit).only Calm := Prog.only_call trivial

theorem panic (q : Panic) : (Xv6.panic q : Code β α).only Calm := ⟨trivial,nofun⟩

theorem bread (b : ℕ) : (Xv6.bread b : Code β β).only Calm :=
  ⟨trivial,fun _ => ⟨trivial,fun _ =>
    ⟨trivial,fun _ => trivial⟩⟩⟩

theorem brelse (b : β) : (Xv6.brelse b : Code β Unit).only Calm :=
  ⟨trivial,fun _ => ⟨trivial,fun _ => trivial⟩⟩

theorem bdata (b : β) : (Xv6.bdata b : Code β Block).only Calm := Prog.only_call trivial
theorem setData (b : β) (d : Block) : (Xv6.setData b d : Code β Unit).only Calm :=
  Prog.only_call trivial
theorem bwrite (b : β) : (Xv6.bwrite b : Code β Unit).only Calm := Prog.only_call trivial
theorem bunpin (b : β) : (Xv6.bunpin b : Code β Unit).only Calm := Prog.only_call trivial
theorem getLog : (Xv6.getLog : Code β Log).only Calm := Prog.only_call trivial
theorem setLh (lh : Logheader) : (Xv6.setLh lh : Code β Unit).only Calm :=
  Prog.only_call trivial
theorem beginOp : (Xv6.beginOp : Code β Unit).only Calm := Prog.only_call trivial
theorem logWrite (b : β) : (Xv6.logWrite b : Code β Unit).only Calm :=
  Prog.only_call trivial

/-! ## `log.c` -/

theorem writeLogFrom (fuel tail : ℕ) : (Xv6.writeLogFrom fuel tail : Code β Unit).only Calm := by
  induction fuel generalizing tail with
  | zero => exact trivial
  | succ fuel ih =>
    refine getLog.bind fun log => ?_
    split
    · exact (bread _).bind fun dst => (bread _).bind fun src => (bdata _).bind fun d => (setData _ _).bind fun _ =>
        (bwrite _).bind fun _ => (brelse _).bind fun _ => (brelse _).bind fun _ => ih _
    · exact trivial

theorem installTransFrom (recovering : Bool) (fuel tail : ℕ) :
    (Xv6.installTransFrom recovering fuel tail : Code β Unit).only Calm := by
  induction fuel generalizing tail with
  | zero => exact trivial
  | succ fuel ih =>
    refine getLog.bind fun log => ?_
    split
    · refine (bread _).bind fun lbuf => (bread _).bind fun dbuf => (bdata _).bind fun d => (setData _ _).bind fun _ =>
        (bwrite _).bind fun _ => ?_
      have hrest : ∀ _ : Unit, ((Xv6.brelse lbuf : Code β Unit).bind fun _ => (Xv6.brelse dbuf).bind fun _ =>
          Xv6.installTransFrom recovering fuel (tail + 1)).only Calm :=
        fun _ => (brelse _).bind fun _ => (brelse _).bind fun _ => ih _
      split
      · exact hrest ()
      · exact (bunpin _).bind hrest
    · exact trivial

theorem writeHead : (Xv6.writeHead : Code β Unit).only Calm :=
  getLog.bind fun _ => (bread _).bind fun _ => (bdata _).bind fun _ => (setData _ _).bind fun _ =>
    (bwrite _).bind fun _ => brelse _

theorem commit : (Xv6.commit : Code β Unit).only Calm := by
  refine getLog.bind fun log => ?_
  split
  · exact (writeLogFrom _ _).bind fun _ => writeHead.bind fun _ => (installTransFrom _ _ _).bind fun _ =>
      (setLh _).bind fun _ => writeHead
  · exact trivial

theorem endOp : (Xv6.endOp : Code β Unit).only Calm := by
  refine Prog.only.bind (Prog.only_call trivial) fun doCommit => ?_
  split
  · exact commit.bind fun _ => Prog.only_call trivial
  · exact trivial

/-! ## Blocks and the content of inodes -/

variable (sb : Superblock)

theorem bzero (b : ℕ) : (Xv6.bzero b : Code β Unit).only Calm :=
  (bread _).bind fun _ => (setData _ _).bind fun _ => (logWrite _).bind fun _ => brelse _

theorem ballocFrom (fuel b : ℕ) : (Xv6.ballocFrom sb fuel b : Code β ℕ).only Calm := by
  induction fuel generalizing b with
  | zero => exact trivial
  | succ fuel ih =>
    rw [Xv6.ballocFrom]
    split
    · refine (bread _).bind fun bp => (bdata _).bind fun d => ?_
      split
      · exact (setData _ _).bind fun _ => (logWrite _).bind fun _ => (brelse _).bind fun _ => (bzero _).bind fun _ => trivial
      · exact (brelse _).bind fun _ => ih _
    · exact trivial

theorem balloc : (Xv6.balloc sb : Code β ℕ).only Calm := ballocFrom sb _ _

theorem bfree (b : ℕ) : (Xv6.bfree sb b : Code β Unit).only Calm := by
  refine (bread _).bind fun bp => (bdata _).bind fun d => ?_
  dsimp only
  split
  · exact panic _
  · exact (setData _ _).bind fun _ => (logWrite _).bind fun _ => brelse _

theorem iupdate (ip : Fin NINODE) : (Xv6.iupdate sb ip : Code β Unit).only Calm :=
  (inode _).bind fun _ => (bread _).bind fun _ => (bdata _).bind fun _ => (setData _ _).bind fun _ =>
    (logWrite _).bind fun _ => brelse _

theorem setDin (ip : Fin NINODE) (din : Dinode) : (Xv6.setDin ip din : Code β Unit).only Calm :=
  (inode _).bind fun _ => setInode _ _ _

private theorem allocated {f : ℕ → Code β ℕ} (hf : ∀ addr, (f addr).only Calm) :
    ((Xv6.balloc sb).bind fun addr => if addr = 0 then pure 0 else f addr).only Calm := by
  refine (balloc sb).bind fun addr => ?_
  split
  · exact trivial
  · exact hf addr

theorem bmap (ip : Fin NINODE) (bn : ℕ) : (Xv6.bmap sb ip bn : Code β ℕ).only Calm := by
  refine (inode _).bind fun i => ?_
  dsimp only
  split
  · split
    · exact allocated sb fun _ => (setDin _ _).bind fun _ => trivial
    · exact trivial
  · split
    · refine Prog.only.bind ?_ fun addr => ?_
      · split
        · exact allocated sb fun _ => (setDin _ _).bind fun _ => trivial
        · exact trivial
      · split
        · exact trivial
        · refine (bread _).bind fun bp => (bdata _).bind fun a => ?_
          split
          · refine (balloc sb).bind fun addr => ?_
            split
            · exact (brelse _).bind fun _ => trivial
            · exact (bdata _).bind fun _ => (setData _ _).bind fun _ => (logWrite _).bind fun _ =>
                (brelse _).bind fun _ => trivial
          · exact (brelse _).bind fun _ => trivial
    · exact panic _

theorem itruncDirect (ip : Fin NINODE) (l : List (Fin 13)) : (Xv6.itruncDirect sb ip l : Code β Unit).only Calm := by
  induction l with
  | nil => exact trivial
  | cons k rest ih =>
    refine (inode _).bind fun i => ?_
    split
    · exact (bfree sb _).bind fun _ => (setDin _ _).bind fun _ => ih
    · exact ih

theorem itruncIndirect (bp : β) (l : List ℕ) : (Xv6.itruncIndirect sb bp l : Code β Unit).only Calm := by
  induction l with
  | nil => exact trivial
  | cons j rest ih =>
    refine (bdata _).bind fun a => ?_
    split
    · exact (bfree sb _).bind fun _ => ih
    · exact ih

theorem itrunc (ip : Fin NINODE) : (Xv6.itrunc sb ip : Code β Unit).only Calm := by
  refine (itruncDirect sb ip _).bind fun _ => (inode _).bind fun i => ?_
  have hrest : ∀ _ : Unit, ((Xv6.env (.inode ip) : Code β Inode).bind fun i =>
      (Xv6.setDin ip { i.din with size := 0 }).bind fun _ => Xv6.iupdate sb ip).only Calm :=
    fun _ => (inode _).bind fun _ => (setDin _ _).bind fun _ => iupdate sb ip
  split
  · exact (bread _).bind fun _ => (itruncIndirect sb _ _).bind fun _ => (brelse _).bind fun _ =>
      (bfree sb _).bind fun _ => (setDin _ _).bind hrest
  · exact hrest ()

end Calm

end Xv6
