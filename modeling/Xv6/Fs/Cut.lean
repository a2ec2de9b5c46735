import Xv6.Fs.Content
import Xv6.Fs.Commit

/-! # Writes that are cut short

`writei` fills a block with `either_copyin` and logs it afterwards. When the copy stops in the middle
of the block, the buffer has new bytes and is released without `log_write`. When each block's part
of the source is accessible as a whole or not from its first byte on, this does not happen.
-/
namespace Xv6
open Library Prog

/-! ## Changed blocks are logged -/

section Clean
variable {sb : Superblock} {p : Pid} {X : Halt → Prop} {α : Type} {s t : St} {ip : Fin NINODE}

end Clean

/-! ## `writei` -/

section Write
variable {sb : Superblock} {p : Pid} {X : Halt → Prop} {s t : St} {ip : Fin NINODE} {o : ℤ} {k off n tot va : ℕ}

theorem Writing.cut {bytes : List Byte} (h : Writing sb p o k ip (.kernel bytes) off n s tot t) (hb : n ≤ bytes.length) :
    Writing sb p o k ip (.kernel bytes) off tot s tot t := by
  refine ⟨h.editing.mono (Nat.le_refl _) ?_,Nat.le_refl _,h.mapped,fun _ => h.bytes hb,.inl rfl⟩
  rintro x ⟨h₁,h₂ | h₂⟩
  · exact ⟨h₁,.inl h₂⟩
  · exact absurd hb h₂.2

end Write

def onePage : St := { Sample.begun with
  env := { Sample.env with
    proc := fun p => { Sample.env.proc p with mem := ⟨fun _ => 7,fun v => decide (v = 0),fun _ => false⟩ } } }

end Xv6
