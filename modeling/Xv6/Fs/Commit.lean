import Xv6.Fs.Alloc

/-! # The end of a transaction

A block that is not in the log has in the cache what it has on the disk, so the cache can drop it.
`end_op` keeps it that way, and no file system block changes in the cache.
-/
namespace Xv6
open Library Prog

section
variable {sb : Superblock} {p : Pid} {X : Halt → Prop} {s t : St} {o : ℤ} {k : ℕ}

def St.Clean (sb : Superblock) (s : St) : Prop := ∀ b, ¬sb.InLog b → b ∉ s.log.lh.block → s.blk b = s.disk b

theorem wp_of_traced {α : Type} {c : Code ℕ α} {C : LogCrash.Traced → Prop} {Q : α → LogCrash.Traced → Prop} {ws : List ℕ}
    (h : c.cwp (LogCrash.traced p) X C Q (s,ws)) : c.wp (St.exec p) X (fun a t => ∃ ws', Q a (t,ws')) s := by
  induction c generalizing s ws with
  | ret a => exact (wp_ret _ _ _).mpr ⟨ws,h.2⟩
  | op o k ih =>
    simp only [cwp] at h
    have h := h.2
    cases ho : St.exec p o s with
    | error e =>
      simp only [LogCrash.traced,ho] at h
      exact (wp_op_error ho).mpr h
    | ok q =>
      simp only [LogCrash.traced,ho] at h
      exact (wp_op_ok ho).mpr (ih q.1 h)

structure LogSound (sb : Superblock) (s : St) : Prop where
  start : s.log.start = sb.logstart
  size : s.log.size = sb.nlog
  committing : s.log.committing = false
  fits : LogCrash.Fits sb.logstart sb.nlog s.log.lh
  clear : Logheader.count (s.disk sb.logstart) = 0

structure Ended (sb : Superblock) (s t : St) : Prop where
  blk : ∀ b, ¬sb.InLog b → t.blk b = s.blk b
  env : t.env = s.env
  sound : LogSound sb t
  outstanding : t.log.outstanding = s.log.outstanding - 1
  lh : t.log.lh = if s.log.outstanding = 1 then Logheader.empty else s.log.lh
  clean : s.Clean sb → t.Clean sb

theorem clean_of_installed (hc : s.Clean sb) (hblk : ∀ b, ¬sb.InLog b → t.blk b = s.blk b)
    (hd : LogCrash.Installed sb.logstart sb.nlog s.log.lh s.disk s.blk t.disk) : t.Clean sb := by
  intro b hb _
  rw [hblk b hb]
  by_cases hm : b ∈ s.log.lh.block
  · exact (hd.fresh b hm).symm
  · exact (hc b hb hm).trans (hd.rest b hm hb).symm

theorem endOp_wp (h : LogSound sb s) : (endOp : Code ℕ Unit).wp (St.exec p) X (fun _ t => Ended sb s t) s := by
  rw [endOp,bind_eq]
  by_cases ho : s.log.outstanding = 1
  · have hend : s.log.endOp = .ok (true,{ s.log with outstanding := s.log.outstanding - 1, committing := true }) := by
      rw [Log.endOp,if_neg (by rw [h.committing]; decide),if_pos (by rw [ho]; rfl)]
    have hcall : St.exec p .endOp s =
        .ok (true,{ s with log := { s.log with outstanding := s.log.outstanding - 1, committing := true } }) := by
      simp only [St.exec,hend]
    refine (wp_op_ok hcall).mpr ?_
    rw [ret_bind,if_pos rfl,bind_eq]
    have hcommit := LogCrash.commit_cwp (p := p) (X := X)
      (s := { s with log := { s.log with outstanding := s.log.outstanding - 1, committing := true } })
      (by simpa only [h.start,h.size] using h.fits) (by simpa only [h.start] using h.clear)
    refine (wp_of_traced hcommit).seq ?_
    rintro _ t ⟨ws,hk,hlh,hclear,hinst,-⟩
    have hblk : ∀ b, ¬sb.InLog b → t.blk b = s.blk b := by
      intro b hb
      refine hk.blk b ?_
      rw [h.start,h.size]
      exact hb
    rw [h.start] at hclear
    have hcall : St.exec p .commitDone t = .ok ((),{ t with log := t.log.commitDone }) := rfl
    refine (wp_op_ok hcall).mpr ((wp_ret _ _ _).mpr ?_)
    have hempty : t.log.commitDone.lh = Logheader.empty := hlh
    refine ⟨hblk,hk.env,⟨hk.start.trans h.start,hk.size.trans h.size,rfl,?_,hclear⟩,hk.outstanding,?_,fun hc => ?_⟩
    · change LogCrash.Fits sb.logstart sb.nlog t.log.commitDone.lh
      have hroom := h.fits.room
      rw [hempty]
      refine ⟨?_,List.nodup_nil,fun _ hb => absurd hb List.not_mem_nil,fun _ hb => absurd hb List.not_mem_nil⟩
      rw [Logheader.empty_n]
      omega
    · rw [if_pos ho]
      exact hlh
    · refine clean_of_installed hc hblk ?_
      simpa only [h.start,h.size] using hinst
  · have hend : s.log.endOp = .ok (false,{ s.log with outstanding := s.log.outstanding - 1 }) := by
      rw [Log.endOp,if_neg (by rw [h.committing]; decide),if_neg (by omega)]
    have hcall : St.exec p .endOp s = .ok (false,{ s with log := { s.log with outstanding := s.log.outstanding - 1 } }) := by
      simp only [St.exec,hend]
    refine (wp_op_ok hcall).mpr ?_
    rw [ret_bind,if_neg Bool.false_ne_true,wp_pure]
    refine ⟨fun _ _ => rfl,rfl,⟨h.start,h.size,h.committing,h.fits,h.clear⟩,rfl,?_,fun hc => hc⟩
    rw [if_neg ho]

/-- Time goes by: operations begin and end, and the cache recycles buffers that are not pinned by the log. -/
inductive St.Passes (p : Pid) (s : St) : St → Prop
  | refl : Passes p s s
  | evict {t : St} {b : ℕ} : Passes p s t → b ∉ t.log.lh.block → Passes p s (t.setBlk b (t.disk b))
  | beginOp {t : St} {l : Log} : Passes p s t → t.log.beginOp = some l → Passes p s { t with log := l }
  | endOp {t u : St} : Passes p s t → (endOp : Code ℕ Unit).run (St.exec p) t = .ok ((),u) → Passes p s u

theorem St.Passes.same (h : St.Passes p s t) (hs : LogSound sb s) (hc : s.Clean sb) :
    (∀ b, ¬sb.InLog b → t.blk b = s.blk b) ∧ t.env = s.env ∧ LogSound sb t ∧ t.Clean sb := by
  induction h with
  | refl => exact ⟨fun _ _ => rfl,rfl,hs,hc⟩
  | @evict t b _ hb ih =>
    obtain ⟨hblk,henv,hs',hc'⟩ := ih
    have hsame : ∀ c, ¬sb.InLog c → (t.setBlk b (t.disk b)).blk c = t.blk c := by
      intro c hc
      by_cases hcb : c = b
      · subst hcb
        exact (Function.update_self _ _ _).trans (hc' c hc hb).symm
      · exact Function.update_of_ne hcb _ _
    refine ⟨fun c hc => (hsame c hc).trans (hblk c hc),henv,⟨hs'.start,hs'.size,hs'.committing,hs'.fits,hs'.clear⟩,?_⟩
    intro c hc hm
    rw [hsame c hc]
    exact hc' c hc hm
  | @beginOp t l _ hl ih =>
    obtain ⟨hblk,henv,hs',hc'⟩ := ih
    obtain ⟨-,-,rfl⟩ := Log.beginOp_eq_some hl
    exact ⟨hblk,henv,⟨hs'.start,hs'.size,hs'.committing,hs'.fits,hs'.clear⟩,hc'⟩
  | @endOp t u _ hu ih =>
    obtain ⟨hblk,henv,hs',hc'⟩ := ih
    have he : Ended sb t u := (endOp_wp (X := fun _ => True) hs').of_run_ok hu
    exact ⟨fun b hb => (he.blk b hb).trans (hblk b hb),he.env.trans henv,he.sound,he.clean hc'⟩

end

end Xv6
