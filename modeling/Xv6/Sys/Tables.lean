import Xv6.Library.Pool
import Xv6.Sys.Hold

/-! # The tables of the kernel and what the processes hold

The counts in `itable` and `ftable` are the sums of what the processes hold. An operation that is
safe for what its process holds keeps it so, and does not panic.
-/
namespace Xv6
open Library Library.Pool
open Function (update update_apply update_eq_self update_of_ne update_self)

/-- What an entry of the file table contributes to the references of an inode. -/
def File.names (x : File) (ip : Fin NINODE) : ℕ := if 0 < x.ref ∧ x.kind.ip = some ip then 1 else 0

theorem File.names_of_pos {x : File} {k : Kind} {ip : Fin NINODE} (hx : 0 < x.ref) (hk : x.kind = k) :
    x.names ip = if k.ip = some ip then 1 else 0 := by
  simp [names,hx,hk]

theorem File.names_of_zero {x : File} {ip : Fin NINODE} (hx : x.ref = 0) : x.names ip = 0 := by
  simp [names,hx]

theorem Kind.ip_fresh (ip : Fin NINODE) : Kind.fresh.ip ≠ some ip := nofun

def Env.named (e : Env) (ip : Fin NINODE) : ℕ := total (fun x : File => x.names ip) e.ftable

structure Coupled (e : Env) (g : Pid → Hold) : Prop where
  fref : ∀ f, (e.ftable f).ref = total (fun h : Hold => h.fref f) g
  kind : ∀ p f, 0 < (g p).fref f → (e.ftable f).kind = (g p).kind f
  free : ∀ f, (e.ftable f).ref = 0 → (e.ftable f).type = .none
  fresh : ∀ f, (e.ftable f).type = .none → (e.ftable f).ref ≤ 1
  iref : ∀ ip, (e.itable ip).ref = total (fun h : Hold => h.iref ip) g + e.named ip
  unique : ∀ i j, 0 < (e.itable i).ref → 0 < (e.itable j).ref → (e.itable i).dev = (e.itable j).dev →
    (e.itable i).inum = (e.itable j).inum → i = j
  lock : ∀ p ip, (g p).lock ip = if (e.itable ip).lock = some p then 1 else 0
  covered : ∀ p, (g p).Covered (g p).iref (g p).lock
  proc : ∀ p, (e.proc p).ofile = (g p).ofile ∧ (e.proc p).cwd = (g p).cwd

namespace Hold
variable {g : Hold} {f : Fin NFILE} {ip : Fin NINODE}

def gave (g : Hold) (ip : Fin NINODE) (c : Pid) : Hold :=
  { g with fref := g.fref - slots g.ofile, iref := g.iref - Pi.single ip 1, child := some c }

def born (g : Hold) (ip : Fin NINODE) : Hold := ⟨slots g.ofile,g.kind,Pi.single ip 1,0,0,g.ofile,some ip,none⟩

theorem filed_setFref (g : Hold) (f : Fin NFILE) (ip : Fin NINODE) (n : ℕ) (k : Kind) :
    (g.setFref f n k).filed ip + (if (g.kind f).ip = some ip then g.fref f else 0) =
    g.filed ip + if k.ip = some ip then n else 0 := by
  have h := Finset.add_sum_erase Finset.univ (fun f => if (g.kind f).ip = some ip then g.fref f else 0) (Finset.mem_univ f)
  have h' := Finset.add_sum_erase Finset.univ
    (fun f' => if ((g.setFref f n k).kind f').ip = some ip then (g.setFref f n k).fref f' else 0) (Finset.mem_univ f)
  have hrest : ∑ f' ∈ Finset.univ.erase f, (if ((g.setFref f n k).kind f').ip = some ip then (g.setFref f n k).fref f' else 0) =
      ∑ f' ∈ Finset.univ.erase f, if (g.kind f').ip = some ip then g.fref f' else 0 := by
    refine Finset.sum_congr rfl fun f' hf' => ?_
    simp [setFref,Finset.ne_of_mem_erase hf']
  rw [hrest] at h'
  simp only [setFref,update_self] at h h'
  simp only [filed,setFref]
  omega

theorem exists_of_filed (h : 0 < g.filed ip) : ∃ f, 0 < g.fref f ∧ (g.kind f).ip = some ip := by
  obtain ⟨f,-,hf⟩ := Finset.exists_ne_zero_of_sum_ne_zero h.ne'
  by_cases hip : (g.kind f).ip = some ip
  · exact ⟨f,by simpa [hip,Nat.pos_iff_ne_zero] using hf,hip⟩
  · simp [hip] at hf

theorem fref_le_filed (h : (g.kind f).ip = some ip) : g.fref f ≤ g.filed ip := by
  have hle : (if (g.kind f).ip = some ip then g.fref f else 0) ≤ g.filed ip :=
    Finset.single_le_sum (f := fun f => if (g.kind f).ip = some ip then g.fref f else 0)
      (fun _ _ => Nat.zero_le _) (Finset.mem_univ f)
  rwa [if_pos h] at hle

end Hold

namespace Coupled
variable {e : Env} {g : Pid → Hold} {p : Pid} {h : Hold}

section Counts
variable {ip : Fin NINODE} {f : Fin NFILE}

theorem ref_file_pos (hc : Coupled e g) (hf : 0 < (g p).fref f) : 0 < (e.ftable f).ref := by
  rw [hc.fref]
  exact hf.trans_le (le_total (fun h : Hold => h.fref f) g p)

theorem named_pos (hc : Coupled e g) (hp : 0 < (g p).filed ip) : 0 < e.named ip := by
  obtain ⟨f,hf,hip⟩ := Hold.exists_of_filed hp
  have hx : (e.ftable f).names ip = 1 := by
    rw [File.names,if_pos]
    exact ⟨hc.ref_file_pos hf,by rwa [hc.kind p f hf]⟩
  have := le_total (fun x : File => x.names ip) e.ftable f
  rw [hx] at this
  exact this

theorem ref_pos (hc : Coupled e g) (hp : 0 < (g p).iref ip + (g p).filed ip) : 0 < (e.itable ip).ref := by
  rw [hc.iref]
  have hle : (g p).iref ip ≤ _ := le_total (fun h : Hold => h.iref ip) g p
  rcases Nat.eq_zero_or_pos ((g p).filed ip) with h0 | hpos
  · omega
  · have := hc.named_pos hpos
    omega

theorem iref_add_le (g : Pid → Hold) (ip : Fin NINODE) {q : Pid} (hq : q ≠ p) :
    (g p).iref ip + (g q).iref ip ≤ total (fun h : Hold => h.iref ip) g := by
  have hup := total_update (fun h : Hold => h.iref ip) g p { g p with iref := 0 }
  have hle := le_total (fun h : Hold => h.iref ip) (update g p { g p with iref := 0 }) q
  simp only [update_of_ne hq,Pi.zero_apply] at hup hle
  omega

theorem lock_none (hc : Coupled e g) (hp : 0 < (g p).iref ip) (hs : (g p).Spare ip) (hone : (e.itable ip).ref = 1) :
    (e.itable ip).lock = none := by
  rw [hc.iref] at hone
  have hle : (g p).iref ip ≤ _ := le_total (fun h : Hold => h.iref ip) g p
  have hnamed : e.named ip = 0 := by omega
  have hfiled : ∀ q, (g q).filed ip = 0 := fun q => by
    rcases Nat.eq_zero_or_pos ((g q).filed ip) with h0 | hpos
    · exact h0
    · exact absurd (hc.named_pos hpos) (by omega)
  cases hl : (e.itable ip).lock with
  | none => rfl
  | some q =>
    exfalso
    have hlq := hc.lock q ip
    rw [if_pos hl] at hlq
    have hcov := hc.covered q ip
    rw [hlq,hfiled q] at hcov
    rcases eq_or_ne q p with rfl | hqp
    · have := hfiled q
      simp only [Hold.Spare] at hs
      omega
    · -- two processes with a reference each
      have := iref_add_le g ip hqp
      omega

end Counts

section Shapes

theorem inode {ip : Fin NINODE} {i : Inode} {r l : Fin NINODE → ℕ} (hc : Coupled e g)
    (hr : ∀ j, j ≠ ip → r j = (g p).iref j) (hl : ∀ j, j ≠ ip → l j = (g p).lock j)
    (href : i.ref + (g p).iref ip = (e.itable ip).ref + r ip)
    (hlock : ∀ q, (if i.lock = some q then 1 else 0) = if q = p then l ip else (g q).lock ip)
    (hcov : l ip ≤ r ip + (g p).filed ip)
    (hid : 0 < i.ref → (0 < (e.itable ip).ref ∧ i.dev = (e.itable ip).dev ∧ i.inum = (e.itable ip).inum) ∨
      ∀ j, 0 < (e.itable j).ref → (e.itable j).dev = i.dev → (e.itable j).inum ≠ i.inum) :
    Coupled (e.setInode ip i) (update g p ((g p).refs r l)) := by
  have hfile : ∀ q, (update g p ((g p).refs r l) q).fref = (g q).fref ∧
      (update g p ((g p).refs r l) q).kind = (g q).kind ∧
      (update g p ((g p).refs r l) q).ofile = (g q).ofile ∧
      (update g p ((g p).refs r l) q).cwd = (g q).cwd := fun q => by
    rcases eq_or_ne q p with rfl | hq
    · simp [Hold.refs]
    · simp [hq]
  refine ⟨fun f => ?_,fun q f => ?_,hc.free,hc.fresh,fun j => ?_,fun a b => ?_,fun q j => ?_,fun q j => ?_,fun q => ?_⟩
  · simpa [total,(hfile _).1,Env.setInode] using hc.fref f
  · rw [(hfile q).1,(hfile q).2.1]
    exact hc.kind q f
  · have hup := total_update (fun h : Hold => h.iref j) g p ((g p).refs r l)
    have hold := hc.iref j
    rcases eq_or_ne j ip with rfl | hj
    · simp only [Env.setInode,update_self,Hold.refs] at hup ⊢
      simp only [Env.named] at hold ⊢
      omega
    · simp only [Env.setInode,update_of_ne hj,Hold.refs,hr j hj] at hup ⊢
      simp only [Env.named] at hold ⊢
      omega
  · simp only [Env.setInode,update_apply]
    split <;> split
    · rename_i ha hb
      intros
      rw [ha,hb]
    · rename_i ha hb
      intro hir hbr hdev hinum
      rcases hid hir with ⟨hpos,hd,hn⟩ | hno
      · exact ha ▸ hc.unique ip b hpos hbr (hd ▸ hdev) (hn ▸ hinum)
      · exact absurd hinum.symm (hno b hbr hdev.symm)
    · rename_i ha hb
      intro har hir hdev hinum
      rcases hid hir with ⟨hpos,hd,hn⟩ | hno
      · exact hb ▸ hc.unique a ip har hpos (hd ▸ hdev) (hn ▸ hinum)
      · exact absurd hinum (hno a har hdev)
    · exact hc.unique a b
  · rcases eq_or_ne j ip with rfl | hj
    · simp only [Env.setInode,update_self,hlock]
      rcases eq_or_ne q p with rfl | hq
      · simp [Hold.refs]
      · simp [hq]
    · simp only [Env.setInode,update_of_ne hj]
      rw [← hc.lock q j]
      rcases eq_or_ne q p with rfl | hq
      · simp [Hold.refs,hl j hj]
      · simp [hq]
  · rcases eq_or_ne q p with rfl | hq
    · simp only [update_self,Hold.refs]
      rcases eq_or_ne j ip with rfl | hj
      · exact hcov
      · rw [hl j hj,hr j hj]
        exact hc.covered q j
    · simp only [update_of_ne hq]
      exact hc.covered q j
  · rw [(hfile q).2.2.1,(hfile q).2.2.2]
    exact hc.proc q

theorem file {f : Fin NFILE} {x : File} {n : ℕ} {k : Kind} {r : Fin NINODE → ℕ} (ends : ℕ × Bool → ℕ) (hc : Coupled e g)
    (href : x.ref + (g p).fref f = (e.ftable f).ref + n) (hk : 0 < n → x.kind = k)
    (hother : ∀ q, q ≠ p → 0 < (g q).fref f → x.kind = (e.ftable f).kind) (hfree : x.ref = 0 → x.type = .none)
    (hfresh : x.type = .none → x.ref ≤ 1)
    (hr : ∀ ip, r ip + x.names ip = (g p).iref ip + (e.ftable f).names ip)
    (hcov : ∀ ip, (g p).lock ip ≤ r ip + ((g p).setFref f n k).filed ip) :
    Coupled (e.setFile f x) (update g p { (g p).setFref f n k with iref := r, ends := ends }) := by
  refine ⟨fun f' => ?_,fun q f' => ?_,fun f' => ?_,fun f' => ?_,fun ip => ?_,hc.unique,fun q ip => ?_,fun q ip => ?_,fun q => ?_⟩
  · have hup := total_update (fun h : Hold => h.fref f') g p { (g p).setFref f n k with iref := r, ends := ends }
    have hold := hc.fref f'
    rcases eq_or_ne f' f with rfl | hf
    · simp only [Env.setFile,update_self,Hold.setFref] at hup ⊢
      omega
    · simp only [Env.setFile,update_of_ne hf,Hold.setFref] at hup ⊢
      omega
  · rcases eq_or_ne f' f with rfl | hf
    · simp only [Env.setFile,update_self]
      rcases eq_or_ne q p with rfl | hq
      · simpa [Hold.setFref] using hk
      · simp only [update_of_ne hq]
        exact fun hpos => (hother q hq hpos).trans (hc.kind q f' hpos)
    · simp only [Env.setFile,update_of_ne hf]
      rcases eq_or_ne q p with rfl | hq
      · simpa [Hold.setFref,hf] using hc.kind q f'
      · simpa [hq] using hc.kind q f'
  · rcases eq_or_ne f' f with rfl | hf
    · simpa [Env.setFile] using hfree
    · simpa [Env.setFile,hf] using hc.free f'
  · rcases eq_or_ne f' f with rfl | hf
    · simpa [Env.setFile] using hfresh
    · simpa [Env.setFile,hf] using hc.fresh f'
  · have hup := total_update (fun h : Hold => h.iref ip) g p { (g p).setFref f n k with iref := r, ends := ends }
    have hupf := total_update (fun x : File => x.names ip) e.ftable f x
    have hold := hc.iref ip
    have := hr ip
    simp only [Env.setFile,Env.named] at hold hup hupf ⊢
    omega
  · rcases eq_or_ne q p with rfl | hq
    · rw [update_self]
      exact hc.lock q ip
    · rw [update_of_ne hq]
      exact hc.lock q ip
  · rcases eq_or_ne q p with rfl | hq
    · simp only [update_self]
      exact hcov ip
    · simp only [update_of_ne hq]
      exact hc.covered q ip
  · rcases eq_or_ne q p with rfl | hq
    · simpa [Env.setFile,Hold.setFref] using hc.proc q
    · simpa [Env.setFile,hq] using hc.proc q

theorem process {x : Proc} (hc : Coupled e g) (hf : h.fref = (g p).fref) (hk : h.kind = (g p).kind) (hi : h.iref = (g p).iref)
    (hl : h.lock = (g p).lock) (ho : x.ofile = h.ofile) (hw : x.cwd = h.cwd) : Coupled (e.setProc p x) (update g p h) := by
  have hsame : ∀ q, (update g p h q).fref = (g q).fref ∧ (update g p h q).kind = (g q).kind ∧
      (update g p h q).iref = (g q).iref ∧ (update g p h q).lock = (g q).lock := fun q => by
    rcases eq_or_ne q p with rfl | hq
    · simp [hf,hk,hi,hl]
    · simp [hq]
  refine ⟨fun f => ?_,fun q f => ?_,hc.free,hc.fresh,fun ip => ?_,hc.unique,fun q ip => ?_,fun q ip => ?_,fun q => ?_⟩
  · simpa [total,(hsame _).1,Env.setProc] using hc.fref f
  · rw [(hsame q).1,(hsame q).2.1]
    exact hc.kind q f
  · simpa [total,(hsame _).2.2.1,Env.setProc,Env.named] using hc.iref ip
  · rw [(hsame q).2.2.2]
    exact hc.lock q ip
  · have := hc.covered q ip
    simpa [Hold.filed,hsame q] using this
  · rcases eq_or_ne q p with rfl | hq
    · simp [Env.setProc,ho,hw]
    · simpa [Env.setProc,hq] using hc.proc q

end Shapes

/-! ## One operation -/

section Step
variable {R : Rights} {ip : Fin NINODE} {f : Fin NFILE}

theorem add_single_of_ne (v : Fin NINODE → ℕ) {j : Fin NINODE} (hj : j ≠ ip) :
    (v + (Pi.single ip 1 : Fin NINODE → ℕ)) j = v j := by
  simp [hj]

theorem lock_kept (hc : Coupled e g) (q : Pid) :
    (if (e.itable ip).lock = some q then 1 else 0) = if q = p then (g p).lock ip else (g q).lock ip := by
  rw [← hc.lock q ip]
  split
  · rename_i hq
    rw [hq]
  · rfl

theorem taken (hc : Coupled e g) {i : Inode} (href : i.ref = (e.itable ip).ref + 1) (hlock : i.lock = (e.itable ip).lock)
    (hid : (0 < (e.itable ip).ref ∧ i.dev = (e.itable ip).dev ∧ i.inum = (e.itable ip).inum) ∨
      ∀ j, 0 < (e.itable j).ref → (e.itable j).dev = i.dev → (e.itable j).inum ≠ i.inum) :
    Coupled (e.setInode ip i) (update g p ((g p).take ip)) := by
  have := hc.covered p ip
  refine hc.inode (l := (g p).lock) (fun j hj => add_single_of_ne _ hj) (fun _ _ => rfl) ?_ (fun q => ?_) ?_ fun _ => hid
  · simp only [Pi.add_apply,Pi.single_eq_same]
    omega
  · rw [hlock]
    exact hc.lock_kept q
  · simp only [Pi.add_apply,Pi.single_eq_same]
    omega

theorem dropped (hc : Coupled e g) (hp : 0 < (g p).iref ip) (hs : (g p).Spare ip) :
    Coupled (e.setInode ip { e.itable ip with ref := (e.itable ip).ref - 1 }) (update g p ((g p).drop ip)) := by
  have hpos : 0 < (e.itable ip).ref := hc.ref_pos (Nat.add_pos_left hp _)
  simp only [Hold.Spare] at hs
  refine hc.inode (l := (g p).lock) (fun j hj => ?_) (fun _ _ => rfl) ?_ (fun q => ?_) ?_ fun _ => .inl ⟨hpos,rfl,rfl⟩
  · simp [hj]
  · simp only [Pi.sub_apply,Pi.single_eq_same]
    omega
  · exact hc.lock_kept q
  · simp only [Pi.sub_apply,Pi.single_eq_same]
    omega

theorem acquired (hc : Coupled e g) (hs : (g p).Spare ip) (hl : (e.itable ip).lock = none) :
    Coupled (e.setInode ip { e.itable ip with lock := some p }) (update g p ((g p).acquire ip)) := by
  have hpos : 0 < (e.itable ip).ref := hc.ref_pos (Nat.zero_lt_of_lt hs)
  have hnone : ∀ q, (g q).lock ip = 0 := fun q => by simp [hc.lock q ip,hl]
  refine hc.inode (r := (g p).iref) (fun _ _ => rfl) (fun j hj => add_single_of_ne _ hj) rfl (fun q => ?_) ?_
    fun _ => .inl ⟨hpos,rfl,rfl⟩
  · rcases eq_or_ne q p with rfl | hq
    · simp [hnone]
    · simp [hnone,hq,hq.symm]
  · simp only [Pi.add_apply,Pi.single_eq_same]
    exact hs

theorem released (hc : Coupled e g) (hp : 0 < (g p).lock ip) :
    Coupled (e.setInode ip { e.itable ip with lock := none }) (update g p ((g p).release ip)) := by
  have hl := hc.lock p ip
  have hlp : (e.itable ip).lock = some p := by
    by_contra hne
    rw [if_neg hne] at hl
    omega
  rw [if_pos hlp] at hl
  have hcov := hc.covered p ip
  have hpos : 0 < (e.itable ip).ref := hc.ref_pos (p := p) (by omega)
  refine hc.inode (r := (g p).iref) (fun _ _ => rfl) (fun j hj => ?_) rfl (fun q => ?_) ?_ fun _ => .inl ⟨hpos,rfl,rfl⟩
  · simp [hj]
  · rcases eq_or_ne q p with rfl | hq
    · simp [hl]
    · have := hc.lock q ip
      rw [if_neg fun h => hq (Option.some.inj (h.symm.trans hlp))] at this
      simp [hq,this]
  · simp only [Pi.sub_apply,Pi.single_eq_same]
    omega

theorem written (hc : Coupled e g) (valid : Bool) (din : Dinode) :
    Coupled (e.setInode ip { e.itable ip with valid := valid, din := din }) (update g p (g p)) := by
  exact hc.inode (r := (g p).iref) (l := (g p).lock) (fun _ _ => rfl) (fun _ _ => rfl) rfl hc.lock_kept (hc.covered p ip)
    fun hpos => .inl ⟨hpos,rfl,rfl⟩

theorem find_finRange {n : ℕ} {P : Fin n → Prop} [DecidablePred P] :
    (∃ i, (List.finRange n).find? (fun i => decide (P i)) = some i ∧ P i) ∨
      (List.finRange n).find? (fun i => decide (P i)) = none ∧ ∀ i, ¬P i := by
  cases hfind : (List.finRange n).find? fun i => decide (P i) with
  | none => exact .inr ⟨rfl,by simpa using hfind⟩
  | some i => exact .inl ⟨i,rfl,by simpa using List.find?_some hfind⟩

theorem iget (hc : Coupled e g) {dev inum : ℕ} {e' : Env} (h : e.iget dev inum = .ok (ip,e')) :
    Coupled e' (update g p ((g p).take ip)) := by
  rw [Env.iget] at h
  rcases find_finRange (P := fun i => 0 < (e.itable i).ref ∧ (e.itable i).dev = dev ∧ (e.itable i).inum = inum) with
    ⟨i,hfind,hi⟩ | ⟨hfind,hno⟩
  · simp only [hfind,Except.ok.injEq,Prod.mk.injEq] at h
    obtain ⟨rfl,rfl⟩ := h
    exact hc.taken rfl rfl (.inl ⟨hi.1,rfl,rfl⟩)
  · simp only [hfind] at h
    rcases find_finRange (P := fun i => (e.itable i).ref = 0) with ⟨i,hfind',hi⟩ | ⟨hfind',-⟩
    · simp only [hfind',Except.ok.injEq,Prod.mk.injEq] at h
      obtain ⟨rfl,rfl⟩ := h
      refine hc.taken (by simp [hi]) rfl (.inr fun j hj hd hn => hno j ⟨hj,hd,hn⟩)
    · simp only [hfind'] at h
      cases h

theorem kind_eq_fresh {x : File} : x.kind = .fresh ↔ x.type = .none := by
  unfold File.kind
  cases x.type <;> simp

theorem fref_le (hc : Coupled e g) : (g p).fref f ≤ (e.ftable f).ref := by
  rw [hc.fref]
  exact le_total (fun h : Hold => h.fref f) g p

theorem fref_add_le (hc : Coupled e g) {q : Pid} (hq : q ≠ p) : (g p).fref f + (g q).fref f ≤ (e.ftable f).ref := by
  have hup := total_update (fun h : Hold => h.fref f) g p { g p with fref := 0 }
  have hle := le_total (fun h : Hold => h.fref f) (update g p { g p with fref := 0 }) q
  simp only [update_of_ne hq,Pi.zero_apply] at hup hle
  rw [hc.fref]
  omega

theorem filealloc (hc : Coupled e g) (href : (e.ftable f).ref = 0) : (g p).fref f = 0 ∧
    Coupled (e.setFile f { e.ftable f with ref := 1 }) (update g p ((g p).setFref f 1 .fresh)) := by
  have hzero : ∀ q, (g q).fref f = 0 := fun q => Nat.le_zero.mp (href ▸ hc.fref_le)
  have hkind : (e.ftable f).kind = .fresh := kind_eq_fresh.mpr (hc.free f href)
  refine ⟨hzero p,hc.file (g p).ends ?_ (fun _ => hkind) (fun q _ hq => ?_) nofun (fun _ => le_rfl) (fun ip => ?_) fun ip => ?_⟩
  · simp [hzero p,href]
  · exact absurd (hzero q) hq.ne'
  · have hx : File.names { e.ftable f with ref := 1 } ip = 0 := if_neg fun ⟨_,hip⟩ => by
      have hip : (e.ftable f).kind.ip = some ip := hip
      exact Kind.ip_fresh ip (hkind ▸ hip)
    rw [hx,File.names_of_zero href]
  · have hcov := hc.covered p ip
    have hfiled := (g p).filed_setFref f ip 1 .fresh
    rw [hzero p,ite_self,if_neg (Kind.ip_fresh ip)] at hfiled
    omega

theorem filedup (hc : Coupled e g) (hp : 0 < (g p).fref f) (hk : (g p).kind f ≠ .fresh) :
    Coupled (e.setFile f { e.ftable f with ref := (e.ftable f).ref + 1 })
      (update g p ((g p).setFref f ((g p).fref f + 1) ((g p).kind f))) := by
  have hpos := hc.ref_file_pos hp
  refine hc.file (g p).ends ?_ (fun _ => hc.kind p f hp) (fun _ _ _ => rfl) nofun (fun h => ?_) (fun ip => ?_) fun ip => ?_
  · show (e.ftable f).ref + 1 + _ = _
    omega
  · exact absurd ((hc.kind p f hp).symm.trans (kind_eq_fresh.mpr h)) hk
  · rw [File.names_of_pos (Nat.succ_pos _) rfl,File.names_of_pos hpos rfl]
    rfl
  · have hcov := hc.covered p ip
    have hfiled := (g p).filed_setFref f ip ((g p).fref f + 1) ((g p).kind f)
    split at hfiled <;> omega

theorem setOff (hc : Coupled e g) (off : BitVec 32) :
    Coupled (e.setFile f { e.ftable f with off := off }) (update g p (g p)) := by
  have hset : (g p).setFref f ((g p).fref f) ((g p).kind f) = g p := by
    simp [Hold.setFref]
  have := hc.file (p := p) (f := f) (x := { e.ftable f with off := off }) (n := (g p).fref f) (k := (g p).kind f) (r := (g p).iref)
    (g p).ends rfl (hc.kind p f) (fun _ _ _ => rfl) (hc.free f) (hc.fresh f) (fun _ => rfl) (fun ip => by
      rw [hset]
      exact hc.covered p ip)
  rwa [hset] at this

theorem initFile (hc : Coupled e g) (hp : 0 < (g p).fref f) (hk : (g p).kind f = .fresh) (hi : 0 < (g p).iref ip)
    {type : FileType} (ht : type = .inode ∨ type = .device) (readable writable : Bool) (off : BitVec 32) (major : BitVec 16) :
    (g p).fref f = 1 ∧ Coupled (e.setFile f { e.ftable f with
        type := type, readable := readable, writable := writable, ip := ip, off := off, major := major })
      (update g p (((g p).setFref f 1 (if type = .inode then .inode ip else .device ip)).drop ip)) := by
  have hfresh : (e.ftable f).kind = .fresh := (hc.kind p f hp).trans hk
  have hle := hc.fresh f (kind_eq_fresh.mp hfresh)
  have hone : (g p).fref f = 1 := le_antisymm (hc.fref_le.trans hle) hp
  have href : (e.ftable f).ref = 1 := le_antisymm hle (hone ▸ hc.fref_le)
  have hkind : File.kind
      { e.ftable f with type := type, readable := readable, writable := writable, ip := ip, off := off, major := major } =
      if type = .inode then .inode ip else .device ip := by
    rcases ht with rfl | rfl <;> rfl
  have hip : (if type = .inode then Kind.inode ip else .device ip).ip = some ip := by
    rcases ht with rfl | rfl <;> rfl
  refine ⟨hone,hc.file (g p).ends ?_ (fun _ => hkind) (fun q hq hpos => ?_) ?_ ?_ (fun j => ?_) fun j => ?_⟩
  · simp [hone]
  · have := hc.fref_add_le (f := f) hq
    omega
  · exact fun h => absurd (href.symm.trans h) (by simp)
  · intro _
    exact href.le
  · rw [File.names_of_pos (href ▸ Nat.one_pos) hkind,File.names_of_pos (href ▸ Nat.one_pos) hfresh,hip,if_neg (Kind.ip_fresh j)]
    simp only [Hold.setFref,Pi.sub_apply,Option.some.injEq]
    rcases eq_or_ne j ip with rfl | hj
    · rw [Pi.single_eq_same,if_pos rfl]
      omega
    · rw [Pi.single_eq_of_ne hj,if_neg hj.symm,Nat.sub_zero]
  · have hcov := hc.covered p j
    have hfiled := (g p).filed_setFref f j 1 (if type = .inode then .inode ip else .device ip)
    rw [hk,hip,if_neg (Kind.ip_fresh j)] at hfiled
    simp only [Option.some.injEq] at hfiled
    show _ ≤ (g p).iref j - (Pi.single ip 1 : Fin NINODE → ℕ) j + _
    rcases eq_or_ne j ip with rfl | hj
    · rw [if_pos rfl] at hfiled
      rw [Pi.single_eq_same]
      omega
    · rw [if_neg hj.symm] at hfiled
      rw [Pi.single_eq_of_ne hj]
      omega

theorem fileclose_more (hc : Coupled e g) (hp : 0 < (g p).fref f) (hs : ∀ ip, ((g p).kind f).ip = some ip → (g p).Spare ip)
    (href : 0 < (e.ftable f).ref - 1) : (g p).kind f ≠ .fresh ∧
    Coupled (e.setFile f { e.ftable f with ref := (e.ftable f).ref - 1 })
      (update g p ((g p).setFref f ((g p).fref f - 1) ((g p).kind f))) := by
  refine ⟨fun hk => ?_,hc.file (g p).ends ?_ (fun _ => hc.kind p f hp) (fun _ _ _ => rfl) ?_ (fun h => ?_) (fun ip => ?_)
    fun ip => ?_⟩
  · have := hc.fresh f (kind_eq_fresh.mp ((hc.kind p f hp).trans hk))
    omega
  · show (e.ftable f).ref - 1 + _ = _
    omega
  · exact fun h => absurd h href.ne'
  · have := hc.fresh f h
    omega
  · rw [File.names_of_pos href rfl,File.names_of_pos (href.trans_le (Nat.sub_le _ _)) rfl]
    rfl
  · have hcov := hc.covered p ip
    have hfiled := (g p).filed_setFref f ip ((g p).fref f - 1) ((g p).kind f)
    split at hfiled
    · rename_i hip
      have := hs ip hip
      simp only [Hold.Spare] at this
      omega
    · omega

theorem fileclose_last (hc : Coupled e g) (hp : 0 < (g p).fref f) (href : (e.ftable f).ref = 1) : (g p).fref f = 1 ∧
    Coupled (e.setFile f { e.ftable f with ref := 0, type := .none })
      (update g p (((g p).setFref f 0 ((g p).kind f)).unwrap ((g p).kind f))) := by
  have hone : (g p).fref f = 1 := le_antisymm (href ▸ hc.fref_le) hp
  have hkind := hc.kind p f hp
  have hshape : ∃ r ends, ((g p).setFref f 0 ((g p).kind f)).unwrap ((g p).kind f) =
      { (g p).setFref f 0 ((g p).kind f) with iref := r, ends := ends } ∧
      ∀ ip, r ip = (g p).iref ip + if ((g p).kind f).ip = some ip then 1 else 0 := by
    cases (g p).kind f with
    | fresh => exact ⟨(g p).iref,(g p).ends,rfl,fun ip => by simp [Kind.ip]⟩
    | pipe pi r w => exact ⟨(g p).iref,_,rfl,fun ip => by simp [Kind.ip]⟩
    | inode i => exact ⟨(g p).iref + Pi.single i 1,(g p).ends,rfl,fun ip => by simp [Kind.ip,Pi.single_apply,eq_comm]⟩
    | device i => exact ⟨(g p).iref + Pi.single i 1,(g p).ends,rfl,fun ip => by simp [Kind.ip,Pi.single_apply,eq_comm]⟩
  obtain ⟨r,ends,heq,hr⟩ := hshape
  rw [heq]
  refine ⟨hone,hc.file ends ?_ nofun (fun q hq hpos => ?_) (fun _ => rfl) (fun _ => Nat.zero_le _) (fun ip => ?_) fun ip => ?_⟩
  · simp [hone,href]
  · have := hc.fref_add_le (f := f) hq
    omega
  · rw [hr ip]
    rw [File.names_of_zero rfl,File.names_of_pos (href ▸ Nat.one_pos) hkind,Nat.add_zero]
  · have hcov := hc.covered p ip
    have hfiled := (g p).filed_setFref f ip 0 ((g p).kind f)
    rw [hr ip]
    simp only [hone,ite_self] at hfiled
    omega

theorem exec (hc : Coupled e g) {o : EnvOp} {r : o.Res} {e' : Env} (hs : (g p).safe R o) (ho : ∀ c, o ≠ .forkProc c)
    (h : o.exec p e = .ok (r,e')) : ∃ h, (g p).step o r h ∧ Coupled e' (update g p h) := by
  have hproc := hc.proc p
  have hsame : Coupled e (update g p (g p)) := by rwa [update_eq_self]
  cases o with
  | iget dev inum =>
    cases hi : e.iget dev inum with
    | error x => simp [EnvOp.exec,hi,Except.mapError] at h
    | ok a =>
      simp only [EnvOp.exec,hi,Except.mapError,Except.ok.injEq] at h
      obtain rfl : a = (r,e') := h
      exact ⟨_,rfl,hc.iget hi⟩
  | idup ip =>
    cases h
    exact ⟨_,rfl,hc.taken rfl rfl (.inl ⟨hc.ref_pos (Nat.add_pos_left hs.2 _),rfl,rfl⟩)⟩
  | ilock ip =>
    simp only [EnvOp.exec,Env.ilock] at h
    split_ifs at h with href hlock
    · cases h
    · cases h
    · cases h
      exact ⟨_,rfl,hc.acquired hs.2 (not_not.mp hlock)⟩
  | iunlock ip =>
    simp only [EnvOp.exec,Env.iunlock] at h
    split_ifs at h with hbad
    · cases h
    · cases h
      exact ⟨_,rfl,hc.released hs.2⟩
  | iputTest ip =>
    simp only [EnvOp.exec,Env.iputTest] at h
    split_ifs at h with hlast hlock
    · cases h
      exact ⟨_,rfl,hc.acquired hs.2.2 (not_not.mp hlock)⟩
    · cases h
      exact ⟨_,rfl,hc.dropped hs.2.1 hs.2.2⟩
  | ireleasesleep ip =>
    cases h
    exact ⟨_,rfl,hc.released hs.2⟩
  | idrop ip =>
    cases h
    exact ⟨_,rfl,hc.dropped hs.2.1 hs.2.2⟩
  | inode ip =>
    cases h
    exact ⟨_,rfl,hsame⟩
  | setInode ip valid din =>
    cases h
    exact ⟨_,rfl,hc.written valid din⟩
  | filealloc =>
    simp only [EnvOp.exec,Env.filealloc] at h
    rcases find_finRange (P := fun f => (e.ftable f).ref = 0) with ⟨f,hfind,hf⟩ | ⟨hfind,-⟩
    · simp only [hfind] at h
      cases h
      obtain ⟨hzero,hc'⟩ := hc.filealloc (p := p) hf
      exact ⟨_,⟨hzero,rfl⟩,hc'⟩
    · simp only [hfind] at h
      cases h
      exact ⟨_,rfl,hsame⟩
  | filedup f =>
    simp only [EnvOp.exec,Env.filedup] at h
    split_ifs at h with href
    · cases h
    · cases h
      exact ⟨_,rfl,hc.filedup hs.2.1 hs.2.2⟩
  | fileclose f =>
    simp only [EnvOp.exec,Env.fileclose] at h
    split_ifs at h with href hmore
    · cases h
    · cases h
      obtain ⟨hk,hc'⟩ := hc.fileclose_more hs.2.1 (fun ip hip => (hs.2.2 ip hip).2) hmore
      exact ⟨_,⟨hk,rfl⟩,hc'⟩
    · cases h
      obtain ⟨hone,hc'⟩ := hc.fileclose_last hs.2.1 (by omega)
      exact ⟨_,⟨hc.kind p f hs.2.1,hone,rfl⟩,hc'⟩
  | file f =>
    cases h
    exact ⟨_,⟨hc.kind p f,rfl⟩,hsame⟩
  | initFile f type readable writable ip off major =>
    cases h
    obtain ⟨-,-,hf,hk,hi,ht⟩ := hs
    obtain ⟨hone,hc'⟩ := hc.initFile hf hk hi ht readable writable off major
    exact ⟨_,⟨hone,rfl⟩,hc'⟩
  | setOff f off =>
    cases h
    exact ⟨_,rfl,hc.setOff off⟩
  | proc =>
    cases h
    exact ⟨_,⟨hproc.1,hproc.2,rfl⟩,hsame⟩
  | fdalloc f =>
    simp only [EnvOp.exec,Env.fdalloc] at h
    rcases find_finRange (P := fun fd => (e.proc p).ofile fd = none) with ⟨fd,hfind,hfd⟩ | ⟨hfind,-⟩
    · simp only [hfind] at h
      cases h
      exact ⟨_,⟨hproc.1 ▸ hfd,rfl⟩,hc.process rfl rfl rfl rfl (congrArg (update · fd (some f)) hproc.1) hproc.2⟩
    · simp only [hfind] at h
      cases h
      exact ⟨_,rfl,hsame⟩
  | setFd fd f =>
    cases h
    exact ⟨_,rfl,hc.process rfl rfl rfl rfl (congrArg (update · fd f) hproc.1) hproc.2⟩
  | setCwd cwd =>
    cases h
    exact ⟨_,rfl,hc.process rfl rfl rfl rfl hproc.1 rfl⟩
  | forkProc c => exact absurd rfl (ho c)
  | copyout dstva src =>
    cases h
    exact ⟨_,rfl,hc.process rfl rfl rfl rfl hproc.1 hproc.2⟩
  | external c =>
    cases h
    cases c with
    | pipeclose pi w =>
      have hself : e.setProc p (e.proc p) = e := by simp [Env.setProc]
      refine ⟨_,rfl,?_⟩
      have := hc.process (x := e.proc p) (h := { g p with ends := (g p).ends - Pi.single (pi,w) 1 }) rfl rfl rfl rfl hproc.1 hproc.2
      rwa [hself] at this
    | piperead | pipewrite | devread | devwrite => exact ⟨_,rfl,hsame⟩

theorem exec_error (hc : Coupled e g) {o : EnvOp} {x : Halt} (hs : (g p).safe R o) (h : o.exec p e = .error x) :
    (∃ ip q, o = .ilock ip ∧ (e.itable ip).lock = some q ∧ x = .sleep) ∨
      (∃ dev inum, o = .iget dev inum) ∧ (∀ ip, 0 < (e.itable ip).ref) ∧ x = .panic .igetNoInodes := by
  cases o with
  | iget dev inum =>
    simp only [EnvOp.exec,Env.iget] at h
    rcases find_finRange (P := fun i => 0 < (e.itable i).ref ∧ (e.itable i).dev = dev ∧ (e.itable i).inum = inum) with
      ⟨i,hfind,-⟩ | ⟨hfind,-⟩
    · simp only [hfind] at h
      cases h
    rcases find_finRange (P := fun i => (e.itable i).ref = 0) with ⟨i,hfind',-⟩ | ⟨hfind',hfull⟩
    · simp only [hfind,hfind'] at h
      cases h
    · simp only [hfind,hfind',Except.mapError,Except.error.injEq] at h
      exact .inr ⟨⟨dev,inum,rfl⟩,fun ip => Nat.pos_of_ne_zero (hfull ip),h.symm⟩
  | ilock ip =>
    have hpos : 0 < (e.itable ip).ref := hc.ref_pos (p := p) (Nat.zero_lt_of_lt hs.2)
    simp only [EnvOp.exec,Env.ilock] at h
    split_ifs at h with href hlock
    · omega
    · obtain ⟨q,hq⟩ := Option.ne_none_iff_exists'.mp hlock
      cases h
      exact .inl ⟨ip,q,rfl,hq,rfl⟩
    · cases h
  | iunlock ip =>
    have hl := hc.lock p ip
    have hcov := hc.covered p ip
    have hp := hs.2
    have hpos : 0 < (e.itable ip).ref := hc.ref_pos (p := p) (by omega)
    simp only [EnvOp.exec,Env.iunlock] at h
    split_ifs at h with hbad
    · rcases hbad with hne | hlt
      · rw [if_neg hne] at hl
        omega
      · omega
    · cases h
  | iputTest ip =>
    simp only [EnvOp.exec,Env.iputTest] at h
    split_ifs at h with hlast hlock
    exact absurd (hc.lock_none hs.2.1 hs.2.2 hlast.1) hlock
  | filedup f =>
    have hpos := hc.ref_file_pos hs.2.1
    simp only [EnvOp.exec,Env.filedup] at h
    split_ifs at h with href
    · omega
    · cases h
  | fileclose f =>
    have hpos := hc.ref_file_pos hs.2.1
    simp only [EnvOp.exec,Env.fileclose] at h
    split_ifs at h with href hmore
    · omega
    · cases h
    · cases h
  | _ => cases h

theorem forkProc (hc : Coupled e g) {c : Pid} (hs : (g p).safe R (.forkProc c)) (hgone : (g c).Gone) (hcp : c ≠ p) :
    ∃ ip, (g p).cwd = some ip ∧
      Coupled (e.setProc c (e.proc p)) (update (update g p ((g p).gave ip c)) c ((g p).born ip)) := by
  obtain ⟨-,hslots,-,hlock,ip,hcwd,hip⟩ := hs
  refine ⟨ip,hcwd,fun f => ?_,fun q f => ?_,hc.free,hc.fresh,fun j => ?_,hc.unique,fun q j => ?_,fun q j => ?_,fun q => ?_⟩
  · have h1 := total_update (fun h : Hold => h.fref f) g p ((g p).gave ip c)
    have h2 := total_update (fun h : Hold => h.fref f) (update g p ((g p).gave ip c)) c ((g p).born ip)
    have hold := hc.fref f
    have := hslots f
    have hgave : ((g p).gave ip c).fref f = (g p).fref f - slots (g p).ofile f := rfl
    have hborn : ((g p).born ip).fref f = slots (g p).ofile f := rfl
    simp only [update_of_ne hcp,hgone.fref,Pi.zero_apply,hgave,hborn] at h1 h2
    show (e.ftable f).ref = _
    omega
  · rcases eq_or_ne q c with rfl | hqc
    · simp only [update_self]
      exact fun hpos => hc.kind p f (hpos.trans_le (hslots f))
    rcases eq_or_ne q p with rfl | hqp
    · simp only [update_of_ne hqc,update_self]
      exact fun hpos => hc.kind q f (hpos.trans_le (Nat.sub_le _ _))
    · simp only [update_of_ne hqc,update_of_ne hqp]
      exact hc.kind q f
  · have h1 := total_update (fun h : Hold => h.iref j) g p ((g p).gave ip c)
    have h2 := total_update (fun h : Hold => h.iref j) (update g p ((g p).gave ip c)) c ((g p).born ip)
    have hold := hc.iref j
    have hle : (Pi.single ip 1 : Fin NINODE → ℕ) j ≤ (g p).iref j := by
      rcases eq_or_ne j ip with rfl | hj
      · rwa [Pi.single_eq_same]
      · rw [Pi.single_eq_of_ne hj]
        exact Nat.zero_le _
    have hgave : ((g p).gave ip c).iref j = (g p).iref j - (Pi.single ip 1 : Fin NINODE → ℕ) j := rfl
    have hborn : ((g p).born ip).iref j = (Pi.single ip 1 : Fin NINODE → ℕ) j := rfl
    simp only [update_of_ne hcp,hgone.iref,Pi.zero_apply,hgave,hborn] at h1 h2
    show (e.itable j).ref = _ + e.named j
    omega
  · have hold := hc.lock q j
    rcases eq_or_ne q c with rfl | hqc
    · simp only [update_self]
      rw [hgone.lock] at hold
      exact hold
    rcases eq_or_ne q p with rfl | hqp
    · simp only [update_of_ne hqc,update_self]
      exact hold
    · simp only [update_of_ne hqc,update_of_ne hqp]
      exact hold
  · rcases eq_or_ne q c with rfl | hqc
    · simp only [update_self]
      exact Nat.zero_le _
    rcases eq_or_ne q p with rfl | hqp
    · simp only [update_of_ne hqc,update_self]
      rw [show ((g q).gave ip c).lock j = 0 from hlock j]
      exact Nat.zero_le _
    · simp only [update_of_ne hqc,update_of_ne hqp]
      exact hc.covered q j
  · rcases eq_or_ne q c with rfl | hqc
    · simp only [update_self,Env.setProc]
      exact ⟨(hc.proc p).1,(hc.proc p).2.trans hcwd⟩
    rcases eq_or_ne q p with rfl | hqp
    · simp only [update_of_ne hqc,update_self,Env.setProc]
      exact hc.proc q
    · simp only [update_of_ne hqc,update_of_ne hqp,Env.setProc]
      exact hc.proc q

end Step

end Coupled

end Xv6
