import Xv6.Fs.Calm
import Xv6.Fs.Lookup
import Xv6.Fs.Sample
import Xv6.Pipe.Protocol
import Xv6.Console.Code

/-! # What `read` writes to the memory of its process

`fileread` hands its count to `piperead`, to `consoleread` or to `readi`. The first two take an `int`
and count up to it; `readi` takes a `uint`.
-/
namespace Xv6
open Library
open Function (update update_eq_self update_of_ne update_self)

/-- Only bytes of `[va, va + n)` differ. -/
def UserMem.Within (u₀ : UserMem) (va n : ℕ) (u : UserMem) : Prop := ∀ a, a < va ∨ va + n ≤ a → u.byte a = u₀.byte a

namespace UserMem
variable {u₀ u u' : UserMem} {va n : ℕ}

theorem Within.refl (u : UserMem) (va n : ℕ) : u.Within va n u := fun _ _ => rfl

theorem Within.trans {va' n' : ℕ} (h : u₀.Within va n u) (h' : u.Within va' n' u') (hva : va ≤ va') (hn : va' + n' ≤ va + n) :
    u₀.Within va n u' := by
  intro a ha
  rw [h' a (by omega),h a ha]

theorem copyoutFrom_within (u : UserMem) (fuel va : ℕ) (src : List Byte) :
    u.Within va src.length (u.copyoutFrom fuel va src).1 := by
  induction fuel generalizing u va src with
  | zero => exact .refl u va _
  | succ fuel ih =>
    rw [copyoutFrom]
    split
    · exact .refl u va _
    split
    · dsimp only
      generalize hn : min (PGSIZE - va % PGSIZE) src.length = n
      have hput : u.Within va src.length
          { u with byte := fun a => if va ≤ a ∧ a < va + n then src.getD (a - va) 0 else u.byte a } := by
        intro a ha
        exact if_neg (by omega)
      have hmod : va % PGSIZE < PGSIZE := Nat.mod_lt _ (by decide)
      have hle := Nat.mod_le va PGSIZE
      rcases Nat.lt_or_ge (PGSIZE - va % PGSIZE) src.length with hlt | hge
      · refine hput.trans (ih _ _ _) (by omega) ?_
        rw [List.length_drop]
        omega
      · -- the last page
        have hnil := ih { u with byte := fun a => if va ≤ a ∧ a < va + n then src.getD (a - va) 0 else u.byte a }
          (va - va % PGSIZE + PGSIZE) (src.drop n)
        rw [List.drop_eq_nil_of_le (by omega)] at hnil ⊢
        intro a ha
        rw [hnil a (by rw [List.length_nil]; omega),hput a ha]
    · exact .refl u va _

theorem copyout_within (u : UserMem) (va : ℕ) (src : List Byte) : u.Within va src.length (u.copyout va src).1 :=
  copyoutFrom_within u src.length va src

theorem copyout_lt {x : Byte} (h : (u.copyout va [x]).2 = true) : va < MAXVA :=
  (copyoutFrom_accessible u 1 va [x] h va le_rfl (Nat.lt_succ_self va)).1

end UserMem

/-! ## Pipes -/

namespace PipeProtocol
section
variable {N : ℕ}

/-- A run, with the memory that each process had when it made its last call. -/
inductive Entered : World N → (Fin N → UserMem) → Prop
  | init {w : World N} : Initial w → Entered w w.mem
  | call {w w' : World N} {m : Fin N → UserMem} {p : Fin N} {c : Call} : Entered w m → Step w (.call p c) w' →
      Entered w' (update m p (w.mem p))
  | step {w w' : World N} {m : Fin N → UserMem} {a : Act N} : Entered w m → (∀ p c, a ≠ .call p c) → Step w a w' → Entered w' m

end

/-- `piperead(pi, addr, n)` returns `r` in some run, and has made `u'` of the memory `u` of its process. -/
def Reads (addr : ℕ) (n : ℤ) (u : UserMem) (r : ℤ) (u' : UserMem) : Prop :=
  ∃ (N : ℕ) (w w' : World N) (m : Fin N → UserMem) (p : Fin N),
    Entered w m ∧ Step w (.ret p (.piperead addr n) r) w' ∧ m p = u ∧ w.mem p = u'

/-- What a `piperead` has written so far, if its address is a `uint64`. -/
def Point.Bounded (u₀ u : UserMem) : Point → Prop
  | .readWait addr n => u₀.Within addr n.toNat u
  | .readCopy addr n i => addr < 2 ^ 64 → i ≤ n.toNat ∧ (i = 0 ∨ addr + i ≤ MAXVA) ∧ u₀.Within addr n.toNat u
  | .readDone addr n i => addr < 2 ^ 64 → i ≤ n.toNat ∧ u₀.Within addr n.toNat u
  | .ret (.piperead addr n) r => addr < 2 ^ 64 → r ≤ n.toNat ∧ u₀.Within addr n.toNat u
  | _ => True

def Next.Bounded (u₀ u : UserMem) : Next → Prop
  | .goto k | .wakeup _ k | .sleep _ k => k.Bounded u₀ u
  | .done | .free => True

theorem Point.exec_bounded {k : Point} {pi : Pipe} {b : Bool} {u₀ u : UserMem} (h : k.Bounded u₀ u) :
    (k.exec pi b u).next.Bounded u₀ (k.exec pi b u).mem := by
  cases k with
  | readWait addr n =>
    simp only [Point.exec]
    split_ifs
    · exact fun _ => ⟨by omega,h⟩
    · exact h
    · exact fun _ => ⟨Nat.zero_le _,.inl rfl,h⟩
  | readCopy addr n i =>
    simp only [Point.exec]
    by_cases hn : (i : ℤ) < n
    swap
    · rw [if_neg hn]
      exact fun ha => ⟨(h ha).1,(h ha).2.2⟩
    by_cases he : pi.nread = pi.nwrite
    · rw [if_pos hn,if_pos he]
      exact fun ha => ⟨(h ha).1,(h ha).2.2⟩
    rw [if_pos hn,if_neg he]
    have hput : addr < 2 ^ 64 → userAddr addr i = addr + i ∧
        u₀.Within addr n.toNat (u.copyout (userAddr addr i) [pi.first]).1 := by
      intro ha
      obtain ⟨-,hlt,hw⟩ := h ha
      have haddr : userAddr addr i = addr + i := by
        simp only [userAddr,MAXVA] at hlt ⊢
        omega
      refine ⟨haddr,hw.trans (UserMem.copyout_within u _ _) (by omega) ?_⟩
      rw [List.length_singleton]
      omega
    cases hok : (u.copyout (userAddr addr i) [pi.first]).2 with
    | false => exact fun ha => ⟨(h ha).1,(hput ha).2⟩
    | true =>
      intro ha
      have hlt := UserMem.copyout_lt hok
      rw [(hput ha).1] at hlt
      exact ⟨by omega,.inr (by omega),(hput ha).2⟩
  | readDone addr n i => exact fun ha => ⟨by exact_mod_cast (h ha).1,(h ha).2⟩
  | writeLoop | closeTest =>
    simp only [Point.exec]
    split_ifs <;> trivial
  | close writable => cases writable <;> trivial
  | writeSleep | writeDone | ret => trivial

section
variable {N : ℕ} {w w' : World N} {m : Fin N → UserMem} {p : Fin N}

def Pos.Bounded (u₀ u : UserMem) : Pos → Prop
  | .idle => True
  | .entry k | .locked k | .wakeup _ _ k | .presleep _ k | .released _ k | .sleeping _ k => k.Bounded u₀ u

theorem Next.Bounded.pos {n : Next} {u₀ u : UserMem} (h : n.Bounded u₀ u) : n.pos.Bounded u₀ u := by
  cases n with
  | goto | wakeup | sleep => exact h
  | done | free => trivial

theorem bounded_move {x : Pos} (hb : ∀ q, (w.pos q).Bounded (m q) (w.mem q)) (hpos : w'.pos = update w.pos p x)
    (hmem : ∀ q, q ≠ p → w'.mem q = w.mem q) (hx : x.Bounded (m p) (w'.mem p)) (q : Fin N) :
    (w'.pos q).Bounded (m q) (w'.mem q) := by
  rw [hpos]
  by_cases hq : q = p
  · subst hq
    rw [update_self]
    exact hx
  · rw [update_of_ne hq,hmem q hq]
    exact hb q

theorem Call.start_bounded (c : Call) (u : UserMem) : c.start.Bounded u u := by
  cases c with
  | piperead addr n => exact .refl u addr _
  | pipewrite | pipeclose => trivial

theorem Entered.bounded (h : Entered w m) : ∀ q, (w.pos q).Bounded (m q) (w.mem q) := by
  induction h with
  | init h =>
    intro q
    rw [h.pos]
    trivial
  | @call w w' m p c _ hs ih =>
    cases hs with
    | call _ hp =>
      intro q
      by_cases hq : q = p
      · subst hq
        simp only [update_self]
        exact c.start_bounded _
      · simp only [update_of_ne hq]
        exact ih q
  | @step w w' m a _ hcall hs ih =>
    -- the process stays at its point of the code
    have hsame {p : Fin _} {x y : Pos} (hp : w.pos p = x) (hxy : Pos.Bounded (m p) (w.mem p) y = Pos.Bounded (m p) (w.mem p) x) :
        y.Bounded (m p) (w.mem p) := by
      rw [hxy,← hp]
      exact ih p
    cases hs with
    | @call p c => exact absurd rfl (hcall p c)
    | @exec p k o hp ho hd =>
      subst ho
      have hk := ih p
      rw [hp] at hk
      refine bounded_move ih rfl (fun q hq => update_of_ne hq ..) ?_
      simp only [update_self]
      exact (Point.exec_bounded hk).pos
    | @ret p c r hp => exact bounded_move ih (x := .idle) rfl (fun _ _ => rfl) trivial
    | @user p u b hp =>
      refine bounded_move ih (x := w.pos p) (update_eq_self ..).symm (fun q hq => update_of_ne hq ..) ?_
      rw [hp]
      trivial
    | kill => exact ih
    | acquire hp _ _ => exact bounded_move ih rfl (fun _ _ => rfl) (hsame hp rfl)
    | wakeup hp _ => exact bounded_move ih rfl (fun _ _ => rfl) (hsame hp rfl)
    | wakeupDone hp => exact bounded_move ih rfl (fun _ _ => rfl) (hsame hp rfl)
    | sleepRelease hp => exact bounded_move ih rfl (fun _ _ => rfl) (hsame hp rfl)
    | sleep hp => exact bounded_move ih rfl (fun _ _ => rfl) (hsame hp rfl)
    | resume hp _ => exact bounded_move ih rfl (fun _ _ => rfl) (hsame hp rfl)

end

theorem Reads.bounded {addr : ℕ} {n r : ℤ} {u u' : UserMem} (h : Reads addr n u r u') (ha : addr < 2 ^ 64) :
    r ≤ n.toNat ∧ u.Within addr n.toNat u' := by
  obtain ⟨N,w,w',m,p,hrun,hs,rfl,rfl⟩ := h
  have hb := hrun.bounded p
  cases hs with
  | ret hp =>
    rw [hp] at hb
    exact hb ha

end PipeProtocol

/-! ## The console -/

namespace Console
variable {killed : Bool} {target n dst : ℕ} {s : Cons} {u u' : UserMem}

/-- The sections of one `consoleread`. Anything may happen to the console while it sleeps. -/
inductive Sections (target : ℕ) : ℕ → ℕ → UserMem → ℤ → UserMem → Prop
  | ret {killed : Bool} {n dst : ℕ} {s s' : Cons} {u u' : UserMem} {v : ℤ} :
      consoleread killed target n dst s u = (.ret v,s',u') → Sections target n dst u v u'
  | sleep {killed : Bool} {n dst n' dst' : ℕ} {s s' : Cons} {u u₁ u' : UserMem} {v : ℤ} :
      consoleread killed target n dst s u = (.sleep dst' n',s',u₁) → Sections target n' dst' u₁ v u' → Sections target n dst u v u'

/-- `consoleread(1, dst, n)` returns `r` and has made `u'` of the memory `u`. Its loop is not entered
when `n` is not positive, and `target - n` is 0 then. -/
def Returns (dst : ℕ) (n : ℤ) (u : UserMem) (r : ℤ) (u' : UserMem) : Prop :=
  if 0 < n then Sections n.toNat n.toNat dst u r u' else r = 0 ∧ u' = u

def Exit.Bounded (target dst n : ℕ) : Exit → Prop
  | .sleep dst' n' => dst ≤ dst' ∧ dst' + n' = dst + n
  | .ret v => v ≤ target

theorem consoleread_bounded (killed : Bool) (target n dst : ℕ) (s : Cons) (u : UserMem) :
    (consoleread killed target n dst s u).1.Bounded target dst n ∧ u.Within dst n (consoleread killed target n dst s u).2.2 := by
  induction n generalizing dst s u with
  | zero => exact ⟨le_refl (target : ℤ),.refl u dst 0⟩
  | succ n ih =>
    have hsame := UserMem.Within.refl u dst (n + 1)
    rw [consoleread]
    split
    · split
      · exact ⟨show (-1 : ℤ) ≤ target by omega,hsame⟩
      · exact ⟨⟨le_rfl,rfl⟩,hsame⟩
    dsimp only
    split
    · split <;> exact ⟨show (target : ℤ) - (n + 1) ≤ target by omega,hsame⟩
    have hput := hsame.trans (UserMem.copyout_within u dst [s.get s.r]) le_rfl (by rw [List.length_singleton]; omega)
    split
    · exact ⟨show (target : ℤ) - (n + 1) ≤ target by omega,hput⟩
    rename_i hok
    split
    · exact ⟨show (target : ℤ) - n ≤ target by omega,hput⟩
    have hlt := UserMem.copyout_lt (Bool.eq_true_of_not_eq_false hok)
    have hnext : (dst + 1) % 2 ^ 64 = dst + 1 := by
      simp only [MAXVA] at hlt
      omega
    rw [hnext]
    obtain ⟨hexit,hwithin⟩ := ih (dst + 1) { s with r := s.r + 1 } (u.copyout dst [s.get s.r]).1
    refine ⟨?_,hput.trans hwithin (by omega) (by omega)⟩
    generalize (consoleread killed target n (dst + 1) _ _).1 = e at hexit ⊢
    cases e with
    | sleep dst' n' => exact ⟨by have := hexit.1; omega,by have := hexit.2; omega⟩
    | ret v => exact hexit

theorem Sections.bounded {v : ℤ} (h : Sections target n dst u v u') : v ≤ target ∧ u.Within dst n u' := by
  induction h with
  | @ret killed n dst s s' u u' v hret =>
    have hb := consoleread_bounded killed target n dst s u
    rw [hret] at hb
    exact hb
  | @sleep killed n dst n' dst' s s' u u₁ u' v hsleep _ ih =>
    have hb := consoleread_bounded killed target n dst s u
    rw [hsleep] at hb
    obtain ⟨⟨hdst,hend⟩,hwithin⟩ := hb
    exact ⟨ih.1,hwithin.trans ih.2 hdst (by omega)⟩

theorem Returns.bounded {n r : ℤ} (h : Returns dst n u r u') : r ≤ n.toNat ∧ u.Within dst n.toNat u' := by
  rw [Returns] at h
  split at h
  · exact h.bounded
  · obtain ⟨rfl,rfl⟩ := h
    exact ⟨Int.natCast_nonneg _,.refl u' dst _⟩

end Console

/-! ## Files -/

section Files
variable {sb : Superblock} {p : Pid} {s t : St} {α : Type} {X : Halt → Prop}

def St.Beside (s t : St) : Prop := t.env.proc = s.env.proc ∧ t.env.ftable = s.env.ftable

theorem calm_beside {o : Op ℕ} {r : o.Res} (h : Calm o) (ho : St.exec p o s = .ok (r,t)) : s.Beside t := by
  cases o with
  | env o =>
    cases o with
    | inode | setInode =>
      cases ho
      exact ⟨rfl,rfl⟩
    | _ => exact h.elim
  | copyin => exact h.elim
  | panic => cases ho
  | beginOp =>
    simp only [St.exec] at ho
    split at ho <;> cases ho
    exact ⟨rfl,rfl⟩
  | logWrite | endOp =>
    simp only [St.exec] at ho
    split at ho <;> cases ho
    exact ⟨rfl,rfl⟩
  | _ =>
    cases ho
    exact ⟨rfl,rfl⟩

theorem calm_wp (hX : ∀ e, X e) {P : Code ℕ α} (hP : P.only Calm) (s : St) : P.wp (St.exec p) X (fun _ t => s.Beside t) s :=
  hP.wp hX (fun _ t₁ _ t₂ ho h₁ he => by
    have h₂ := calm_beside ho he
    exact ⟨h₂.1.trans h₁.1,h₂.2.trans h₁.2⟩) ⟨rfl,rfl⟩

def St.loaded (s : St) (sb : Superblock) (ip : Fin NINODE) : Dinode :=
  if (s.env.itable ip).valid then (s.env.itable ip).din
  else Dinode.ofBlock (s.blk (sb.iblock (s.env.itable ip).inum)) ((s.env.itable ip).inum % IPB)

theorem ilock_loads (hX : ∀ e, X e) (ip : Fin NINODE) (s : St) : (ilock sb ip : Code ℕ Unit).wp (St.exec p) X
    (fun _ t => s.Beside t ∧ t.blk = s.blk ∧ (t.env.itable ip).inum = (s.env.itable ip).inum ∧
      (t.env.itable ip).din = s.loaded sb ip) s := by
  rw [ilock,Prog.bind_eq]
  cases hexec : EnvOp.exec p (.ilock ip) s.env with
  | error e => exact (Prog.wp_op_error (o := Op.env (.ilock ip)) (by simp only [St.exec,hexec]; rfl)).mpr (hX _)
  | ok re =>
    obtain ⟨_,e⟩ := re
    obtain rfl : e = s.env.setInode ip { s.env.itable ip with lock := some p } := by
      simp only [EnvOp.exec,Env.ilock] at hexec
      split_ifs at hexec <;> cases hexec
      rfl
    rw [wp_env_ok hexec,Prog.bind_eq,wp_inode]
    dsimp only
    rw [Env.setInode_self,St.loaded]
    split
    · exact (Prog.wp_pure _ _ _).mpr ⟨⟨rfl,rfl⟩,rfl,by rw [Env.setInode_self],by rw [Env.setInode_self]⟩
    · rw [Prog.bind_eq,wp_bread,Prog.bind_eq,wp_bdata,Prog.bind_eq,wp_brelse,Prog.bind_eq,wp_env_ok rfl]
      split
      · exact wp_panic.mpr (hX _)
      · refine (Prog.wp_pure _ _ _).mpr ⟨⟨rfl,rfl⟩,rfl,?_,?_⟩
        · dsimp only
          rw [Env.setInode_self,Env.setInode_self]
        · dsimp only
          rw [Env.setInode_self]

theorem iunlock_beside (hX : ∀ e, X e) (ip : Fin NINODE) (s : St) :
    (iunlock ip : Code ℕ Unit).wp (St.exec p) X (fun _ t => s.Beside t) s := by
  cases hexec : EnvOp.exec p (.iunlock ip) s.env with
  | error e => exact (Prog.wp_op_error (o := Op.env (.iunlock ip)) (by simp only [St.exec,hexec]; rfl)).mpr (hX _)
  | ok re =>
    obtain ⟨_,e⟩ := re
    refine (wp_env_last hexec).mpr ?_
    simp only [EnvOp.exec,Env.iunlock] at hexec
    split_ifs at hexec <;> cases hexec
    exact ⟨rfl,rfl⟩

/-- The memory has changed within the buffer only, and the file table not at all. -/
def St.Read (s : St) (p : Pid) (va n : ℕ) (t : St) : Prop :=
  (s.env.proc p).mem.Within va n (t.env.proc p).mem ∧ t.env.ftable = s.env.ftable

theorem St.Read.beside {va n : ℕ} {t' : St} (h : s.Read p va n t) (h' : t.Beside t') : s.Read p va n t' := by
  refine ⟨?_,h'.2.trans h.2⟩
  rw [h'.1]
  exact h.1

theorem readiLoop_read {ip : Fin NINODE} {va n fuel tot off : ℕ} {acc : List Byte} (hX : ∀ e, X e) (htot : tot ≤ n)
    (h : s.Read p va n t) : (readiLoop sb ip (.user va) n fuel tot off acc).wp (St.exec p) X
      (fun r t' => s.Read p va n t' ∧ ∀ k, r.1 = some k → k ≤ n) t := by
  induction fuel generalizing tot off acc t with
  | zero => exact (Prog.wp_pure _ _ _).mpr ⟨h,fun k hk => Option.some.inj hk ▸ htot⟩
  | succ fuel ih =>
    rw [readiLoop]
    split
    swap
    · exact (Prog.wp_pure _ _ _).mpr ⟨h,fun k hk => Option.some.inj hk ▸ htot⟩
    rename_i hlt
    refine (calm_wp hX (Calm.bmap sb ip _) t).seq fun addr t₁ h₁ => ?_
    have h₁ := h.beside h₁
    split
    · exact (Prog.wp_pure _ _ _).mpr ⟨h₁,fun k hk => Option.some.inj hk ▸ htot⟩
    rw [Prog.bind_eq,wp_bread,Prog.bind_eq,wp_bdata,Prog.bind_eq]
    generalize hm : min (n - tot) (BSIZE - off % BSIZE) = m
    rw [eitherCopyout,wp_env_ok rfl,Prog.bind_eq,wp_brelse]
    have hout := UserMem.copyout_within (t₁.env.proc p).mem (va + tot) ((t₁.blk addr).slice (off % BSIZE) m)
    rw [Bytes.length_slice] at hout
    have h₂ : s.Read p va n { t₁ with env := t₁.env.setProc p { t₁.env.proc p with
        mem := ((t₁.env.proc p).mem.copyout (va + tot) ((t₁.blk addr).slice (off % BSIZE) m)).1 } } := by
      refine ⟨?_,h₁.2⟩
      simp only [Env.setProc,update_self]
      exact h₁.1.trans hout (by omega) (by omega)
    split
    · exact ih (by omega) h₂
    · exact (Prog.wp_pure _ _ _).mpr ⟨h₂,fun k hk => absurd hk (Option.some_ne_none k).symm⟩

/-- What `readi` copies at most: nothing if the range starts behind the end or wraps. -/
def readCount (size off n : ℕ) : ℕ :=
  if size < off ∨ (off + n) % 2 ^ 32 < off then 0 else if size < (off + n) % 2 ^ 32 then size - off else n

theorem readi_read {ip : Fin NINODE} {va off n : ℕ} (hX : ∀ e, X e) (s : St) :
    (readi sb ip (.user va) off n).wp (St.exec p) X
      (fun r t => s.Read p va (readCount (s.env.itable ip).din.size.toNat off n) t ∧
        ∀ k, r.1 = some k → k ≤ readCount (s.env.itable ip).din.size.toNat off n) s := by
  rw [readi,Prog.bind_eq,wp_inode,readCount]
  split
  · exact (Prog.wp_pure _ _ _).mpr ⟨⟨.refl _ _ _,rfl⟩,fun k hk => Option.some.inj hk ▸ Nat.zero_le _⟩
  · exact readiLoop_read hX (Nat.zero_le _) ⟨.refl _ _ _,rfl⟩

/-- The count of a `read` from offset `off` of a file of `size` bytes is kept: it is not negative, or it takes the
offset below 0, or there is nothing to read. -/
def CountKept (off size : ℕ) (n : ℤ) : Prop := 0 ≤ n ∨ -n ≤ off ∨ size ≤ off

theorem CountKept.readCount_le {size : ℕ} {off n : BitVec 32} (h : CountKept off.toNat size n.toInt) :
    readCount size off.toNat (n.toInt % 2 ^ 32).toNat ≤ n.toInt.toNat := by
  have hoff := off.isLt
  have hlo := n.le_toInt
  have hhi := n.toInt_lt
  unfold CountKept at h
  unfold readCount
  split
  · omega
  · split <;> omega

theorem iunlock_end {ip : Fin NINODE} {Q : ℤ → UserMem → Prop} (hX : ∀ e, X e) {v : ℤ} (hQ : Q v (s.env.proc p).mem) :
    ((iunlock ip : Code ℕ Unit).bind fun _ => pure v).wp (St.exec p) X (fun r t => Q r (t.env.proc p).mem) s := by
  refine (iunlock_beside hX ip s).seq fun _ t h => (Prog.wp_pure _ _ _).mpr ?_
  rw [h.1]
  exact hQ

theorem fileread_end {f : Fin NFILE} {ip : Fin NINODE} {off : BitVec 32} {Q : ℤ → UserMem → Prop} (hX : ∀ e, X e)
    {tot : ℕ} (hQ : Q tot (s.env.proc p).mem) :
    (if 0 < tot then (env (.setOff f off) : Code ℕ Unit).bind fun _ => (iunlock ip).bind fun _ => pure (tot : ℤ)
      else (iunlock ip).bind fun _ => pure (tot : ℤ)).wp (St.exec p) X (fun r t => Q r (t.env.proc p).mem) s := by
  split
  · rw [wp_env_ok rfl]
    exact iunlock_end hX hQ
  · exact iunlock_end hX hQ

section
variable {f : Fin NFILE} {addr : ℕ} {n : BitVec 32}

theorem fileread_inode (hX : ∀ e, X e) (htype : (s.env.ftable f).type = .inode)
    (hn : CountKept (s.env.ftable f).off.toNat (s.loaded sb (s.env.ftable f).ip).size.toNat n.toInt) :
    (fileread sb f addr n.toInt).wp (St.exec p) X
      (fun r t => r ≤ n.toInt.toNat ∧ (s.env.proc p).mem.Within addr n.toInt.toNat (t.env.proc p).mem) s := by
  rw [fileread,Prog.bind_eq,wp_env_ok rfl]
  split
  · exact (Prog.wp_pure _ _ _).mpr ⟨by omega,.refl _ _ _⟩
  simp only [htype]
  refine (ilock_loads hX _ s).seq fun _ t₁ ⟨h₁,_,_,hdin⟩ => ?_
  rw [Prog.bind_eq,wp_env_ok rfl,h₁.2]
  refine (readi_read hX t₁).seq fun r t₂ ⟨⟨hmem,_⟩,hr⟩ => ?_
  rw [hdin] at hmem hr
  rw [h₁.1] at hmem
  have hcount := hn.readCount_le
  have hmem : (s.env.proc p).mem.Within addr n.toInt.toNat (t₂.env.proc p).mem :=
    (UserMem.Within.refl _ addr _).trans hmem le_rfl (by omega)
  let Q := fun (r : ℤ) (u : UserMem) => r ≤ n.toInt.toNat ∧ (s.env.proc p).mem.Within addr n.toInt.toNat u
  cases hrr : r.1 with
  | none => exact iunlock_end (Q := Q) hX ⟨by omega,hmem⟩
  | some tot => exact fileread_end (Q := Q) hX ⟨by exact_mod_cast (hr tot hrr).trans hcount,hmem⟩

/-- The file system is consistent, the table agrees with it, and what is left of the file fits in the process's memory. -/
structure St.Serves (s : St) (sb : Superblock) (p : Pid) (f : Fin NFILE) (addr : ℕ) : Prop where
  own : (s.image sb).Own sb
  noHole : (s.image sb).NoHole sb
  alloc : (s.image sb).Alloc sb (s.env.itable (s.env.ftable f).ip).inum
  cached : (s.env.itable (s.env.ftable f).ip).valid →
    (s.env.itable (s.env.ftable f).ip).din = (s.image sb).ino (s.env.itable (s.env.ftable f).ip).inum
  room : UserMem.Accessible (s.env.proc p).mem.writable addr
    ((s.loaded sb (s.env.ftable f).ip).size.toNat - (s.env.ftable f).off.toNat)

theorem St.Serves.loaded (h : s.Serves sb p f addr) :
    s.loaded sb (s.env.ftable f).ip = (s.image sb).ino (s.env.itable (s.env.ftable f).ip).inum := by
  unfold St.loaded
  split
  · rename_i hv
    exact h.cached hv
  · exact (Image.ofBlocks_ino h.alloc.2.1).symm

theorem fileread_exceeds (hX : ∀ e, X e) (h : s.Serves sb p f addr) (hread : (s.env.ftable f).readable = true)
    (htype : (s.env.ftable f).type = .inode)
    (hn : ¬CountKept (s.env.ftable f).off.toNat (s.loaded sb (s.env.ftable f).ip).size.toNat n.toInt) :
    (fileread sb f addr n.toInt).wp (St.exec p) X (fun r _ => max n.toInt 0 < r) s := by
  rw [fileread,Prog.bind_eq,wp_env_ok rfl]
  dsimp only
  rw [if_neg (by rw [hread]; decide)]
  simp only [htype]
  refine (ilock_loads hX _ s).seq fun _ t₁ ht => ?_
  obtain ⟨h₁,hblk,hinum,hdin⟩ := ht
  rw [Prog.bind_eq,wp_env_ok rfl,h₁.2]
  have hloaded := h.loaded
  have hroom := h.room
  have hown := h.own
  have hhole := h.noHole
  have halloc := h.alloc
  generalize (s.env.ftable f).ip = ip at *
  have himage : t₁.image sb = s.image sb := by rw [St.image,hblk,St.image]
  have hview : t₁.view sb ip = s.image sb := (St.view_eq_image (by rw [hdin,himage,hinum,hloaded])).trans himage
  have hsize : (s.image sb).size (t₁.env.itable ip).inum = (s.loaded sb ip).size.toNat := by
    rw [Image.size,hinum,hloaded]
  have hoff := (s.env.ftable f).off.isLt
  have hlo := n.le_toInt
  have hlt := (s.loaded sb ip).size.isLt
  unfold CountKept at hn
  have hwp : (readi sb ip (.user addr) (s.env.ftable f).off.toNat (n.toInt % 2 ^ 32).toNat : Code ℕ _).wp (St.exec p) X _ t₁ :=
    readi_wp (hview ▸ hown) (hview ▸ hhole) (by rw [hview,hinum]; exact halloc) hoff (by omega)
  rw [hview,Image.readBytes,hsize,if_neg (by omega)] at hwp
  refine hwp.seq fun r t₂ hr => ?_
  obtain ⟨u,_,hu⟩ := hr
  obtain ⟨rfl,-⟩ := hu (by
    rw [h₁.1,Image.bytesAt_length]
    exact hroom.sub le_rfl (by omega))
  refine fileread_end (Q := fun r _ => max n.toInt 0 < r) hX ?_
  rw [Image.bytesAt_length]
  omega

end

abbrev CONSOLE : BitVec 16 := 1

/-- `fileread(f, addr, n)` returns `r` and leaves `u` in the memory of its process. The only device
that can be read is the console. -/
inductive Fileread (sb : Superblock) (p : Pid) (s : St) (f : Fin NFILE) (addr : ℕ) (n : BitVec 32) : ℤ → UserMem → Prop
  | unreadable : (s.env.ftable f).readable = false → Fileread sb p s f addr n (-1) (s.env.proc p).mem
  | pipe {r : ℤ} {u : UserMem} : (s.env.ftable f).readable = true → (s.env.ftable f).type = .pipe →
      PipeProtocol.Reads addr n.toInt (s.env.proc p).mem r u → Fileread sb p s f addr n r u
  | nodev : (s.env.ftable f).readable = true → (s.env.ftable f).type = .device → (s.env.ftable f).major ≠ CONSOLE →
      Fileread sb p s f addr n (-1) (s.env.proc p).mem
  | console {r : ℤ} {u : UserMem} : (s.env.ftable f).readable = true → (s.env.ftable f).type = .device →
      (s.env.ftable f).major = CONSOLE → Console.Returns addr n.toInt (s.env.proc p).mem r u → Fileread sb p s f addr n r u
  | inode {r : ℤ} {t : St} : (s.env.ftable f).readable = true → (s.env.ftable f).type = .inode →
      (fileread sb f addr n.toInt).run (St.exec p) s = .ok (r,t) → Fileread sb p s f addr n r (t.env.proc p).mem

/-- A `read` transfers no more than it was asked for if its count is kept, and for a file of a consistent file
system, read into memory of the process, only then. -/
theorem read_within_count {f : Fin NFILE} {addr : ℕ} {n : BitVec 32} {r : ℤ} {u : UserMem} (h : Fileread sb p s f addr n r u)
    (haddr : addr < 2 ^ 64) :
    (((s.env.ftable f).readable = true → (s.env.ftable f).type = .inode →
        CountKept (s.env.ftable f).off.toNat (s.loaded sb (s.env.ftable f).ip).size.toNat n.toInt) →
      r ≤ max n.toInt 0 ∧ ∀ a, a < addr ∨ addr + n.toInt.toNat ≤ a → u.byte a = (s.env.proc p).mem.byte a) ∧
    (s.Serves sb p f addr → r ≤ max n.toInt 0 → (s.env.ftable f).readable = true → (s.env.ftable f).type = .inode →
      CountKept (s.env.ftable f).off.toNat (s.loaded sb (s.env.ftable f).ip).size.toNat n.toInt) := by
  constructor
  · intro hn
    suffices hb : r ≤ n.toInt.toNat ∧ (s.env.proc p).mem.Within addr n.toInt.toNat u by
      exact ⟨by omega,hb.2⟩
    cases h with
    | unreadable | nodev => exact ⟨by omega,.refl _ _ _⟩
    | pipe _ _ h => exact h.bounded haddr
    | console _ _ _ h => exact h.bounded
    | inode hread htype hrun => exact (fileread_inode (fun _ => trivial) htype (hn hread htype)).of_run_ok hrun
  · intro hs hr hread htype
    by_contra hn
    cases h with
    | unreadable h => exact absurd (hread.symm.trans h) (by decide)
    | pipe _ h | nodev _ h | console _ h => exact absurd (htype.symm.trans h) (by decide)
    | inode _ _ hrun => exact absurd ((fileread_exceeds (fun _ => trivial) hs hread htype hn).of_run_ok hrun) (not_lt.mpr hr)

end Files

/-! ## A negative count -/

def rootOpened : St := { Sample.state with env := { Sample.env with
  ftable := fun _ => ⟨.inode,1,true,false,0,0,0,0⟩
  proc := fun p => { Sample.env.proc p with mem := ⟨fun _ => 0,fun _ => true,fun _ => true⟩ } } }

theorem read_within_count_root : ∃ r u, Fileread Sample.super 0 rootOpened 0 0 4 r u ∧ r = 4 ∧ u.byte 0 = 1 ∧
    ∀ a, 4 ≤ a → u.byte a = 0 := by
  obtain ⟨⟨_,t⟩,hrun,hq⟩ := Prog.ok_of_toOption_map (e := (fileread Sample.super 0 0 4).run (St.exec 0) rootOpened)
    (f := fun x => (x.1,(x.2.env.proc 0).mem.byte 0)) (q := (4,1)) (by decide +kernel)
  obtain ⟨rfl,hbyte⟩ := Prod.mk.inj hq
  have h : Fileread Sample.super 0 rootOpened 0 0 4 4 (t.env.proc 0).mem := .inode rfl rfl hrun
  exact ⟨4,_,h,rfl,hbyte,fun a ha => ((read_within_count h (by decide)).1 fun _ _ => .inl (by decide)).2 a
    (.inr (by simpa using ha))⟩

/-- `read(fd, 0, -1)` at the beginning of a file reads all of it. -/
theorem read_negative_count : ∃ r u, Fileread Sample.super 0 rootOpened 0 0 (-1) r u ∧ r = 48 ∧
    u.byte 0 ≠ (rootOpened.env.proc 0).mem.byte 0 := by
  obtain ⟨⟨_,t⟩,hrun,hq⟩ := Prog.ok_of_toOption_map (e := (fileread Sample.super 0 0 (-1)).run (St.exec 0) rootOpened)
    (f := fun x => (x.1,(x.2.env.proc 0).mem.byte 0)) (q := (48,1)) (by decide +kernel)
  obtain ⟨rfl,hbyte⟩ := Prod.mk.inj hq
  refine ⟨48,_,.inode rfl rfl hrun,rfl,?_⟩
  rw [hbyte]
  decide

end Xv6
