import Xv6.Vm.Procs
import Xv6.User.Malloc

/-! # `malloc` on top of `sbrk`

`sys_sbrk` and `growproc` move the break of a process by an `int`. `morecore` passes the product of a number of
units and their size, which the call converts to an `int`.
-/
namespace Xv6

/-- `sbrk(n)` when the break is at `brk`: what it returns, `none` for -1, and the new break. Growing needs memory for
the new pages, which there is if `ok` is set, and a process has at most `room` bytes. -/
def sbrk (room brk : ℕ) (n : BitVec 32) (ok : Bool) : Option ℕ × ℕ :=
  if 0 < n.toInt then
    if ok ∧ brk + n.toNat ≤ room then (some brk,brk + n.toNat) else (none,brk)
  -- shrinking by more than there is wraps around to a size that is larger, and nothing happens
  else (some brk,if n.toInt.natAbs ≤ brk then brk - n.toInt.natAbs else brk)

namespace Vm
open Library Library.Prog Library.Assert Machine

section
variable {ram : Ram} {m : Machine} {pagetable oldsz newsz : ℕ}

theorem uvmdealloc_returns : (uvmdealloc pagetable oldsz newsz).wp (exec ram) (fun _ => True)
    (fun r _ => r = if newsz ≥ oldsz then oldsz else newsz) m := by
  rw [uvmdealloc]
  split
  · exact (wp_pure _ _ _).mpr rfl
  · split
    · exact wp_bind_any (fun _ => trivial) fun _ _ => (wp_pure _ _ _).mpr rfl
    · exact (wp_pure _ _ _).mpr rfl

theorem allocLoop_returns {perm : BitVec 64} (n a : ℕ) : (allocLoop pagetable oldsz newsz perm n a).wp (exec ram)
    (fun _ => True) (fun r _ => r = 0 ∨ r = newsz) m := by
  induction n generalizing m a with
  | zero => exact (wp_pure _ _ _).mpr (.inr rfl)
  | succ n ih =>
    rw [allocLoop]
    refine wp_bind_any (fun _ => trivial) fun mem m₁ => ?_
    cases mem with
    | none => exact wp_bind_any (fun _ => trivial) fun _ _ => (wp_pure _ _ _).mpr (.inl rfl)
    | some mem =>
      refine wp_bind_any (fun _ => trivial) fun _ m₂ => wp_bind_any (fun _ => trivial) fun r m₃ => ?_
      split
      · refine wp_bind_any (fun _ => trivial) fun _ m₄ => ?_
        exact wp_bind_any (fun _ => trivial) fun _ _ => (wp_pure _ _ _).mpr (.inl rfl)
      · exact ih _

theorem uvmalloc_returns {perm : BitVec 64} (hle : oldsz ≤ newsz) : (uvmalloc pagetable oldsz newsz perm).wp (exec ram)
    (fun _ => True) (fun r _ => r = 0 ∨ r = newsz) m := by
  rw [uvmalloc,if_neg (by omega)]
  exact allocLoop_returns _ _

end

section
variable {ram : Ram} {trampoline : ℕ} {m : Machine} {h : Heap ℕ Page} {p : Space} {guard : Set ℕ}

theorem growproc_returns (n : BitVec 32) (hsz : p.sz + 2 ^ 32 ≤ 2 ^ 64) : (growproc p n).wp (exec ram) (fun _ => True)
    (fun r _ => r.1 = -1 ∧ 0 < n.toInt ∧ r.2.sz = p.sz ∨ r.1 = 0 ∧ r.2.sz =
      if 0 < n.toInt then p.sz + n.toNat else if n.toInt.natAbs ≤ p.sz then p.sz - n.toInt.natAbs else p.sz) m := by
  have hn := n.isLt
  have habs : n.toInt.natAbs < 2 ^ 32 := by
    have := BitVec.toInt_eq_toNat_cond n
    split at this <;> omega
  rw [growproc]
  by_cases hpos : 0 < n.toInt
  · rw [if_pos hpos,Nat.mod_eq_of_lt (by omega)]
    refine wp.seq (uvmalloc_returns (Nat.le_add_right _ _)) fun r t hr => ?_
    by_cases hzero : r = 0
    · rw [if_pos hzero]
      exact (wp_pure _ _ _).mpr (.inl ⟨rfl,hpos,rfl⟩)
    · rw [if_neg hzero]
      refine (wp_pure _ _ _).mpr (.inr ⟨rfl,?_⟩)
      rw [if_pos hpos]
      exact hr.resolve_left hzero
  · rw [if_neg hpos,if_neg hpos]
    by_cases hneg : n.toInt < 0
    · rw [if_pos hneg]
      refine wp.seq uvmdealloc_returns fun r t hr => (wp_pure _ _ _).mpr (.inr ⟨rfl,?_⟩)
      change r = _
      rw [hr]
      by_cases hle : n.toInt.natAbs ≤ p.sz
      · have hmod : (p.sz + (2 ^ 64 - n.toInt.natAbs)) % 2 ^ 64 = p.sz - n.toInt.natAbs := by omega
        rw [hmod,if_pos hle,if_neg (by omega)]
      · rw [if_neg hle,if_pos (by omega)]
    · rw [if_neg hneg]
      refine (wp_pure _ _ _).mpr (.inr ⟨rfl,?_⟩)
      rw [show n.toInt.natAbs = 0 by omega,if_pos (Nat.zero_le _)]
      rfl

/-- `growproc` never fails other than by returning -1, and moves the break as `sbrk` says. -/
theorem growproc_sbrk (hpages : ram.pages < trapPage) (hm : m.Agrees ram h) (hs : space ram trampoline guard p h)
    (n : BitVec 32) : ∃ r q m', (growproc p n).run (exec ram) m = .ok ((r,q),m') ∧
      ∃ ok, sbrk (ram.pages * PGSIZE) p.sz n ok = (if r < 0 then none else some p.sz,q.sz) := by
  have hle := (of_space hm hs).1.le_pow
  have hsz : p.sz + 2 ^ 32 ≤ 2 ^ 64 := by
    simp only [npages,PGSIZE] at hle
    omega
  rcases run_of_must hm (growproc_le (X := fun _ => False) hpages _ hs) with ⟨⟨r,q⟩,m',h',hr,hq,hm',-⟩ | ⟨e,-,he⟩
  · have hroom := (of_space hm' (fact_mul_iff.mp hq).2).1.npages_le
    refine ⟨r,q,m',hr,?_⟩
    rcases wp.of_run_ok (growproc_returns n hsz) hr with ⟨hr,hpos,hsame⟩ | ⟨hr,hmove⟩
    · refine ⟨false,?_⟩
      rw [sbrk,if_pos hpos,if_neg (by simp)]
      simp only at hr hsame
      rw [hr,hsame]
      rfl
    · refine ⟨true,?_⟩
      simp only at hr hmove
      rw [hr,if_neg (by decide),hmove,sbrk]
      split
      · rename_i hpos
        rw [hmove,if_pos hpos] at hroom
        rw [if_pos ⟨rfl,by simp only [npages,PGSIZE] at hroom ⊢; omega⟩]
      · rfl
  · exact he.elim

end

/-- A process that has just been allocated asks for a page. -/
theorem growproc_sbrk_page : ∃ (m m' : Machine) (p q : Space), p.sz = 0 ∧
    ∃ r, (growproc p 4096).run (exec forkRam) m = .ok ((r,q),m') ∧
      ∃ ok, sbrk (forkRam.pages * PGSIZE) 0 4096 ok = (if r < 0 then none else some 0,q.sz) := by
  obtain ⟨p,m,hrun⟩ := Procs.forkMachine_allocproc
  rcases run_of_must forkMachine_agrees (allocproc_le (X := fun _ => False) .empty rfl) with ⟨_,_,h,hrun',hp,hm,-⟩ | ⟨q,-,hq⟩
  · cases hrun.symm.trans hrun'
    obtain ⟨hsz,hspace⟩ := fact_mul_iff.mp hp
    obtain ⟨r,q,m',hr,hok⟩ := growproc_sbrk (by decide) hm hspace 4096
    exact ⟨m,m',p,q,hsz,r,hr,hsz ▸ hok⟩
  · exact hq.elim

end Vm

namespace Umalloc
open Vm (PGROUNDUP)

def RAMSIZE : ℕ := 128 * 1024 * 1024

/-! ## The code, with the break -/

/-- `nu * sizeof(Header)` as the `int` that `sbrk` takes -/
def sbrkArg (nu : ℕ) : BitVec 32 := BitVec.ofNat 32 (Heap.ask nu * 16)

/-- How a call does not return: the process is killed for an access beyond its pages, or the fuel runs out. -/
inductive Fault where
  | page
  | fuel
deriving DecidableEq

/-- `morecore(nu)`; the new break is the second result. The process has the pages up to its break, and the header of
the new block, above all others, is the first thing that `morecore` stores. -/
def Heap.morecoreBrk (fuel : ℕ) (s : Heap) (brk nu : ℕ) (ok : Bool) : Except Fault (Heap × ℕ × ℕ) :=
  let r := sbrk RAMSIZE brk (sbrkArg nu) ok
  if r.1.any (fun p => PGROUNDUP r.2 < p + 16) then .error .page
  else
    match s.morecore fuel nu r.1 with
    | none => .error .fuel
    | some q => .ok (q.1,r.2,q.2)

/-- The loop of `malloc`; `oks` tells for each call of `sbrk` whether there is memory. -/
def Heap.mallocLoopBrk (nunits : ℕ) : ℕ → Heap → (brk prevp p : ℕ) → List Bool → Except Fault (Heap × ℕ × ℕ)
  | 0, _, _, _, _, _ => .error .fuel
  | fuel + 1, s, brk, prevp, p, oks =>
    if s.size p ≥ nunits then
      let q := s.take nunits prevp p
      .ok (q.1,brk,q.2)
    else if p = s.freep then
      match s.morecoreBrk fuel brk nunits (oks.headD false) with
      | .error e => .error e
      | .ok (s',brk',p') =>
        if p' = 0 then .ok (s',brk',0) else mallocLoopBrk nunits fuel s' brk' p' (s'.ptr p') oks.tail
    else mallocLoopBrk nunits fuel s brk p (s.ptr p) oks

/-- `malloc(nbytes)` with the break at `brk`. -/
def Heap.mallocBrk (base fuel : ℕ) (s : Heap) (brk nbytes : ℕ) (oks : List Bool) : Except Fault (Heap × ℕ × ℕ) :=
  let s := if s.freep = 0 then s.start base else s
  Heap.mallocLoopBrk (units nbytes) fuel s brk s.freep (s.ptr s.freep) oks

/-! ## Without truncation -/

section
variable {nu brk : ℕ} {ok : Bool}

theorem le_ask (nu : ℕ) : nu ≤ Heap.ask nu ∧ 0 < Heap.ask nu := by
  unfold Heap.ask
  split_ifs <;> omega

theorem ask_mul_lt (h : nu * 16 < 2 ^ 31) : Heap.ask nu * 16 < 2 ^ 31 := by
  unfold Heap.ask
  split_ifs <;> omega

/-- If the product is an `int`, the block that `morecore` puts into the list is just what the break has moved by. -/
theorem sbrk_ask (h : nu * 16 < 2 ^ 31) : sbrk RAMSIZE brk (sbrkArg nu) ok =
    if ok ∧ plus brk (Heap.ask nu) ≤ RAMSIZE then (some brk,plus brk (Heap.ask nu)) else (none,brk) := by
  have hlt := ask_mul_lt h
  have hpos := (le_ask nu).2
  have hnat : (sbrkArg nu).toNat = 16 * Heap.ask nu := by
    rw [sbrkArg,BitVec.toNat_ofNat,Nat.mod_eq_of_lt (by omega),Nat.mul_comm]
  have hint : 0 < (sbrkArg nu).toInt := by
    rw [BitVec.toInt_eq_toNat_of_lt (by omega),hnat]
    omega
  rw [sbrk,if_pos hint,hnat]
  rfl

theorem sbrk_small (h : ¬nu * 16 < 2 ^ 31) (hnu : nu ≤ units (2 ^ 32 - 1)) (hbrk : brk + 16 ≤ RAMSIZE) :
    ∃ brk', sbrk RAMSIZE brk (sbrkArg nu) true = (some brk,brk') ∧ brk' ≤ brk + 16 := by
  have hask : Heap.ask nu = nu := if_neg (by omega)
  have hle : nu ≤ 2 ^ 28 + 1 := hnu
  have hint := BitVec.toInt_eq_toNat_cond (sbrkArg nu)
  have hnat : (sbrkArg nu).toNat = nu * 16 % 2 ^ 32 := by rw [sbrkArg,BitVec.toNat_ofNat,hask]
  rw [hnat] at hint
  rw [sbrk]
  by_cases hpos : 0 < (sbrkArg nu).toInt
  · have h16 : (sbrkArg nu).toNat = 16 := by
      rw [hnat]
      split at hint <;> omega
    rw [if_pos hpos,h16,if_pos ⟨rfl,hbrk⟩]
    exact ⟨_,rfl,le_rfl⟩
  · rw [if_neg hpos]
    refine ⟨_,rfl,?_⟩
    split <;> omega

theorem morecoreBrk_eq (h : nu * 16 < 2 ^ 31) (fuel : ℕ) (s : Heap) : s.morecoreBrk fuel brk nu ok =
    match s.morecore fuel nu (sbrk RAMSIZE brk (sbrkArg nu) ok).1 with
    | none => .error .fuel
    | some q => .ok (q.1,(sbrk RAMSIZE brk (sbrkArg nu) ok).2,q.2) := by
  have hpos := (le_ask nu).2
  rw [Heap.morecoreBrk,if_neg]
  rw [sbrk_ask h]
  split_ifs with hok
  · intro hlt
    have hlt : PGROUNDUP (plus brk (Heap.ask nu)) < brk + 16 := of_decide_eq_true hlt
    have hroom := hok.2
    simp only [plus,PGROUNDUP,PGSIZE,RAMSIZE] at hlt hroom
    omega
  · exact Bool.false_ne_true

/-- What `sbrk` answers to the same request again and again. -/
def answers (nu : ℕ) : ℕ → List Bool → List (Option ℕ)
  | _, [] => []
  | brk, ok :: oks => (sbrk RAMSIZE brk (sbrkArg nu) ok).1 :: answers nu (sbrk RAMSIZE brk (sbrkArg nu) ok).2 oks

theorem mallocLoopBrk_eq (h : nu * 16 < 2 ^ 31) (fuel : ℕ) (s : Heap) (brk prevp p : ℕ) (oks : List Bool) :
    (Heap.mallocLoopBrk nu fuel s brk prevp p oks).toOption.map (fun q => (q.1,q.2.2)) =
      Heap.mallocLoop nu fuel s prevp p (answers nu brk oks) := by
  induction fuel generalizing s brk prevp p oks with
  | zero => rfl
  | succ fuel ih =>
    have hhead : (answers nu brk oks).headD none = (sbrk RAMSIZE brk (sbrkArg nu) (oks.headD false)).1 := by
      cases oks with
      | nil =>
        rw [sbrk_ask h,if_neg (by simp)]
        rfl
      | cons ok oks => rfl
    have htail : (answers nu brk oks).tail = answers nu (sbrk RAMSIZE brk (sbrkArg nu) (oks.headD false)).2 oks.tail := by
      cases oks with
      | nil => rfl
      | cons ok oks => rfl
    rw [Heap.mallocLoopBrk,Heap.mallocLoop,hhead,htail,morecoreBrk_eq h]
    split_ifs
    · rfl
    · cases s.morecore fuel nu (sbrk RAMSIZE brk (sbrkArg nu) (oks.headD false)).1 with
      | none => rfl
      | some q =>
        dsimp only
        split_ifs
        · rfl
        · exact ih _ _ _ _ _
    · exact ih _ _ _ _ _

/-- The break is behind everything that `sbrk` has returned. -/
structure Backed (s : Heap) (brk : ℕ) : Prop where
  top : s.top ≤ brk
  total : 16 * total s.regions ≤ brk
  room : brk ≤ RAMSIZE

theorem free_regions {fuel ap : ℕ} {s s' : Heap} (h : s.free fuel ap = some s') :
    s'.regions = s.regions ∧ s'.top = s.top := by
  obtain ⟨p,-,rfl⟩ := Option.map_eq_some_iff.mp h
  exact ⟨joinLower_regions.trans joinUpper_regions,joinLower_top.trans joinUpper_top⟩

theorem take_regions (s : Heap) (nunits prevp p : ℕ) :
    (s.take nunits prevp p).1.regions = s.regions ∧ (s.take nunits prevp p).1.top = s.top := by
  unfold Heap.take
  split_ifs <;> exact ⟨rfl,rfl⟩

theorem Backed.morecoreBrk {s s' : Heap} {fuel brk' p : ℕ} (hb : Backed s brk) (h : nu * 16 < 2 ^ 31)
    (hr : s.morecoreBrk fuel brk nu ok = .ok (s',brk',p)) : Backed s' brk' ∧ brk ≤ brk' := by
  rw [morecoreBrk_eq h] at hr
  split at hr
  · cases hr
  rename_i q hm
  obtain ⟨t,q⟩ := q
  cases hr
  rw [sbrk_ask h] at hm ⊢
  split_ifs at hm ⊢ with hok
  · obtain ⟨s₁,hfree,heq⟩ := Option.map_eq_some_iff.mp hm
    cases heq
    obtain ⟨hregions,htop⟩ := free_regions hfree
    have htotal := hb.total
    refine ⟨⟨?_,?_,hok.2⟩,Nat.le_add_right _ _⟩
    · rw [htop]
      exact le_rfl
    · rw [hregions]
      change 16 * Umalloc.total (s.regions ++ [(brk,Heap.ask nu)]) ≤ plus brk (Heap.ask nu)
      rw [total_append,plus]
      simp only [Umalloc.total,List.map_cons,List.map_nil,List.sum_cons,List.sum_nil] at htotal ⊢
      omega
  · cases hm
    exact ⟨hb,le_rfl⟩

theorem Backed.mallocLoopBrk {s s' : Heap} {fuel brk' prevp p r : ℕ} {oks : List Bool} (hb : Backed s brk)
    (h : nu * 16 < 2 ^ 31) (hr : Heap.mallocLoopBrk nu fuel s brk prevp p oks = .ok (s',brk',r)) :
    Backed s' brk' ∧ brk ≤ brk' := by
  induction fuel generalizing s brk prevp p oks with
  | zero => cases hr
  | succ fuel ih =>
    rw [Heap.mallocLoopBrk] at hr
    split_ifs at hr with hsize hround
    · cases hr
      obtain ⟨hregions,htop⟩ := take_regions s nu prevp p
      exact ⟨⟨htop ▸ hb.top,hregions ▸ hb.total,hb.room⟩,le_rfl⟩
    · cases hm : s.morecoreBrk fuel brk nu (oks.headD false) with
      | error e =>
        simp only [hm] at hr
        cases hr
      | ok q =>
        obtain ⟨s₁,brk₁,p₁⟩ := q
        obtain ⟨hb₁,hle⟩ := hb.morecoreBrk h hm
        simp only [hm] at hr
        split_ifs at hr
        · cases hr
          exact ⟨hb₁,hle⟩
        · obtain ⟨hb',hle'⟩ := ih hb₁ hr
          exact ⟨hb',hle.trans hle'⟩
    · exact ih hb hr

theorem Backed.grants (h : nu * 16 < 2 ^ 31) {top given : ℕ} (htop : top ≤ brk) (hgiven : 16 * given ≤ brk) (oks : List Bool) :
    Grants (RAMSIZE / 16) (Heap.ask nu) top given (answers nu brk oks) := by
  induction oks generalizing brk top given with
  | nil => exact trivial
  | cons ok oks ih =>
    rw [answers,sbrk_ask h]
    split_ifs with hok
    · have hroom := hok.2
      rw [plus] at hroom
      refine ⟨htop,by omega,ih le_rfl ?_⟩
      rw [plus]
      omega
    · exact ih htop hgiven

end

/-! ## Runs -/

structure Process where
  world : World
  brk : ℕ

/-- The steps of `Step`, with `sbrk` as the kernel has it; the program may also grow by itself. -/
inductive Process.Step (base : ℕ) : Process → Process → Prop
  | malloc {w : World} {s : Heap} {brk brk' p : ℕ} (nbytes fuel : ℕ) (oks : List Bool) (hsize : units nbytes * 16 < 2 ^ 31)
      (h : w.heap.mallocBrk base fuel brk nbytes oks = .ok (s,brk',p)) :
      Process.Step base ⟨w,brk⟩ ⟨⟨s,if p = 0 then w.live else ⟨p - 16,nbytes⟩ :: w.live⟩,brk'⟩
  | free {w : World} {s : Heap} {brk : ℕ} {b : Block} {live₁ live₂ : List Block} (fuel : ℕ) (hlive : w.live = live₁ ++ b :: live₂)
      (h : w.heap.free fuel (b.addr + 16) = some s) : Process.Step base ⟨w,brk⟩ ⟨⟨s,live₁ ++ live₂⟩,brk⟩
  | store {w : World} {brk : ℕ} (hdr : ℕ → Header) (h : w.Stores hdr) :
      Process.Step base ⟨w,brk⟩ ⟨{ w with heap := { w.heap with hdr } },brk⟩
  | grow {w : World} {brk : ℕ} (n : BitVec 32) (ok : Bool) (hn : 0 < n.toInt) :
      Process.Step base ⟨w,brk⟩ ⟨w,(sbrk RAMSIZE brk n ok).2⟩

inductive Process.Reachable (base : ℕ) : Process → Prop
  | init {s : Heap} {brk : ℕ} (hfreep : s.freep = 0) (hregions : s.regions = []) (hbase : base + 16 ≤ s.top) (htop : s.top ≤ brk)
      (hroom : brk ≤ RAMSIZE) : Process.Reachable base ⟨⟨s,[]⟩,brk⟩
  | step {w w' : Process} (h : Process.Reachable base w) (hs : Process.Step base w w') : Process.Reachable base w'

structure Process.Ok (base : ℕ) (w : Process) : Prop where
  world : w.world.Ok base (RAMSIZE / 16)
  backed : Backed w.world.heap w.brk

section
variable {base : ℕ} {w w' : Process}

theorem mallocBrk_eq {nbytes : ℕ} (h : units nbytes * 16 < 2 ^ 31) (fuel : ℕ) (s : Heap) (brk : ℕ) (oks : List Bool) :
    (s.mallocBrk base fuel brk nbytes oks).toOption.map (fun q => (q.1,q.2.2)) =
      s.malloc base fuel nbytes (answers (units nbytes) brk oks) := mallocLoopBrk_eq h _ _ _ _ _ _

theorem Backed.mallocBrk {s s' : Heap} {nbytes fuel brk brk' r : ℕ} {oks : List Bool} (hb : Backed s brk)
    (h : units nbytes * 16 < 2 ^ 31) (hr : s.mallocBrk base fuel brk nbytes oks = .ok (s',brk',r)) :
    Backed s' brk' ∧ brk ≤ brk' := by
  rw [Heap.mallocBrk] at hr
  refine Backed.mallocLoopBrk ?_ h hr
  split_ifs
  · exact ⟨hb.top,hb.total,hb.room⟩
  · exact hb

theorem Process.Ok.malloc (hw : w.Ok base) (hbase : 0 < base) {nbytes : ℕ} (h : units nbytes * 16 < 2 ^ 31) (oks : List Bool) :
    ∃ fuel s brk r, w.world.heap.mallocBrk base fuel w.brk nbytes oks = .ok (s,brk,r) ∧ w.brk ≤ brk ∧
      Process.Ok base ⟨⟨s,if r = 0 then w.world.live else ⟨r - 16,nbytes⟩ :: w.world.live⟩,brk⟩ := by
  have hgrants := Backed.grants h hw.backed.top hw.backed.total oks
  obtain ⟨fuel,s,r,hr,hok⟩ := hw.world.malloc (by decide) hbase hgrants
  rw [← mallocBrk_eq h] at hr
  obtain ⟨⟨s',brk,r'⟩,hrun,heq⟩ := Library.Prog.ok_of_toOption_map hr
  cases heq
  obtain ⟨hb,hle⟩ := hw.backed.mallocBrk h hrun
  exact ⟨fuel,s',brk,r',hrun,hle,hok,hb⟩

theorem Process.Ok.step (hw : w.Ok base) (hbase : 0 < base) (hs : Process.Step base w w') : w'.Ok base := by
  cases hs with
  | @malloc v s brk brk' p nbytes fuel oks hsize h =>
    have hgrants := Backed.grants hsize hw.backed.top hw.backed.total oks
    have hstep : v.heap.malloc base fuel nbytes (answers (units nbytes) brk oks) = some (s,p) := by
      rw [← mallocBrk_eq hsize,h]
      rfl
    exact ⟨hw.world.step (by decide) hbase (.malloc nbytes fuel _ hsize hgrants hstep),(hw.backed.mallocBrk hsize h).1⟩
  | free fuel hlive h =>
    obtain ⟨hregions,htop⟩ := free_regions h
    refine ⟨hw.world.step (by decide) hbase (.free fuel hlive h),?_,?_,hw.backed.room⟩
    · exact htop.trans_le hw.backed.top
    · exact hregions ▸ hw.backed.total
  | store hdr h => exact ⟨hw.world.step (by decide) hbase (.store hdr h),hw.backed.top,hw.backed.total,hw.backed.room⟩
  | grow n ok hn =>
    obtain ⟨hok,htop,htotal,hroom⟩ := hw
    refine ⟨hok,?_⟩
    rw [sbrk,if_pos hn]
    split_ifs with h
    · exact ⟨htop.trans (Nat.le_add_right _ _),htotal.trans (Nat.le_add_right _ _),h.2⟩
    · exact ⟨htop,htotal,hroom⟩

theorem Process.Reachable.ok (hbase : 0 < base) (h : w.Reachable base) : w.Ok base := by
  induction h with
  | init hfreep hregions hb htop hroom =>
    refine ⟨.inl ⟨hfreep,rfl,hregions,hb⟩,htop,?_,hroom⟩
    rw [hregions]
    exact Nat.zero_le _
  | step _ hs ih => exact ih.step hbase hs

/-- If the request rounds to less than 2 ^ 31 bytes, `morecore` puts no more into the list than the break has moved
by, and `malloc` returns a null pointer or bytes that are all below the break. For any other request the block is
larger than what the break has moved by, in every process that is not at the end of its memory. -/
theorem malloc_below_break (hbase : 0 < base) (h : w.Reachable base) {nbytes : ℕ} (hn : nbytes < 2 ^ 32) :
    (units nbytes * 16 < 2 ^ 31 →
      (∀ brk ok p brk', sbrk RAMSIZE brk (sbrkArg (units nbytes)) ok = (some p,brk') →
        p = brk ∧ brk + 16 * Heap.ask (units nbytes) ≤ brk') ∧
      ∀ oks, ∃ fuel s brk r, w.world.heap.mallocBrk base fuel w.brk nbytes oks = .ok (s,brk,r) ∧ w.brk ≤ brk ∧
        (r = 0 ∨ r + nbytes ≤ brk)) ∧
    (w.brk + 16 ≤ RAMSIZE →
      (∀ ok p brk', sbrk RAMSIZE w.brk (sbrkArg (units nbytes)) ok = (some p,brk') →
        w.brk + 16 * Heap.ask (units nbytes) ≤ brk') →
      units nbytes * 16 < 2 ^ 31) := by
  refine ⟨fun hsize => ⟨?_,fun oks => ?_⟩,fun hroom hgrows => ?_⟩
  · intro brk ok p brk' hr
    rw [sbrk_ask hsize] at hr
    split_ifs at hr
    · cases hr
      exact ⟨rfl,le_rfl⟩
    · cases hr
  · obtain ⟨fuel,s,brk,r,hr,hle,hok⟩ := (h.ok hbase).malloc hbase hsize oks
    refine ⟨fuel,s,brk,r,hr,hle,?_⟩
    by_cases hzero : r = 0
    · exact .inl hzero
    right
    obtain ⟨⟨-,hnil,-⟩ | ⟨l,hi⟩,hb⟩ := hok
    · simp only [if_neg hzero] at hnil
      cases hnil
    · have hmem : Block.range ⟨r - 16,nbytes⟩ ∈ World.ranges
        ⟨s,if r = 0 then w.world.live else ⟨r - 16,nbytes⟩ :: w.world.live⟩ := by
        rw [if_neg hzero]
        exact List.mem_map.mpr ⟨_,List.mem_cons_self,rfl⟩
      have hwithin := (hi.mem_within (List.mem_append_right _ hmem)).2
      have hroom := Block.room ⟨r - 16,nbytes⟩
      have htop := hb.top
      simp only [Block.range] at hwithin hroom htop
      omega
  · by_contra hsize
    have hunits : units nbytes ≤ units (2 ^ 32 - 1) := by
      simp only [units]
      omega
    obtain ⟨brk',hr,hle⟩ := sbrk_small hsize hunits hroom
    have := hgrows true w.brk brk' hr
    have := (le_ask (units nbytes)).1
    omega

end

/-- A process of four pages asks for 20 bytes. -/
theorem malloc_below_break_small :
    ∃ fuel s brk r, Heap.mallocBrk 16 fuel ⟨fun _ => ⟨0,0⟩,0,[],32⟩ 16384 20 [true] = .ok (s,brk,r) ∧ 16384 ≤ brk ∧
      (r = 0 ∨ r + 20 ≤ brk) :=
  ((malloc_below_break (by decide) (.init (s := ⟨fun _ => ⟨0,0⟩,0,[],32⟩) rfl rfl (by decide) (by decide) (by decide))
    (by decide)).1 (by decide)).2 [true]

/-- The largest request makes the break move by 16 bytes, and `malloc` returns a pointer to the new break. Another
one makes the process a page smaller and then has it killed. -/
theorem malloc_huge :
    (Heap.mallocBrk 16 4 ⟨fun _ => ⟨0,0⟩,0,[],32⟩ 16384 0xffffffff [true]).toOption.map Prod.snd = some (16400,16400) ∧
      sbrk RAMSIZE 16384 (sbrkArg (units 0xffffeff0)) true = (some 16384,12288) ∧
      ∀ fuel, Heap.mallocBrk 16 (fuel + 1) ⟨fun _ => ⟨0,0⟩,0,[],32⟩ 16384 0xffffeff0 [true] = .error .page := by
  refine ⟨by decide +kernel,by decide +kernel,fun fuel => ?_⟩
  have hpage : ∀ s : Heap, s.morecoreBrk fuel 16384 (units 0xffffeff0) true = .error .page := fun s => by
    rw [Heap.morecoreBrk,if_pos (by decide +kernel)]
  rw [Heap.mallocBrk,Heap.mallocLoopBrk,if_neg (by decide +kernel),if_pos (by decide +kernel)]
  simp only [List.headD_cons,hpage]

end Umalloc

end Xv6
