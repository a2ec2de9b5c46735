import Xv6.User.FreeList

/-! # `malloc` and `free` on a whole run

A program calls `malloc` and `free` and writes to the blocks it has. `sbrk` gives it at most `limit`
units in all, each time above everything that it has given before.
-/
namespace Xv6.Umalloc
open Function (update update_eq_self update_of_ne update_self)

open Library

/-! ### The search of `malloc` -/

section Mono
variable {s : Heap} {n m : ℕ}

theorem free_mono {ap : ℕ} {s' : Heap} (h : s.free n ap = some s') (hle : n ≤ m) : s.free m ap = some s' := by
  obtain ⟨p,hp,rfl⟩ := Option.map_eq_some_iff.mp h
  exact Option.map_eq_some_iff.mpr ⟨p,freeLoop_mono hp hle,rfl⟩

theorem morecore_mono {nu : ℕ} {ans : Option ℕ} {r : Heap × ℕ} (h : s.morecore n nu ans = some r) (hle : n ≤ m) :
    s.morecore m nu ans = some r := by
  cases ans with
  | none => exact h
  | some p =>
    obtain ⟨s',hs',rfl⟩ := Option.map_eq_some_iff.mp h
    exact Option.map_eq_some_iff.mpr ⟨s',free_mono hs' hle,rfl⟩

theorem mallocLoop_mono {nunits prevp p : ℕ} {ans : List (Option ℕ)} {r : Heap × ℕ}
    (h : Heap.mallocLoop nunits n s prevp p ans = some r) (hle : n ≤ m) : Heap.mallocLoop nunits m s prevp p ans = some r := by
  induction n generalizing m s prevp p ans with
  | zero => cases h
  | succ n ih =>
    obtain ⟨m,rfl⟩ : ∃ k, m = k + 1 := ⟨m - 1,by omega⟩
    rw [Heap.mallocLoop] at h ⊢
    split_ifs at h ⊢ with h₁ h₂
    · exact h
    · cases hm : s.morecore n nunits (ans.headD none) with
      | none => simp only [hm] at h; cases h
      | some r' =>
        rw [morecore_mono hm (by omega)]
        simp only [hm] at h ⊢
        split_ifs at h ⊢
        · exact h
        · exact ih h (by omega)
    · exact ih h (by omega)

end Mono

section Scan
variable {s : Heap} {base nunits p q : ℕ} {l l₁ l₂ : List (ℕ × ℕ)} {b c d : ℕ × ℕ}

theorem mallocLoop_scan {ans : List (Option ℕ)} {xs : List ℕ} (hl : Links s.ptr (q :: xs ++ [s.freep])) (hxs : s.freep ∉ xs) :
    (∃ q' ∈ q :: xs, nunits ≤ s.size (s.ptr q') ∧
      ∃ n, Heap.mallocLoop nunits n s q (s.ptr q) ans = some (s.take nunits q' (s.ptr q'))) ∨
    (∀ x ∈ xs ++ [s.freep], s.size x < nunits) ∧
      ∃ q' m, ∀ n, Heap.mallocLoop nunits (n + 1 + m) s q (s.ptr q) ans = Heap.mallocLoop nunits (n + 1) s q' s.freep ans := by
  induction xs generalizing q with
  | nil =>
    have hq : s.ptr q = s.freep := (List.isChain_cons_cons.mp hl).1
    by_cases hs : nunits ≤ s.size (s.ptr q)
    · exact Or.inl ⟨q,by simp,hs,1,by rw [Heap.mallocLoop,if_pos hs]⟩
    · refine Or.inr ⟨by simpa [hq] using hs,q,0,fun n => by rw [hq,Nat.add_zero]⟩
  | cons x xs ih =>
    obtain ⟨hq,hl⟩ := List.isChain_cons_cons.mp hl
    obtain ⟨hx,hxs⟩ := not_or.mp (List.mem_cons.not.mp hxs)
    by_cases hs : nunits ≤ s.size (s.ptr q)
    · exact Or.inl ⟨q,by simp,hs,1,by rw [Heap.mallocLoop,if_pos hs]⟩
    have hstep : ∀ n, Heap.mallocLoop nunits (n + 1) s q (s.ptr q) ans = Heap.mallocLoop nunits n s x (s.ptr x) ans := fun n => by
      rw [Heap.mallocLoop,if_neg hs,if_neg (by rw [hq]; exact Ne.symm hx),hq]
    rcases ih hl hxs with ⟨q',hq',hs',n,h⟩ | ⟨hall,q',m,h⟩
    · exact Or.inl ⟨q',List.mem_cons_of_mem _ hq',hs',n + 1,(hstep n).trans h⟩
    · refine Or.inr ⟨fun y hy => ?_,q',m + 1,fun n => (hstep _).trans (h n)⟩
      rcases List.mem_cons.mp hy with rfl | hy
      · rw [← hq]
        omega
      · exact hall y hy

theorem FreeList.around (hf : FreeList s base l) (hp : p ∈ base :: addrs l) :
    ∃ xs, Links s.ptr (p :: xs ++ [p]) ∧ p ∉ xs ∧ ∀ x, x ∈ p :: xs ↔ x ∈ base :: addrs l := by
  have hnd := hf.spaced.sorted.imp fun h => Nat.ne_of_lt h
  have hl := hf.links
  obtain ⟨us,vs,huv⟩ := List.append_of_mem hp
  rw [addrs_cons,huv] at hnd
  rw [huv,List.append_assoc,List.cons_append,Links,List.isChain_split] at hl
  refine ⟨vs ++ us,?_,?_,fun x => by rw [huv]; simp; tauto⟩
  · cases us with
    | nil =>
      obtain rfl : base = p := (List.cons.inj huv).1
      rw [List.append_nil]
      exact hl.2
    | cons u us =>
      obtain rfl : base = u := (List.cons.inj huv).1
      rw [show p :: (vs ++ base :: us) ++ [p] = p :: vs ++ base :: (us ++ [p]) by simp]
      exact List.isChain_split.mpr ⟨hl.2,hl.1⟩
  · have := (List.nodup_append.mp hnd)
    have h₂ := List.nodup_cons.mp this.2.1
    rintro h
    rcases List.mem_append.mp h with h | h
    · exact h₂.1 h
    · exact this.2.2 p h p (by simp) rfl

theorem FreeList.next (hf : FreeList s base l) (hq : q ∈ base :: addrs l) (hne : s.ptr q ≠ base) :
    ∃ l₁ d k c l₂, l = k ++ c :: l₂ ∧ (base,0) :: k = l₁ ++ [d] ∧ d.1 = q ∧ c.1 = s.ptr q := by
  rw [← addrs_cons (b := (base,0))] at hq
  obtain ⟨d,hd,rfl⟩ := mem_addrs.mp hq
  obtain ⟨l₁,l₂,heq⟩ := List.append_of_mem hd
  have hl : Links s.ptr (addrs ((base,0) :: l) ++ [base]) := hf.links
  rw [heq,addrs_append,List.append_assoc] at hl
  cases l₂ with
  | nil => exact absurd (List.isChain_cons_cons.mp hl.right_of_append).1 hne
  | cons c l₂ =>
    have hc := (List.isChain_cons_cons.mp hl.right_of_append).1.symm
    cases l₁ with
    | nil => exact ⟨[],d,[],c,l₂,(List.cons.inj heq).2,by rw [(List.cons.inj heq).1,List.nil_append],rfl,hc⟩
    | cons e l₁ =>
      refine ⟨e :: l₁,d,l₁ ++ [d],c,l₂,?_,by rw [(List.cons.inj heq).1,List.cons_append],rfl,hc⟩
      rw [List.append_assoc]
      exact (List.cons.inj heq).2

/-- What `take` makes of a list: the block `b` leaves it. -/
structure Taken (s : Heap) (base : ℕ) (l : List (ℕ × ℕ)) (b : ℕ × ℕ) (s' : Heap) (l' : List (ℕ × ℕ)) : Prop where
  list : FreeList s' base l'
  freep : s'.freep ∈ base :: addrs l'
  cover : ∀ x, cover (bytes l) x = covers (b.1,16 * b.2) x + Library.cover (bytes l') x
  total : total l = b.2 + total l'
  self : s'.size b.1 = b.2
  size : ∀ x, Library.cover (bytes l) x = 0 → s'.size x = s.size x
  regions : s'.regions = s.regions
  top : s'.top = s.top

theorem FreeList.unlink (hf : FreeList s base (l₁ ++ c :: l₂)) {k : List (ℕ × ℕ)} (hk : (base,0) :: l₁ = k ++ [d]) (hd : d.1 = q) :
    Taken s base (l₁ ++ c :: l₂) c { s.setPtr q (s.ptr c.1) with freep := q } (l₁ ++ l₂) := by
  have haddrs : base :: addrs l₁ = addrs k ++ [q] := by rw [← hd,← addrs_cons (b := (base,0)),hk]; simp
  have hsort := hf.spaced.sorted
  have hl := hf.links
  rw [addrs_cons,addrs_append,← List.cons_append,haddrs] at hsort
  rw [addrs_append,← List.cons_append,haddrs,addrs_cons,List.append_assoc,List.append_assoc,List.singleton_append,Links,
    List.isChain_split] at hl
  have hsub : l₁ ++ l₂ ⊆ l₁ ++ c :: l₂ := fun x hx => by simp at hx ⊢; tauto
  constructor
  case list =>
    constructor
    · show Links (s.setPtr q (s.ptr c.1)).ptr _
      rw [Heap.setPtr_ptr,addrs_append,← List.cons_append,haddrs,List.append_assoc,List.append_assoc,List.singleton_append]
      refine List.isChain_split.mpr ⟨Links.update hl.1 fun h => ?_,Links.replace hl.2.tail fun h => ?_⟩
      · have := (List.pairwise_append.mp (List.pairwise_append.mp hsort).1).2.2 q h q (by simp)
        omega
      · have := (List.pairwise_append.mp hsort).2.2 q (by simp) q h
        omega
    · intro b hb
      show (s.setPtr q (s.ptr c.1)).size b.1 = b.2
      rw [Heap.setPtr_size]
      refine hf.size b ?_
      rcases List.mem_cons.mp hb with rfl | hb
      · simp
      · exact List.mem_cons_of_mem _ (hsub hb)
    · exact hf.spaced.sublist (by simp)
    · exact fun b hb => hf.above b (hsub hb)
    · exact fun b hb => hf.pos b (hsub hb)
  case freep =>
    show q ∈ base :: addrs (l₁ ++ l₂)
    rw [addrs_append,← List.cons_append,haddrs]
    simp
  case cover => intro x; simp; omega
  case total => simp; omega
  case self =>
    show (s.setPtr q (s.ptr c.1)).size c.1 = c.2
    rw [Heap.setPtr_size]
    exact hf.size c (by simp)
  case size => exact fun x _ => congrFun (Heap.setPtr_size ..) x
  case regions => rfl
  case top => rfl

theorem FreeList.split (hf : FreeList s base (l₁ ++ c :: l₂)) (hq : q ∈ base :: addrs l₁) (hn : 0 < nunits) (hlt : nunits < c.2)
    (hlim : c.2 < 2 ^ 32) : Taken s base (l₁ ++ c :: l₂) (plus c.1 (c.2 - nunits),nunits)
      { (s.setSize c.1 (c.2 - nunits)).setSize (plus c.1 (c.2 - nunits)) nunits with freep := q }
        (l₁ ++ (c.1,c.2 - nunits) :: l₂) := by
  obtain ⟨m,hm,hm0⟩ : ∃ m, c.2 = m + nunits ∧ 0 < m := ⟨c.2 - nunits,by omega,by omega⟩
  rw [show c.2 - nunits = m by omega]
  have hplus : plus c.1 c.2 = plus (plus c.1 m) nunits := by simp only [plus]; omega
  have hin : c.1 < plus c.1 m := by simp only [plus]; omega
  have hout : plus c.1 m < plus c.1 c.2 := by simp only [plus]; omega
  have hsp := hf.spaced
  rw [← List.cons_append] at hsp
  obtain ⟨hsp₁,hcl,hsp₁₂⟩ := List.pairwise_append.mp hsp
  obtain ⟨hc₂,hsp₂⟩ := List.pairwise_cons.mp hcl
  have hlow : ∀ b ∈ (base,0) :: l₁, b.1 < c.1 := fun b hb => (le_plus _ _).trans_lt (hsp₁₂ b hb c (by simp))
  -- only the sizes at the two ends of the cut change
  have hsize : ∀ x, x ≠ c.1 → x ≠ plus c.1 m → ((s.setSize c.1 m).setSize (plus c.1 m) nunits).size x = s.size x := by
    intro x h₁ h₂
    rw [Heap.setSize_size,update_of_ne h₂,Heap.setSize_size,update_of_ne h₁]
  constructor
  case list =>
    constructor
    · show Links ((s.setSize c.1 m).setSize (plus c.1 m) nunits).ptr _
      simpa using hf.links
    · intro b hb
      show ((s.setSize c.1 m).setSize (plus c.1 m) nunits).size b.1 = b.2
      rw [← List.cons_append] at hb
      rcases List.mem_append.mp hb with hb | hb
      · have := hlow b hb
        rw [hsize b.1 (by omega) (by omega)]
        exact hf.size b (by rw [← List.cons_append]; exact List.mem_append_left _ hb)
      rcases List.mem_cons.mp hb with rfl | hb
      · rw [Heap.setSize_size,update_of_ne hin.ne,Heap.setSize_size,update_self,Nat.mod_eq_of_lt (by omega)]
      · have := hc₂ b hb
        rw [hsize b.1 (by omega) (by omega)]
        exact hf.size b (by simp [hb])
    · rw [← List.cons_append]
      refine List.pairwise_append.mpr ⟨hsp₁,List.pairwise_cons.mpr ⟨fun b hb => hout.trans (hc₂ b hb),hsp₂⟩,fun b hb d hd => ?_⟩
      rcases List.mem_cons.mp hd with rfl | hd
      · exact hsp₁₂ b hb c (by simp)
      · exact hsp₁₂ b hb d (by simp [hd])
    · intro b hb
      rcases List.mem_append.mp hb with hb | hb
      · exact hf.above b (by simp [hb])
      rcases List.mem_cons.mp hb with rfl | hb
      · exact hf.above c (by simp)
      · exact hf.above b (by simp [hb])
    · intro b hb
      rcases List.mem_append.mp hb with hb | hb
      · exact hf.pos b (by simp [hb])
      rcases List.mem_cons.mp hb with rfl | hb
      · exact hm0
      · exact hf.pos b (by simp [hb])
  case freep =>
    show q ∈ base :: addrs (l₁ ++ (c.1,m) :: l₂)
    rw [addrs_append,← List.cons_append]
    exact List.mem_append_left _ hq
  case cover =>
    intro x
    simp only [bytes_append,bytes_cons,cover_append,cover_cons,hm,Nat.mul_add,covers_add,plus]
    omega
  case total =>
    simp
    omega
  case self =>
    show ((s.setSize c.1 m).setSize (plus c.1 m) nunits).size (plus c.1 m) = nunits
    rw [Heap.setSize_size,update_self,Nat.mod_eq_of_lt (by omega)]
  case size =>
    intro x hx
    have hx' : covers (c.1,16 * c.2) x = 0 := by
      simp only [bytes_append,bytes_cons,cover_append,cover_cons] at hx
      omega
    have hnot : ¬(c.1 ≤ x ∧ x < plus c.1 c.2) := fun h => by
      exact absurd (covers_eq_one (b := (c.1,16 * c.2)) h.1 h.2) (by rw [hx']; decide)
    exact hsize x (by omega) (by omega)
  case regions => rfl
  case top => rfl

theorem FreeList.take (hf : FreeList s base l) (hq : q ∈ base :: addrs l) (hn : 0 < nunits) (hs : nunits ≤ s.size (s.ptr q))
    (hlim : total l < 2 ^ 32) :
    ∃ l' b, b.2 = nunits ∧ (s.take nunits q (s.ptr q)).2 = b.1 + 16 ∧ Taken s base l b (s.take nunits q (s.ptr q)).1 l' := by
  have hne : s.ptr q ≠ base := fun h => by
    rw [h,hf.size (base,0) (by simp)] at hs
    omega
  obtain ⟨k,d,l₁,c,l₂,rfl,hk,hd,hc⟩ := hf.next hq hne
  have hcs : s.size c.1 = c.2 := hf.size c (by simp)
  rw [← hc,hcs] at hs
  rw [← hc,Heap.take,hcs]
  split_ifs with heq
  · exact ⟨_,c,heq,rfl,hf.unlink hk hd⟩
  · have hlim' : c.2 < 2 ^ 32 := by simp at hlim; omega
    have hq' : q ∈ base :: addrs l₁ := by
      have : q ∈ addrs ((base,0) :: l₁) := by simp [hk,hd]
      exact this
    have hsplit := hf.split hq' hn (by omega) hlim'
    have hself : (s.setSize c.1 (c.2 - nunits)).size c.1 = c.2 - nunits := by
      rw [Heap.setSize_size,update_self,Nat.mod_eq_of_lt (by omega)]
    refine ⟨l₁ ++ (c.1,c.2 - nunits) :: l₂,(plus c.1 (c.2 - nunits),nunits),rfl,?_,?_⟩
    · exact congrArg (fun n => plus c.1 n + 16) hself
    · simpa only [hself] using hsplit

end Scan

/-! ### The whole heap -/

/-- `l` are the free blocks and `live` the others: together they are what `sbrk` has returned. -/
structure Inv (base limit : ℕ) (s : Heap) (l live : List (ℕ × ℕ)) : Prop where
  list : FreeList s base l
  freep : s.freep ∈ base :: addrs l
  tile : ∀ x, cover (bytes l) x + cover (bytes live) x = cover (bytes s.regions) x
  once : ∀ x, cover (bytes s.regions) x ≤ 1
  total : total l + total live = total s.regions
  limit : Umalloc.total s.regions ≤ limit
  size : ∀ b ∈ live, s.size b.1 = b.2
  pos : ∀ b ∈ live, 0 < b.2
  within : ∀ r ∈ s.regions, base + 16 ≤ r.1 ∧ plus r.1 r.2 ≤ s.top
  top : base + 16 ≤ s.top

section Inv
variable {base limit nunits p : ℕ} {s : Heap} {l live : List (ℕ × ℕ)} {b : ℕ × ℕ}

theorem mem_bytes (h : b ∈ l) : (b.1,16 * b.2) ∈ bytes l := List.mem_map.mpr ⟨b,h,rfl⟩

theorem cover_bytes_pos {x : ℕ} : 0 < cover (bytes l) x ↔ ∃ b ∈ l, b.1 ≤ x ∧ x < plus b.1 b.2 := by
  rw [cover_pos_iff,bytes]
  simp [plus]

namespace Inv

theorem mem_pos (hi : Inv base limit s l live) (hb : b ∈ l ++ live) : 0 < b.2 := by
  rcases List.mem_append.mp hb with hb | hb
  · exact hi.list.pos b hb
  · exact hi.pos b hb

theorem mem_within (hi : Inv base limit s l live) (hb : b ∈ l ++ live) : base + 16 ≤ b.1 ∧ plus b.1 b.2 ≤ s.top := by
  have hpos := hi.mem_pos hb
  have hin : ∀ x, b.1 ≤ x → x < plus b.1 b.2 → ∃ r ∈ s.regions, r.1 ≤ x ∧ x < plus r.1 r.2 := fun x h₁ h₂ => by
    rw [← cover_bytes_pos,← hi.tile x,← cover_append,← bytes_append,cover_bytes_pos]
    exact ⟨b,hb,h₁,h₂⟩
  have hlt : b.1 < plus b.1 b.2 := by simp only [plus]; omega
  obtain ⟨r,hr,h₁,-⟩ := hin b.1 (Nat.le_refl _) hlt
  obtain ⟨r',hr',-,h₂⟩ := hin (plus b.1 b.2 - 1) (by omega) (by omega)
  have := hi.within r hr
  have := hi.within r' hr'
  omega

theorem alone {live₁ live₂ : List (ℕ × ℕ)} {d : ℕ × ℕ} (hi : Inv base limit s l (live₁ ++ b :: live₂)) (hd : d ∈ live₁ ++ live₂) :
    cover (bytes l) d.1 = 0 ∧ d.1 ≠ b.1 := by
  have hle := hi.tile d.1 ▸ hi.once d.1
  have hdpos := hi.pos d (by simp at hd ⊢; tauto)
  have hbpos := hi.pos b (by simp)
  have hdd := le_cover (x := d.1) (mem_bytes hd)
  rw [covers_eq_one (Nat.le_refl _) (by simp; omega)] at hdd
  simp only [bytes_append,bytes_cons,cover_append,cover_cons] at hle hdd
  refine ⟨by omega,fun h => ?_⟩
  rw [h,covers_eq_one (Nat.le_refl _) (by simp; omega)] at hle
  rw [h] at hdd
  omega

theorem not_mem_addrs (hf : FreeList s base l) {x : ℕ} (hx : cover (bytes l) x = 0) : x ∉ addrs l := fun h => by
  obtain ⟨c,hc,rfl⟩ := mem_addrs.mp h
  have hpos := hf.pos c hc
  have : 0 < cover (bytes l) c.1 := cover_bytes_pos.mpr ⟨c,hc,Nat.le_refl _,by simp only [plus]; omega⟩
  omega

theorem free {live₁ live₂ : List (ℕ × ℕ)} (hi : Inv base limit s l (live₁ ++ b :: live₂)) (hlim : limit < 2 ^ 32) :
    ∃ fuel s' l', s.free fuel (b.1 + 16) = some s' ∧ Inv base limit s' l' (live₁ ++ live₂) ∧ (∃ c ∈ l', b.2 ≤ c.2) ∧
      s'.regions = s.regions ∧ s'.top = s.top := by
  have hb : b ∈ l ++ (live₁ ++ b :: live₂) := by simp
  have hpos := hi.pos b (by simp)
  have htot := hi.total
  have hlim' := hi.limit
  rw [total_append,total_cons] at htot
  have hdis : ∀ d ∈ l, plus d.1 d.2 ≤ b.1 ∨ plus b.1 b.2 ≤ d.1 := fun d hd => by
    have hdpos := hi.list.pos d hd
    refine disjoint_of_covers (b := (d.1,16 * d.2)) (c := (b.1,16 * b.2)) (fun x => ?_) (by simp; omega) (by simp; omega)
    have h₁ := le_cover (x := x) (mem_bytes hd)
    have h₂ := le_cover (x := x) (mem_bytes (l := live₁ ++ b :: live₂) (b := b) (by simp))
    have := hi.tile x ▸ hi.once x
    omega
  obtain ⟨fuel,s',l',hfree,hf⟩ := hi.list.free hi.freep (hi.mem_within hb).1 (hi.size b (by simp)) hpos hdis (by omega)
  refine ⟨fuel,s',l',hfree,?_,hf.large,hf.regions,hf.top⟩
  constructor
  case list => exact hf.list
  case freep => exact hf.freep
  case tile =>
    intro x
    have := hi.tile x
    simp only [bytes_append,bytes_cons,cover_append,cover_cons] at this ⊢
    rw [hf.cover,hf.regions]
    omega
  case once => rw [hf.regions]; exact hi.once
  case total =>
    rw [hf.total,hf.regions,total_append]
    omega
  case limit => rw [hf.regions]; exact hi.limit
  case size =>
    intro d hd
    have hd' : d ∈ live₁ ++ b :: live₂ := by simp at hd ⊢; tauto
    obtain ⟨hcov,hne⟩ := hi.alone hd
    have hab := (hi.mem_within (List.mem_append_right l hd')).1
    rw [hf.size d.1,hi.size d hd']
    rw [List.mem_cons,List.mem_cons,not_or,not_or]
    exact ⟨hne,by omega,not_mem_addrs hi.list hcov⟩
  case pos => exact fun d hd => hi.pos d (by simp at hd ⊢; tauto)
  case within => rw [hf.regions,hf.top]; exact hi.within
  case top => rw [hf.top]; exact hi.top

theorem take (hi : Inv base limit s l live) (hlim : limit < 2 ^ 32) (hn : 0 < nunits) {q : ℕ} (hq : q ∈ base :: addrs l)
    (hs : nunits ≤ s.size (s.ptr q)) :
    ∃ l' b, b.2 = nunits ∧ (s.take nunits q (s.ptr q)).2 = b.1 + 16 ∧
      Inv base limit (s.take nunits q (s.ptr q)).1 l' (b :: live) := by
  have htot := hi.total
  have hlim' := hi.limit
  obtain ⟨l',b,hb,hret,ht⟩ := hi.list.take hq hn hs (by omega)
  refine ⟨l',b,hb,hret,?_⟩
  constructor
  case list => exact ht.list
  case freep => exact ht.freep
  case tile =>
    intro x
    have := hi.tile x
    rw [ht.cover] at this
    rw [ht.regions,bytes_cons,cover_cons]
    omega
  case once => rw [ht.regions]; exact hi.once
  case total =>
    rw [ht.total] at htot
    rw [ht.regions,total_cons]
    omega
  case limit => rw [ht.regions]; exact hi.limit
  case size =>
    intro d hd
    rcases List.mem_cons.mp hd with rfl | hd
    · exact ht.self
    · rw [ht.size d.1,hi.size d hd]
      have hle := hi.tile d.1 ▸ hi.once d.1
      have hpos := hi.pos d hd
      have hdd := le_cover (x := d.1) (mem_bytes hd)
      rw [covers_eq_one (Nat.le_refl _) (by simp; omega)] at hdd
      omega
  case pos =>
    intro d hd
    rcases List.mem_cons.mp hd with rfl | hd
    · omega
    · exact hi.pos d hd
  case within => rw [ht.regions,ht.top]; exact hi.within
  case top => rw [ht.top]; exact hi.top

theorem grant (hi : Inv base limit s l live) {n : ℕ} (hn : 0 < n) (hn' : n < 2 ^ 32) (hp : s.top ≤ p)
    (hg : Umalloc.total s.regions + n ≤ limit) :
    Inv base limit (({ s with regions := s.regions ++ [(p,n)], top := plus p n } : Heap).setSize p n) l ((p,n) :: live) := by
  have hbelow : ∀ b ∈ l ++ live, b.1 ≠ p := fun b hb => by
    have := (hi.mem_within hb).2
    have hpos := hi.mem_pos hb
    simp only [plus] at this
    omega
  have htop := hi.top
  have hsize : ∀ x, x ≠ p → (({ s with regions := s.regions ++ [(p,n)], top := plus p n } : Heap).setSize p n).size x = s.size x :=
    fun x hx => by rw [Heap.setSize_size,update_of_ne hx]; rfl
  constructor
  case list =>
    refine ⟨?_,?_,hi.list.spaced,hi.list.above,hi.list.pos⟩
    · rw [Heap.setSize_ptr]
      exact hi.list.links
    · intro b hb
      rw [hsize b.1,hi.list.size b hb]
      rcases List.mem_cons.mp hb with rfl | hb
      · show base ≠ p
        omega
      · exact hbelow b (by simp [hb])
  case freep => exact hi.freep
  case tile =>
    intro x
    have := hi.tile x
    show _ = cover (bytes (s.regions ++ [(p,n)])) x
    simp only [bytes_append,bytes_cons,cover_append,cover_cons]
    simp [bytes]
    simp only [bytes] at this
    omega
  case once =>
    intro x
    show cover (bytes (s.regions ++ [(p,n)])) x ≤ 1
    rw [bytes_append,cover_append,bytes_cons,cover_cons]
    by_cases hx : x < p
    · rw [covers_of_lt hx]
      exact hi.once x
    · have hz : ¬0 < cover (bytes s.regions) x := fun h => by
        obtain ⟨r,hr,-,h⟩ := cover_bytes_pos.mp h
        have := (hi.within r hr).2
        omega
      have hle := covers_le_one (b := (p,16 * n)) (x := x)
      show cover (bytes s.regions) x + (covers (p,16 * n) x + 0) ≤ 1
      omega
  case total =>
    have := hi.total
    show _ = Umalloc.total (s.regions ++ [(p,n)])
    simp [Umalloc.total] at *
    omega
  case limit =>
    show Umalloc.total (s.regions ++ [(p,n)]) ≤ limit
    simpa [Umalloc.total] using hg
  case size =>
    intro b hb
    rcases List.mem_cons.mp hb with rfl | hb
    · rw [Heap.setSize_size,update_self]
      exact Nat.mod_eq_of_lt hn'
    · rw [hsize b.1 (hbelow b (by simp [hb])),hi.size b hb]
  case pos =>
    intro b hb
    rcases List.mem_cons.mp hb with rfl | hb
    · exact hn
    · exact hi.pos b hb
  case within =>
    intro r hr
    have hr : r ∈ s.regions ++ [(p,n)] := hr
    show base + 16 ≤ r.1 ∧ plus r.1 r.2 ≤ plus p n
    rcases List.mem_append.mp hr with hr | hr
    · have := hi.within r hr
      refine ⟨this.1,this.2.trans (hp.trans (le_plus _ _))⟩
    · obtain rfl := List.mem_singleton.mp hr
      exact ⟨by simp; omega,Nat.le_refl _⟩
  case top =>
    show base + 16 ≤ plus p n
    have := le_plus p n
    omega

end Inv
end Inv

/-- `sbrk` may give these answers one after the other when asked for `n` units each time. -/
def Grants (limit n : ℕ) : ℕ → ℕ → List (Option ℕ) → Prop
  | _, _, [] => True
  | top, given, none :: ans => Grants limit n top given ans
  | top, given, some p :: ans => top ≤ p ∧ given + n ≤ limit ∧ Grants limit n (plus p n) (given + n) ans

section Loop
variable {base limit nunits p : ℕ} {s : Heap} {l live : List (ℕ × ℕ)} {b : ℕ × ℕ} {ans : List (Option ℕ)}

theorem Inv.morecore (hi : Inv base limit s l live) (hlim : limit < 2 ^ 32) (hp : s.top ≤ p)
    (hg : Umalloc.total s.regions + Heap.ask nunits ≤ limit) :
    ∃ fuel s' l', s.morecore fuel nunits (some p) = some (s',s'.freep) ∧ Inv base limit s' l' live ∧ ∃ c ∈ l', nunits ≤ c.2 := by
  have hask : 0 < Heap.ask nunits ∧ nunits ≤ Heap.ask nunits := by
    unfold Heap.ask
    split_ifs <;> omega
  have hi' : Inv base limit _ l ([] ++ (p,Heap.ask nunits) :: live) := hi.grant hask.1 (by omega) hp hg
  obtain ⟨fuel,s',l',hfree,hs',⟨c,hc,hle⟩,-⟩ := hi'.free hlim
  exact ⟨fuel,s',l',Option.map_eq_some_iff.mpr ⟨s',hfree,rfl⟩,hs',c,hc,hask.2.trans hle⟩

variable (ans) in
theorem Inv.found (hi : Inv base limit s l live) (hlim : limit < 2 ^ 32) (hn : 0 < nunits) (hb : b ∈ l) (hle : nunits ≤ b.2) :
    ∃ n s' l' c, Heap.mallocLoop nunits n s s.freep (s.ptr s.freep) ans = some (s',c.1 + 16) ∧ c.2 = nunits ∧
      Inv base limit s' l' (c :: live) := by
  obtain ⟨xs,hl,hnot,hmem⟩ := hi.list.around hi.freep
  rcases mallocLoop_scan hl hnot with ⟨q,hq,hs,n,h⟩ | ⟨hall,-⟩
  · obtain ⟨l',c,hc,hret,hi'⟩ := hi.take hlim hn ((hmem q).mp hq) hs
    exact ⟨n,_,l',c,by rw [h,← hret],hc,hi'⟩
  · have hmem' : b.1 ∈ xs ++ [s.freep] := by
      have := (hmem b.1).mpr (List.mem_cons_of_mem _ (mem_addrs.mpr ⟨b,hb,rfl⟩))
      simp at this ⊢
      tauto
    have := hall b.1 hmem'
    rw [hi.list.size b (List.mem_cons_of_mem _ hb)] at this
    omega

theorem Inv.freep_ne_zero (hi : Inv base limit s l live) (hbase : 0 < base) : s.freep ≠ 0 := by
  rcases List.mem_cons.mp hi.freep with h | h
  · omega
  · obtain ⟨c,hc,h⟩ := mem_addrs.mp h
    have := hi.list.above c hc
    omega

theorem Inv.mallocLoop (hi : Inv base limit s l live) (hlim : limit < 2 ^ 32) (hbase : 0 < base) (hn : 0 < nunits)
    (hans : Grants limit (Heap.ask nunits) s.top (Umalloc.total s.regions) ans) :
    ∃ n s' r l', Heap.mallocLoop nunits n s s.freep (s.ptr s.freep) ans = some (s',r) ∧
      (r = 0 ∧ Inv base limit s' l' live ∨ ∃ c, r = c.1 + 16 ∧ c.2 = nunits ∧ Inv base limit s' l' (c :: live)) := by
  obtain ⟨xs,hl,hnot,hmem⟩ := hi.list.around hi.freep
  rcases mallocLoop_scan hl hnot with ⟨q,hq,hs,n,h⟩ | ⟨hall,q,m,h⟩
  · obtain ⟨l',c,hc,hret,hi'⟩ := hi.take hlim hn ((hmem q).mp hq) hs
    exact ⟨n,_,_,l',by rw [h],Or.inr ⟨c,hret,hc,hi'⟩⟩
  have hsmall : ¬s.size s.freep ≥ nunits := Nat.not_le.mpr (hall _ (by simp))
  have hfail : s.morecore 0 nunits none = some (s,0) := rfl
  match ans, hans, h with
  | [], _, h =>
    refine ⟨_,s,0,l,(h 0).trans ?_,Or.inl ⟨rfl,hi⟩⟩
    rw [Heap.mallocLoop,if_neg hsmall,if_pos rfl]
    simp [hfail]
  | none :: ans, _, h =>
    refine ⟨_,s,0,l,(h 0).trans ?_,Or.inl ⟨rfl,hi⟩⟩
    rw [Heap.mallocLoop,if_neg hsmall,if_pos rfl]
    simp [hfail]
  | some p :: ans, hans, h =>
    obtain ⟨k₁,s₁,l₁,hmore,hi₁,c,hc,hle⟩ := hi.morecore hlim hans.1 hans.2.1
    obtain ⟨k₂,s₂,l₂,d,hloop,hd,hi₂⟩ := hi₁.found ans hlim hn hc hle
    refine ⟨_,s₂,_,l₂,(h (max k₁ k₂)).trans ?_,Or.inr ⟨d,rfl,hd,hi₂⟩⟩
    rw [Heap.mallocLoop,if_neg hsmall,if_pos rfl]
    simp only [List.headD_cons,List.tail_cons]
    rw [morecore_mono hmore (Nat.le_max_left _ _)]
    simp only
    rw [if_neg (hi₁.freep_ne_zero hbase)]
    exact mallocLoop_mono hloop (Nat.le_max_right _ _)

end Loop

/-! ### Runs -/

structure Block where
  addr : ℕ
  nbytes : ℕ

def Block.range (b : Block) : ℕ × ℕ := (b.addr,units b.nbytes)

structure World where
  heap : Heap
  /-- what `malloc` has returned and `free` has not taken back -/
  live : List Block

def World.ranges (w : World) : List (ℕ × ℕ) := w.live.map Block.range

/-- Headers that have no byte in the memory of a live block are as before. -/
def World.Stores (w : World) (hdr : ℕ → Header) : Prop :=
  ∀ x, (∀ b ∈ w.live, x + 16 ≤ b.addr + 16 ∨ b.addr + 16 + b.nbytes ≤ x) → hdr x = w.heap.hdr x

inductive Step (base limit : ℕ) : World → World → Prop
  | malloc {w : World} {s : Heap} {p : ℕ} (nbytes fuel : ℕ) (ans : List (Option ℕ)) (hsize : units nbytes * 16 < 2 ^ 31)
      (hans : Grants limit (Heap.ask (units nbytes)) w.heap.top (total w.heap.regions) ans)
      (h : w.heap.malloc base fuel nbytes ans = some (s,p)) :
      Step base limit w ⟨s,if p = 0 then w.live else ⟨p - 16,nbytes⟩ :: w.live⟩
  | free {w : World} {s : Heap} {b : Block} {live₁ live₂ : List Block} (fuel : ℕ) (hlive : w.live = live₁ ++ b :: live₂)
      (h : w.heap.free fuel (b.addr + 16) = some s) : Step base limit w ⟨s,live₁ ++ live₂⟩
  | store {w : World} (hdr : ℕ → Header) (h : w.Stores hdr) : Step base limit w { w with heap := { w.heap with hdr } }

inductive Reachable (base limit : ℕ) : World → Prop
  | init {s : Heap} (hfreep : s.freep = 0) (hregions : s.regions = []) (htop : base + 16 ≤ s.top) : Reachable base limit ⟨s,[]⟩
  | step {w w' : World} (h : Reachable base limit w) (hs : Step base limit w w') : Reachable base limit w'

structure Tiled (base : ℕ) (w : World) (l : List (ℕ × ℕ)) : Prop where
  list : FreeList w.heap base l
  freep : w.heap.freep ∈ base :: addrs l
  disjoint : (l ++ w.ranges).Pairwise fun b c => plus b.1 b.2 ≤ c.1 ∨ plus c.1 c.2 ≤ b.1
  tile : ∀ x, (∃ b ∈ l ++ w.ranges, b.1 ≤ x ∧ x < plus b.1 b.2) ↔ ∃ r ∈ w.heap.regions, r.1 ≤ x ∧ x < plus r.1 r.2
  size : ∀ b ∈ w.live, w.heap.size b.addr = units b.nbytes
  room : ∀ b ∈ w.live, b.addr + 16 + b.nbytes ≤ plus b.addr (units b.nbytes)

structure Sound (base limit : ℕ) (w : World) : Prop where
  heap : w.heap.freep = 0 ∧ w.live = [] ∧ w.heap.regions = [] ∨ ∃ l, Tiled base w l
  malloc_returns : ∀ nbytes ans, units nbytes * 16 < 2 ^ 31 →
    Grants limit (Heap.ask (units nbytes)) w.heap.top (total w.heap.regions) ans →
      ∃ fuel r, w.heap.malloc base fuel nbytes ans = some r
  free_returns : ∀ b ∈ w.live, ∃ fuel s, w.heap.free fuel (b.addr + 16) = some s

section World
variable {base limit : ℕ} {w w' : World}

theorem malloc_mono {s : Heap} {n m nbytes : ℕ} {ans : List (Option ℕ)} {r : Heap × ℕ} (h : s.malloc base n nbytes ans = some r)
    (hle : n ≤ m) : s.malloc base m nbytes ans = some r := mallocLoop_mono h hle

def World.Ok (base limit : ℕ) (w : World) : Prop :=
  (w.heap.freep = 0 ∧ w.live = [] ∧ w.heap.regions = [] ∧ base + 16 ≤ w.heap.top) ∨ ∃ l, Inv base limit w.heap l w.ranges

theorem Inv.initial {s : Heap} (hregions : s.regions = []) (htop : base + 16 ≤ s.top) :
    Inv base limit (s.start base) [] [] := by
  have hr : (s.start base).regions = [] := hregions
  constructor
  case list =>
    refine ⟨?_,?_,List.pairwise_singleton _ _,by simp,by simp⟩
    · show Links ((s.setPtr base base).setSize base 0).ptr [base,base]
      simp [Links]
    · intro b hb
      obtain rfl := List.mem_singleton.mp hb
      show ((s.setPtr base base).setSize base 0).size base = 0
      simp
  case freep => exact List.mem_cons_self
  case top => exact htop
  all_goals simp [hr,bytes,Umalloc.total]

theorem Inv.disjoint {s : Heap} {l live : List (ℕ × ℕ)} (hi : Inv base limit s l live) :
    (l ++ live).Pairwise fun b c => plus b.1 b.2 ≤ c.1 ∨ plus c.1 c.2 ≤ b.1 := by
  have := pairwise_disjoint_of_cover (l := bytes (l ++ live))
    (fun x => by rw [bytes_append,cover_append,hi.tile]; exact hi.once x) fun b hb => by
      obtain ⟨c,hc,rfl⟩ := List.mem_map.mp hb
      exact Nat.mul_pos (by decide) (hi.mem_pos hc)
  rwa [bytes,List.pairwise_map] at this

theorem Block.room (b : Block) : b.addr + 16 + b.nbytes ≤ plus b.addr (units b.nbytes) := by
  simp only [plus,units]
  omega

theorem Inv.store {s : Heap} {l : List (ℕ × ℕ)} {live : List Block} (hi : Inv base limit s l (live.map Block.range))
    {hdr : ℕ → Header} (h : World.Stores ⟨s,live⟩ hdr) : Inv base limit { s with hdr } l (live.map Block.range) := by
  have hbase : hdr base = s.hdr base := h base fun b hb => by
    have hb' : b.range ∈ l ++ live.map Block.range := List.mem_append_right l (List.mem_map.mpr ⟨b,hb,rfl⟩)
    have := (hi.mem_within hb').1
    simp only [Block.range] at this
    omega
  have hmem : ∀ c ∈ l ++ live.map Block.range, hdr c.1 = s.hdr c.1 := fun c hc => h c.1 fun b hb => by
    by_cases hcb : c = b.range
    · rw [hcb]
      exact Or.inl (Nat.le_refl _)
    have hb' : b.range ∈ l ++ live.map Block.range := List.mem_append_right l (List.mem_map.mpr ⟨b,hb,rfl⟩)
    have hroom := b.room
    have hle := le_plus c.1 c.2
    have hsymm : Std.Symm fun b c : ℕ × ℕ => plus b.1 b.2 ≤ c.1 ∨ plus c.1 c.2 ≤ b.1 := ⟨fun _ _ h => Or.symm h⟩
    have := hi.disjoint.forall hc hb' hcb
    simp only [Block.range] at this
    omega
  have hsize : ∀ c ∈ (base,0) :: (l ++ live.map Block.range), hdr c.1 = s.hdr c.1 := List.forall_mem_cons.mpr ⟨hbase,hmem⟩
  refine ⟨⟨?_,fun c hc => ?_,hi.list.spaced,hi.list.above,hi.list.pos⟩,hi.freep,hi.tile,hi.once,hi.total,hi.limit,fun c hc => ?_,
    hi.pos,hi.within,hi.top⟩
  · refine Links.congr hi.list.links fun x hx => congrArg Header.ptr ?_
    rcases List.mem_cons.mp hx with rfl | hx
    · exact hbase
    · obtain ⟨c,hc,rfl⟩ := mem_addrs.mp hx
      exact hmem c (List.mem_append_left _ hc)
  · refine (congrArg Header.size (hsize c ?_)).trans (hi.list.size c hc)
    rcases List.mem_cons.mp hc with rfl | hc
    · exact List.mem_cons_self
    · exact List.mem_cons_of_mem _ (List.mem_append_left _ hc)
  · exact (congrArg Header.size (hmem c (List.mem_append_right _ hc))).trans (hi.size c hc)

theorem World.Ok.malloc {nbytes : ℕ} {ans : List (Option ℕ)} (hw : w.Ok base limit) (hlim : limit < 2 ^ 32) (hbase : 0 < base)
    (hans : Grants limit (Heap.ask (units nbytes)) w.heap.top (total w.heap.regions) ans) :
    ∃ n s r, w.heap.malloc base n nbytes ans = some (s,r) ∧
      World.Ok base limit ⟨s,if r = 0 then w.live else ⟨r - 16,nbytes⟩ :: w.live⟩ := by
  -- the heap once `base` has been set up
  obtain ⟨s₀,l,hi,htop,hregions,hmalloc⟩ : ∃ s₀ l, Inv base limit s₀ l w.ranges ∧ s₀.top = w.heap.top ∧
      s₀.regions = w.heap.regions ∧ ∀ n, w.heap.malloc base n nbytes ans =
        Heap.mallocLoop (units nbytes) n s₀ s₀.freep (s₀.ptr s₀.freep) ans := by
    rcases hw with ⟨hfreep,hlive,hregions,htop⟩ | ⟨l,hi⟩
    · refine ⟨w.heap.start base,[],?_,rfl,rfl,fun n => ?_⟩
      · rw [World.ranges,hlive]
        exact Inv.initial hregions htop
      · rw [Heap.malloc,if_pos hfreep]
    · refine ⟨w.heap,l,hi,rfl,rfl,fun n => ?_⟩
      rw [Heap.malloc,if_neg (hi.freep_ne_zero hbase)]
  rw [← htop,← hregions] at hans
  obtain ⟨n,s,r,l',hloop,h⟩ := hi.mallocLoop hlim hbase (Nat.succ_pos _) hans
  refine ⟨n,s,r,(hmalloc n).trans hloop,Or.inr ⟨l',?_⟩⟩
  rcases h with ⟨rfl,hi'⟩ | ⟨c,rfl,hc,hi'⟩
  · exact hi'
  · rw [if_neg (by omega)]
    have : World.ranges ⟨s,⟨c.1 + 16 - 16,nbytes⟩ :: w.live⟩ = c :: w.ranges := by
      have hc' : c.2 = units nbytes := hc
      rw [World.ranges,List.map_cons,Block.range,Nat.add_sub_cancel,← hc']
      rfl
    rwa [this]

theorem World.Ok.free {b : Block} {live₁ live₂ : List Block} (hw : w.Ok base limit) (hlim : limit < 2 ^ 32)
    (hlive : w.live = live₁ ++ b :: live₂) :
    ∃ n s, w.heap.free n (b.addr + 16) = some s ∧ World.Ok base limit ⟨s,live₁ ++ live₂⟩ := by
  rcases hw with ⟨-,hnil,-⟩ | ⟨l,hi⟩
  · simp [hnil] at hlive
  have hranges : w.ranges = live₁.map Block.range ++ b.range :: live₂.map Block.range := by simp [World.ranges,hlive]
  rw [hranges] at hi
  obtain ⟨n,s,l',hfree,hi',-⟩ := hi.free hlim
  refine ⟨n,s,hfree,Or.inr ⟨l',?_⟩⟩
  rwa [World.ranges,List.map_append]

theorem World.Ok.step (hw : w.Ok base limit) (hlim : limit < 2 ^ 32) (hbase : 0 < base) (hs : Step base limit w w') :
    w'.Ok base limit := by
  cases hs with
  | malloc nbytes fuel ans _ hans h =>
    obtain ⟨n,s,r,h',hok⟩ := hw.malloc hlim hbase hans
    have := (malloc_mono h (Nat.le_max_left fuel n)).symm.trans (malloc_mono h' (Nat.le_max_right fuel n))
    obtain ⟨rfl,rfl⟩ := Prod.mk.inj (Option.some.inj this)
    exact hok
  | free fuel hlive h =>
    obtain ⟨n,s,h',hok⟩ := hw.free hlim hlive
    have := (free_mono h (Nat.le_max_left fuel n)).symm.trans (free_mono h' (Nat.le_max_right fuel n))
    obtain rfl := Option.some.inj this
    exact hok
  | store hdr h =>
    rcases hw with hw | ⟨l,hi⟩
    · exact Or.inl hw
    · exact Or.inr ⟨l,hi.store h⟩

theorem Reachable.ok (hlim : limit < 2 ^ 32) (hbase : 0 < base) (h : Reachable base limit w) : w.Ok base limit := by
  induction h with
  | init hfreep hregions htop => exact Or.inl ⟨hfreep,rfl,hregions,htop⟩
  | step _ hs ih => exact ih.step hlim hbase hs

theorem Inv.tiled {l : List (ℕ × ℕ)} (hi : Inv base limit w.heap l w.ranges) : Tiled base w l := by
  refine ⟨hi.list,hi.freep,hi.disjoint,fun x => ?_,fun b hb => ?_,fun b _ => b.room⟩
  · rw [← cover_bytes_pos,bytes_append,cover_append,hi.tile,cover_bytes_pos]
  · exact hi.size b.range (List.mem_map.mpr ⟨b,hb,rfl⟩)

/-- As long as `sbrk` returns less than 2 ^ 32 units in all, free and live blocks tile what it has
returned and both searches end. -/
theorem heap_sound (hlim : limit < 2 ^ 32) (hbase : 0 < base) (h : Reachable base limit w) : Sound base limit w := by
  have hok := h.ok hlim hbase
  constructor
  · rcases hok with ⟨h₁,h₂,h₃,-⟩ | ⟨l,hi⟩
    · exact Or.inl ⟨h₁,h₂,h₃⟩
    · exact Or.inr ⟨l,hi.tiled⟩
  · intro nbytes ans _ hans
    obtain ⟨n,s,r,h,-⟩ := hok.malloc hlim hbase hans
    exact ⟨n,_,h⟩
  · intro b hb
    obtain ⟨live₁,live₂,hlive⟩ := List.append_of_mem hb
    obtain ⟨n,s,h,-⟩ := hok.free hlim hlive
    exact ⟨n,s,h⟩

theorem exists_malloc_free : ∃ w, Reachable 16 4096 w ∧ w.live = [] ∧ w.heap.regions = [(32,4096)] := by
  refine ⟨_,.step (.step (.init (s := ⟨fun _ => ⟨0,0⟩,0,[],32⟩) rfl rfl (by decide))
    (.malloc 20 3 [some 32] (by decide) ⟨by decide,by decide,trivial⟩ rfl)) (.free 2 (List.nil_append _).symm rfl),rfl,rfl⟩

theorem heap_sound_malloc_free : ∃ w, (Reachable 16 4096 w ∧ w.heap.regions = [(32,4096)]) ∧ Sound 16 4096 w := by
  obtain ⟨w,hw,-,hregions⟩ := exists_malloc_free
  exact ⟨w,⟨hw,hregions⟩,heap_sound (by decide) (by decide) hw⟩

end World

/-! ### Sizes wrap around

When `sbrk` may return 2 ^ 32 units or more, joining blocks makes a size that does not fit in its `uint`.
-/

section Wrap
variable {base a n k : ℕ} {s : Heap}

theorem joinUpper_size_eq {p : ℕ} (h : ¬plus a (s.size a) = s.ptr p) : (s.joinUpper a p).size = s.size := by
  rw [joinUpper_size,if_neg h,update_eq_self]

theorem joinLower_size_eq {p : ℕ} (h : ¬plus p (s.size p) = a) : (s.joinLower a p).size = s.size := by
  rw [joinLower_size,if_neg h,update_eq_self]

theorem malloc_exact (hfreep : s.freep = base) (hptr : s.ptr base = base) (hsize : s.size base = 0) (hbase : 0 < base)
    (ha : base < a)
    (hn : 4096 ≤ n) (hn' : n < 2 ^ 32) :
    ∃ s', Heap.mallocLoop n 3 s base base [some a] = some (s',a + 16) ∧ s'.freep = base ∧ s'.ptr base = base ∧
      s'.size = update s.size a n ∧ s'.regions = s.regions ++ [(a,n)] ∧ s'.top = plus a n := by
  have hask : Heap.ask n = n := if_neg (by omega)
  obtain ⟨t,ht⟩ : ∃ t, t = (({ s with regions := s.regions ++ [(a,n)], top := plus a n } : Heap).setSize a n) := ⟨_,rfl⟩
  have htp : t.ptr = s.ptr := by rw [ht,Heap.setSize_ptr]; rfl
  have hts : t.size = update s.size a n := by
    rw [ht,Heap.setSize_size,Nat.mod_eq_of_lt hn']
    rfl
  have htf : t.freep = base := by rw [ht]; exact hfreep
  -- `morecore` puts the new block into the list, and `take` takes it out again
  obtain ⟨u,hu⟩ : ∃ u, u = ({ (t.joinUpper a base).joinLower a base with freep := base } : Heap) := ⟨_,rfl⟩
  have hmore : s.morecore 2 n (some a) = some (u,base) := by
    rw [Heap.morecore]
    simp only [hask,← ht]
    simp [Heap.free,Heap.freeLoop,htf,htp,hptr,ha,hu]
  have hne : ¬plus a n = base := by simp only [plus]; omega
  have hne' : ¬plus base 0 = a := by simp only [plus]; omega
  have hup : u.ptr = update (update s.ptr a base) base a := by
    rw [hu]
    show ((t.joinUpper a base).joinLower a base).ptr = _
    rw [joinLower_ptr,joinUpper_ptr,joinUpper_size_of_ne ha.ne,htp,hts,hptr,update_self,if_neg hne,
      update_of_ne ha.ne,hsize,if_neg hne']
  have hus : u.size = update s.size a n := by
    rw [hu]
    show ((t.joinUpper a base).joinLower a base).size = _
    have hjoin : (t.joinUpper a base).size = t.size := joinUpper_size_eq (by rwa [hts,update_self,htp,hptr])
    rw [joinLower_size_eq (by rwa [hjoin,hts,update_of_ne ha.ne,hsize]),hjoin,hts]
  have hua : u.ptr base = a := by rw [hup,update_self]
  have husa : u.size a = n := by rw [hus,update_self]
  refine ⟨{ u.setPtr base base with freep := base },?_,rfl,?_,?_,?_,?_⟩
  · rw [Heap.mallocLoop,if_neg (by omega),if_pos hfreep.symm]
    simp only [List.headD_cons,List.tail_cons]
    rw [hmore]
    simp only
    rw [if_neg (by omega),hua,Heap.mallocLoop,if_pos (by omega),Heap.take,if_pos husa,hup]
    simp [ha.ne']
  · show (u.setPtr base base).ptr base = base
    simp
  · show (u.setPtr base base).size = _
    rw [Heap.setPtr_size,hus]
  · show u.regions = _
    rw [hu]
    show ((t.joinUpper a base).joinLower a base).regions = _
    rw [joinLower_regions,joinUpper_regions,ht]
    rfl
  · show u.top = _
    rw [hu]
    show ((t.joinUpper a base).joinLower a base).top = _
    rw [joinLower_top,joinUpper_top,ht]
    rfl

theorem free_first (hfreep : s.freep = base) (hptr : s.ptr base = base) (hsize : s.size base = 0) (ha : base < a)
    (hn : s.size a = n) :
    ∃ s', s.free 1 (a + 16) = some s' ∧ s'.freep = base ∧ s'.ptr base = a ∧ s'.ptr a = base ∧ s'.size = s.size ∧
      s'.regions = s.regions := by
  have hne : ¬plus a n = base := by simp only [plus]; omega
  have hne' : ¬plus base 0 = a := by simp only [plus]; omega
  refine ⟨{ (s.joinUpper a base).joinLower a base with freep := base },?_,rfl,?_,?_,?_,joinLower_regions.trans joinUpper_regions⟩
  · simp [Heap.free,Heap.freeLoop,hfreep,hptr,ha]
  · show ((s.joinUpper a base).joinLower a base).ptr base = a
    rw [joinLower_ptr,update_self,joinUpper_size_of_ne ha.ne,hsize,if_neg hne']
  · show ((s.joinUpper a base).joinLower a base).ptr a = base
    rw [joinLower_ptr,update_of_ne ha.ne',joinUpper_ptr,update_self,hn,hptr,if_neg hne]
  · show ((s.joinUpper a base).joinLower a base).size = s.size
    have hjoin : (s.joinUpper a base).size = s.size := joinUpper_size_eq (by rwa [hn,hptr])
    rw [joinLower_size_eq (by rwa [hjoin,hsize]),hjoin]

theorem free_next {c : ℕ} (hfreep : s.freep = base ∨ s.freep = c) (hptr : s.ptr base = c) (hptr' : s.ptr c = base) (hc : base < c)
    (hk : s.size c = k) (ha : plus c k = a) (hca : c < a) (hn : s.size a = n) :
    ∃ s', s.free 2 (a + 16) = some s' ∧ s'.freep = c ∧ s'.ptr base = c ∧ s'.ptr c = base ∧
      s'.size = update s.size c ((k + n) % 2 ^ 32) ∧ s'.regions = s.regions := by
  have hne : ¬plus a n = base := by simp only [plus] at ha ⊢; omega
  have hloop : s.freeLoop a 2 s.freep = some c := by
    rcases hfreep with h | h
    · rw [h,Heap.freeLoop,hptr,if_neg (by omega),if_neg (by omega),Heap.freeLoop,hptr',if_neg (by omega),if_pos (by omega)]
    · rw [h,Heap.freeLoop,hptr',if_neg (by omega),if_pos (by omega)]
  refine ⟨{ (s.joinUpper a c).joinLower a c with freep := c },?_,rfl,?_,?_,?_,joinLower_regions.trans joinUpper_regions⟩
  · simp [Heap.free,hloop]
  · show ((s.joinUpper a c).joinLower a c).ptr base = c
    rw [joinLower_ptr,update_of_ne hc.ne,joinUpper_ptr,update_of_ne (by omega),hptr]
  · show ((s.joinUpper a c).joinLower a c).ptr c = base
    rw [joinLower_ptr,update_self,joinUpper_size_of_ne hca.ne,hk,if_pos ha,joinUpper_ptr,update_self,hn,hptr',
      if_neg hne]
  · show ((s.joinUpper a c).joinLower a c).size = _
    have hjoin : (s.joinUpper a c).size = s.size := joinUpper_size_eq (by rwa [hn,hptr'])
    rw [joinLower_size,hjoin,hk,hn,if_pos ha]

/-- The units of the largest request that rounds to less than 2 ^ 31 bytes. -/
def big : ℕ := 2 ^ 27 - 1

def spot (j : ℕ) : ℕ := 32 + 16 * (big * j)

def bigBlock (j : ℕ) : Block := ⟨spot j,16 * (big - 1)⟩

theorem plus_spot : plus (spot k) big = spot (k + 1) := by
  simp only [plus,spot]
  ring

theorem plus_spot_zero : plus (spot 0) (k * big) = spot k := by
  simp only [plus,spot]
  ring

theorem spot_lt {j : ℕ} (h : j < k) : spot j < spot k := by
  have : big * j < big * k := Nat.mul_lt_mul_of_pos_left h (by decide)
  simp only [spot]
  omega

theorem spot_gt : 16 < spot k := by
  simp only [spot]
  omega

theorem exists_filled (hn : n ≤ 33) : ∃ w : World, Reachable 16 (33 * big) w ∧ w.live = (List.range n).reverse.map bigBlock ∧
    w.heap.regions = (List.range n).map (fun j => (spot j,big)) ∧ w.heap.top = spot n ∧ (0 < n → w.heap.freep ≠ 0) ∧
    ∃ s, s = (if w.heap.freep = 0 then w.heap.start 16 else w.heap) ∧ s.freep = 16 ∧ s.ptr 16 = 16 ∧ s.size 16 = 0 ∧
      ∀ j < n, s.size (spot j) = big := by
  induction n with
  | zero =>
    refine ⟨⟨⟨fun _ => ⟨0,0⟩,0,[],32⟩,[]⟩,.init rfl rfl (by decide),rfl,rfl,rfl,by simp,_,rfl,rfl,?_,?_,by simp⟩
    · show ((Heap.setPtr _ 16 16).setSize 16 0).ptr 16 = 16
      simp
    · show ((Heap.setPtr _ 16 16).setSize 16 0).size 16 = 0
      simp
  | succ n ih =>
    obtain ⟨w,hw,hlive,hregions,htop,-,s,hs,hfreep,hptr,hsize,hsizes⟩ := ih (by omega)
    obtain ⟨s',hloop,hfreep',hptr',hsize',hregions',htop'⟩ := malloc_exact hfreep hptr hsize (by decide) (spot_gt (k := n))
      (show 4096 ≤ big by decide) (by decide)
    have hr : s.regions = w.heap.regions ∧ s.top = w.heap.top := by
      rw [hs]
      split_ifs <;> exact ⟨rfl,rfl⟩
    have hunits : units (16 * (big - 1)) = big := by decide
    have htotal : total w.heap.regions = n * big := by
      rw [hregions,total,List.map_map]
      simp [Function.comp_def]
    have hmalloc : w.heap.malloc 16 3 (16 * (big - 1)) [some (spot n)] = some (s',spot n + 16) := by
      rw [Heap.malloc]
      simp only [← hs,hfreep,hptr,hunits]
      exact hloop
    have hgrants : Grants (33 * big) (Heap.ask (units (16 * (big - 1)))) w.heap.top (total w.heap.regions) [some (spot n)] := by
      rw [hunits,htop,htotal]
      have : (n + 1) * big ≤ 33 * big := Nat.mul_le_mul_right _ hn
      exact ⟨Nat.le_refl _,by rw [Heap.ask,if_neg (by decide)]; linarith,trivial⟩
    have hstep : Step 16 (33 * big) w _ := Step.malloc (16 * (big - 1)) 3 [some (spot n)] (by rw [hunits]; decide) hgrants hmalloc
    have hne : ¬s'.freep = 0 := by omega
    refine ⟨_,hw.step hstep,?_,?_,?_,fun _ => hne,s',(if_neg hne).symm,hfreep',hptr',?_,?_⟩
    · rw [if_neg (by omega),hlive,List.range_succ,List.reverse_append]
      simp [bigBlock]
    · rw [hregions',hr.1,hregions,List.range_succ,List.map_append]
      rfl
    · rw [htop',plus_spot]
    · rw [hsize',update_of_ne spot_gt.ne,hsize]
    · intro j hj
      rw [hsize']
      rcases Nat.lt_succ_iff_lt_or_eq.mp hj with hj | rfl
      · rw [update_of_ne (spot_lt hj).ne,hsizes j hj]
      · rw [update_self]

theorem exists_joined (hn : n < 33) : ∃ w : World, Reachable 16 (33 * big) w ∧
    w.live = (List.range' (n + 1) (32 - n)).reverse.map bigBlock ∧
    w.heap.regions = (List.range 33).map (fun j => (spot j,big)) ∧ (w.heap.freep = 16 ∨ w.heap.freep = spot 0) ∧
    w.heap.ptr 16 = spot 0 ∧ w.heap.ptr (spot 0) = 16 ∧ w.heap.size (spot 0) = (n + 1) * big % 2 ^ 32 ∧
    ∀ j, n < j → j < 33 → w.heap.size (spot j) = big := by
  induction n with
  | zero =>
    obtain ⟨w,hw,hlive,hregions,-,hne,s,hs,hfreep,hptr,hsize,hsizes⟩ := exists_filled (Nat.le_refl 33)
    rw [if_neg (hne (by decide))] at hs
    subst hs
    obtain ⟨s',hfree,hfreep',hptr',hptr'',hsize',hregions'⟩ := free_first hfreep hptr hsize (spot_gt (k := 0))
      (hsizes 0 (by decide))
    have hlive' : w.live = (List.range' 1 32).reverse.map bigBlock ++ bigBlock 0 :: [] := by rw [hlive]; rfl
    refine ⟨_,hw.step (.free 1 hlive' hfree),by simp,?_,Or.inl hfreep',hptr',hptr'',?_,fun j _ hj => ?_⟩
    · rw [← hregions]; exact hregions'
    · rw [hsize',hsizes 0 (by decide)]
      decide
    · rw [hsize',hsizes j hj]
  | succ n ih =>
    obtain ⟨w,hw,hlive,hregions,hfreep,hptr,hptr',hsize,hsizes⟩ := ih (by omega)
    have hmod : (n + 1) * big % 2 ^ 32 = (n + 1) * big := Nat.mod_eq_of_lt (by
      have : (n + 1) * big ≤ 32 * big := Nat.mul_le_mul_right _ (by omega)
      exact this.trans_lt (by decide))
    rw [hmod] at hsize
    obtain ⟨s',hfree,hfreep',hptr₁,hptr₂,hsize',hregions'⟩ := free_next hfreep hptr hptr' spot_gt hsize plus_spot_zero
      (spot_lt (Nat.succ_pos n)) (hsizes (n + 1) (by omega) (by omega))
    have hlive' : w.live = (List.range' (n + 2) (32 - (n + 1))).reverse.map bigBlock ++ bigBlock (n + 1) :: [] := by
      rw [hlive,show 32 - n = 32 - (n + 1) + 1 by omega,List.range'_succ,List.reverse_cons,List.map_append]
      rfl
    refine ⟨_,hw.step (.free 2 hlive' hfree),by simp,hregions'.trans hregions,Or.inr hfreep',hptr₁,hptr₂,?_,fun j h₁ h₂ => ?_⟩
    · rw [hsize',update_self,← Nat.succ_mul]
    · rw [hsize',update_of_ne (spot_lt (by omega)).ne',hsizes j (by omega) h₂]

/-- 33 blocks of almost 2 GiB are freed one after the other. -/
theorem heap_size_wraps : ∃ w, Reachable 16 (33 * big) w ∧ ¬Sound 16 (33 * big) w := by
  obtain ⟨w,hw,hlive,hregions,hfreep,hptr,hptr',hsize,-⟩ := exists_joined (n := 32) (by decide)
  refine ⟨w,hw,fun hsound => ?_⟩
  rcases hsound.heap with ⟨h,-⟩ | ⟨l,hl⟩
  · have := spot_gt (k := 0)
    omega
  have hlinks := hl.list.links
  cases l with
  | nil => exact absurd ((List.isChain_cons_cons.mp hlinks).1.symm.trans hptr) (by decide)
  | cons b l =>
    obtain ⟨hb,hlinks⟩ := List.isChain_cons_cons.mp hlinks
    have hb : b.1 = spot 0 := hb.symm.trans hptr
    cases l with
    | cons c l =>
      have hc : w.heap.ptr b.1 = c.1 := (List.isChain_cons_cons.mp hlinks).1
      have := hl.list.above c (by simp)
      rw [hb,hptr'] at hc
      omega
    | nil =>
      have hb₂ : b.2 = 33 * big % 2 ^ 32 := by rw [← hsize,← hb]; exact (hl.list.size b (by simp)).symm
      -- the first byte that the joined block does not have any more
      have hin : ∃ r ∈ w.heap.regions, r.1 ≤ spot 0 + 16 * b.2 ∧ spot 0 + 16 * b.2 < plus r.1 r.2 := by
        refine ⟨(spot 0,big),by rw [hregions]; exact List.mem_map.mpr ⟨0,by decide,rfl⟩,Nat.le_add_right _ _,?_⟩
        rw [hb₂,plus]
        exact Nat.add_lt_add_left (by decide) _
      obtain ⟨c,hc,-,h⟩ := (hl.tile _).mpr hin
      have hc : c ∈ [b] := by simpa [World.ranges,hlive] using hc
      rw [List.mem_singleton.mp hc,hb] at h
      exact Nat.lt_irrefl _ h

end Wrap

end Xv6.Umalloc
