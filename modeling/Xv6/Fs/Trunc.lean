import Xv6.Fs.Cut

/-! # `itrunc`

The loops free the blocks at the places of the inode one after another. A place is never
freed twice because no two places refer to one block.
-/
namespace Xv6
open Library Prog
open Function (update update_idem update_of_ne update_self)

namespace Image

structure Truncated (m m' : Image) (i : ℕ) : Prop where
  ino : m'.ino = update m.ino i { m.ino i with size := 0, addrs := fun _ => 0 }
  blk : m'.blk = m.blk
  used : ∀ b, m'.used b = true ↔ m.used b = true ∧ ∀ k, m.ref i k ≠ 0 → m.ref i k ≠ b

variable {sb : Superblock} {m m' : Image} {i j : ℕ}

theorem Truncated.ino_ne (h : Truncated m m' i) (hj : j ≠ i) : m'.ino j = m.ino j := by
  rw [h.ino,update_of_ne hj]

theorem Truncated.ino_self (h : Truncated m m' i) :
    m'.ino i = { m.ino i with size := 0, addrs := fun _ => 0 } := by
  rw [h.ino,update_self]

theorem Truncated.ref_ne (h : Truncated m m' i) (hj : j ≠ i) : m'.ref j = m.ref j :=
  ref_congr (by rw [h.ino_ne hj]) fun _ => by rw [h.blk]

theorem Truncated.ref_self (h : Truncated m m' i) (k : Slot) : m'.ref i k = 0 := by
  cases k with
  | addr a => simp [ref,h.ino_self]
  | entry e =>
    refine ref_entry_zero ?_
    rw [indirect,h.ino_self]
    rfl

theorem Truncated.alloc_iff (h : Truncated m m' i) (j : ℕ) : m'.Alloc sb j ↔ m.Alloc sb j := by
  by_cases hj : j = i
  · subst hj
    exact alloc_congr (by rw [h.ino_self])
  · exact alloc_congr (by rw [h.ino_ne hj])

theorem Truncated.own (h : Truncated m m' i) (hm : m.Own sb) (hi : m.Alloc sb i) : m'.Own sb := by
  constructor
  · refine hm.owned.release (S := fun x => x.1 = i) ?_ ?_
    · rintro ⟨j,k⟩
      by_cases hj : j = i
      · subst hj
        exact .inl ⟨place_eq_none.mpr fun _ => h.ref_self k,rfl⟩
      · exact .inr ⟨place_congr (h.alloc_iff j) fun _ => by rw [h.ref_ne hj],hj⟩
    · intro b hb
      rw [h.used]
      refine and_congr_right fun _ => ⟨?_,?_⟩
      · rintro hfree ⟨j,k⟩ rfl hp
        obtain ⟨-,hr,h0⟩ := place_eq_some.mp hp
        exact hfree k (hr ▸ h0) hr
      · intro hfree k hr hb'
        exact hfree (i,k) rfl (place_eq_some.mpr ⟨hi,hb',hb' ▸ hr⟩)
  · intro b hb
    refine (h.used b).mpr ⟨hm.metadata b hb,fun k hr he => ?_⟩
    have := (hm.isData hi hr).1
    omega

theorem Truncated.noHole (h : Truncated m m' i) (hh : m.NoHole sb) : m'.NoHole sb := by
  intro j bn hj hlt
  by_cases hji : j = i
  · subst hji
    rw [size,h.ino_self] at hlt
    exact absurd hlt (Nat.not_lt_zero _)
  · rw [size,h.ino_ne hji] at hlt
    rw [addr_congr (h.ref_ne hji)]
    exact hh j bn ((h.alloc_iff j).mp hj) hlt

end Image

section
variable {sb : Superblock} {p : Pid} {X : Halt → Prop} {α : Type} {s t : St} {o : ℤ} {ip : Fin NINODE}
variable {D : Slot → Prop} {A : Fin 13 → BitVec 32}

/-- The blocks at the places in `D` have been freed and `A` is left of the addresses in memory. -/
structure Truncating (sb : Superblock) (o : ℤ) (ip : Fin NINODE) (s : St) (D : Slot → Prop)
    (A : Fin 13 → BitVec 32) (t : St) : Prop where
  op : InOp sb o 0 t
  env : t.env = s.env.setDin ip { (s.env.itable ip).din with addrs := A }
  ino : (t.image sb).ino = (s.image sb).ino
  blk : (t.image sb).blk = (s.image sb).blk
  used : ∀ b, (t.image sb).used b = true ↔ (s.image sb).used b = true ∧
    ∀ k, D k → (s.view sb ip).ref (s.env.itable ip).inum k ≠ 0 → (s.view sb ip).ref (s.env.itable ip).inum k ≠ b

theorem Truncating.din (h : Truncating sb o ip s D A t) :
    (t.env.itable ip).din = { (s.env.itable ip).din with addrs := A } := by
  rw [h.env,Env.setDin_itable_self]

theorem Truncating.setAddrs (h : Truncating sb o ip s D A t) (A' : Fin 13 → BitVec 32) :
    Truncating sb o ip s D A'
      { t with env := t.env.setDin ip { (s.env.itable ip).din with addrs := A' } } :=
  ⟨h.op.congr rfl rfl,by simp [h.env],h.ino,h.blk,h.used⟩

theorem Truncating.bfree {k : Slot} {b : ℕ} {f : Unit → Code ℕ α} {Q : α → St → Prop}
    (h : Truncating sb o ip s D A t) (hX : X (.panic .tooBigTransaction)) (ho : (s.view sb ip).Own sb)
    (ha : (s.view sb ip).Alloc sb (s.env.itable ip).inum) (hk : ¬D k)
    (hb : (s.view sb ip).ref (s.env.itable ip).inum k = b) (hb0 : b ≠ 0)
    (hf : ∀ u, Truncating sb o ip s (fun l => D l ∨ l = k) A u → (f ()).wp (St.exec p) X Q u) :
    ((bfree sb b : Code ℕ Unit).bind f).wp (St.exec p) X Q t := by
  subst hb
  have hdata := ho.isData ha hb0
  have hused : (t.image sb).used ((s.view sb ip).ref (s.env.itable ip).inum k) = true := by
    refine (h.used _).mpr ⟨ho.used ha hb0,fun l hl _ he => hk ?_⟩
    have := ho.inj ha ha hb0 he
    rw [← (Prod.mk.inj this).2]
    exact hl
  refine (bfree_wp h.op hdata hused (.inr hX)).seq ?_
  rintro ⟨⟩ u ⟨hop,henv,himage⟩
  refine hf u ⟨hop,henv.trans h.env,?_,?_,?_⟩
  · rw [himage]
    exact h.ino
  · rw [himage]
    exact h.blk
  · intro c
    rw [himage,Image.setUsed_used]
    by_cases hc : c = (s.view sb ip).ref (s.env.itable ip).inum k
    · subst hc
      rw [update_self]
      constructor
      · intro hfalse
        cases hfalse
      · intro hall
        exact absurd rfl (hall.2 k (.inr rfl) hb0)
    · rw [update_of_ne hc,h.used]
      refine and_congr_right fun _ => ⟨?_,fun hall l hl => hall l (.inl hl)⟩
      rintro hall l (hl | rfl) hr
      · exact hall l hl hr
      · exact Ne.symm hc

theorem Truncating.skip {k : Slot} (h : Truncating sb o ip s D A t)
    (hk : (s.view sb ip).ref (s.env.itable ip).inum k = 0) :
    Truncating sb o ip s (fun l => D l ∨ l = k) A t := by
  refine { h with used := fun b => (h.used b).trans (and_congr_right fun _ => ⟨?_,fun hall l hl => hall l (.inl hl)⟩) }
  rintro hall l (hl | rfl) hr
  · exact hall l hl hr
  · exact absurd hk hr

private theorem itruncDirect_wp (hX : X (.panic .tooBigTransaction)) (ho : (s.view sb ip).Own sb)
    (ha : (s.view sb ip).Alloc sb (s.env.itable ip).inum) (l : List (Fin 13)) (hl : l.Nodup)
    (h : Truncating sb o ip s D A t)
    (hA : ∀ a ∈ l, ¬D (.addr a) ∧ A a = (s.env.itable ip).din.addrs a) :
    (itruncDirect sb ip l : Code ℕ Unit).wp (St.exec p) X (fun _ u =>
      Truncating sb o ip s (fun k => D k ∨ ∃ a ∈ l, k = .addr a) (fun a => if a ∈ l then 0 else A a) u) t := by
  induction l generalizing t D A with
  | nil =>
    rw [itruncDirect,wp_pure]
    simpa using h
  | cons a l ih =>
    obtain ⟨hal,hl⟩ := List.nodup_cons.mp hl
    obtain ⟨hDa,hAa⟩ := hA a (List.mem_cons_self ..)
    have hne : ∀ a' ∈ l, a' ≠ a := fun a' ha' he => hal (he ▸ ha')
    have hrest : ∀ a' ∈ l, ¬(D (.addr a') ∨ Slot.addr a' = .addr a) := by
      rintro a' ha' (hD | he)
      · exact (hA a' (List.mem_cons_of_mem _ ha')).1 hD
      · exact hne a' ha' (Slot.addr.inj he)
    have href : (s.view sb ip).ref (s.env.itable ip).inum (.addr a) = (A a).toNat := by
      rw [Image.ref,St.view_ino_self,hAa]
    have hD : (fun k => (D k ∨ k = .addr a) ∨ ∃ a' ∈ l, k = .addr a') = fun k => D k ∨ ∃ a' ∈ a :: l, k = .addr a' := by
      funext k
      simp only [List.mem_cons,exists_eq_or_imp,or_assoc]
    rw [itruncDirect,bind_eq,wp_inode,h.din]
    dsimp only
    split
    · rename_i h0
      rw [bind_eq]
      refine h.bfree hX ho ha hDa href h0 fun u hu => ?_
      rw [bind_eq,wp_setDin]
      refine (ih hl (hu.setAddrs _) fun a' ha' => ⟨hrest a' ha',?_⟩).imp fun _ v hv => ?_
      · rw [update_of_ne (hne a' ha')]
        exact (hA a' (List.mem_cons_of_mem _ ha')).2
      · have hA' : (fun a' => if a' ∈ l then 0 else update A a 0 a') =
            fun a' => if a' ∈ a :: l then 0 else A a' := by
          funext a'
          by_cases he : a' = a
          · simp [he]
          · simp [he]
        rwa [hA',hD] at hv
    · rename_i h0
      have h0 : A a = 0 := BitVec.eq_of_toNat_eq (by simpa using h0)
      refine (ih hl (h.skip (by rw [href,h0]; rfl)) fun a' ha' =>
        ⟨hrest a' ha',(hA a' (List.mem_cons_of_mem _ ha')).2⟩).imp fun _ v hv => ?_
      have hA' : (fun a' => if a' ∈ l then 0 else A a') = fun a' => if a' ∈ a :: l then 0 else A a' := by
        funext a'
        by_cases he : a' = a
        · simp [he,h0]
        · simp [he]
      rwa [hA',hD] at hv

private theorem itruncIndirect_wp (hX : X (.panic .tooBigTransaction)) (ho : (s.view sb ip).Own sb)
    (ha : (s.view sb ip).Alloc sb (s.env.itable ip).inum) {bp : ℕ}
    (hbp : (s.view sb ip).indirect (s.env.itable ip).inum = bp) (hbp0 : bp ≠ 0) (l : List ℕ) (hl : l.Nodup)
    (hlt : ∀ j ∈ l, j < NINDIRECT) (h : Truncating sb o ip s D A t)
    (hD : ∀ j ∈ l, ∀ e : Fin NINDIRECT, e.val = j → ¬D (.entry e)) :
    (itruncIndirect sb bp l : Code ℕ Unit).wp (St.exec p) X (fun _ u =>
      Truncating sb o ip s (fun k => D k ∨ ∃ e : Fin NINDIRECT, e.val ∈ l ∧ k = .entry e) A u) t := by
  induction l generalizing t D with
  | nil =>
    rw [itruncIndirect,wp_pure]
    simpa using h
  | cons j l ih =>
    obtain ⟨hjl,hl⟩ := List.nodup_cons.mp hl
    have hj := hlt j (List.mem_cons_self ..)
    have hdata : sb.IsData bp := by
      have := ho.isData (k := .addr 12) ha (by change (s.view sb ip).indirect _ ≠ 0; rwa [hbp])
      rwa [← hbp]
    have href : (s.view sb ip).ref (s.env.itable ip).inum (.entry ⟨j,hj⟩) = ofLe ((t.blk bp).slice (4 * j) 4) := by
      rw [Image.ref_entry hbp hbp0,St.view_blk,← h.blk]
      exact congrArg (fun d : Block => ofLe (d.slice (4 * j) 4)) (Image.ofBlocks_blk hdata)
    have hD' : (fun k => (D k ∨ k = .entry ⟨j,hj⟩) ∨ ∃ e : Fin NINDIRECT, e.val ∈ l ∧ k = .entry e) =
        fun k => D k ∨ ∃ e : Fin NINDIRECT, e.val ∈ j :: l ∧ k = .entry e := by
      funext k
      simp only [eq_iff_iff,or_assoc]
      refine or_congr_right ⟨?_,?_⟩
      · rintro (rfl | ⟨e,he,rfl⟩)
        · exact ⟨_,List.mem_cons_self ..,rfl⟩
        · exact ⟨e,List.mem_cons_of_mem _ he,rfl⟩
      · rintro ⟨e,he,rfl⟩
        rcases List.mem_cons.mp he with he | he
        · exact .inl (congrArg Slot.entry (Fin.ext he))
        · exact .inr ⟨e,he,rfl⟩
    have hrest : ∀ j' ∈ l, ∀ e : Fin NINDIRECT, e.val = j' → ¬(D (.entry e) ∨ Slot.entry e = .entry ⟨j,hj⟩) := by
      rintro j' hj' e rfl (hDe | he)
      · exact hD _ (List.mem_cons_of_mem _ hj') e rfl hDe
      · rw [Slot.entry.inj he] at hj'
        exact hjl hj'
    have hltl : ∀ j' ∈ l, j' < NINDIRECT := fun j' hj' => hlt j' (List.mem_cons_of_mem _ hj')
    rw [itruncIndirect,bind_eq,wp_bdata]
    split
    · rename_i h0
      rw [bind_eq]
      refine h.bfree hX ho ha (hD j (List.mem_cons_self ..) ⟨j,hj⟩ rfl) href h0 fun u hu => ?_
      exact (ih hl hltl hu hrest).imp fun _ v hv => by rwa [hD'] at hv
    · rename_i h0
      have h0 : ofLe ((t.blk bp).slice (4 * j) 4) = 0 := by simpa using h0
      exact (ih hl hltl (h.skip (href.trans h0)) hrest).imp fun _ v hv => by rwa [hD'] at hv

structure Itrunc (sb : Superblock) (o : ℤ) (ip : Fin NINODE) (s t : St) : Prop where
  op : InOp sb o 0 t
  env : t.env = s.env.setDin ip { (s.env.itable ip).din with size := 0, addrs := fun _ => 0 }
  truncated : (s.view sb ip).Truncated (t.image sb) (s.env.itable ip).inum

private theorem direct_list : ∀ a : Fin 13, a ∈ (List.finRange 13).take NDIRECT ↔ a ≠ 12 := by decide

private theorem Truncating.finish (hX : X (.panic .tooBigTransaction))
    (ha : (s.view sb ip).Alloc sb (s.env.itable ip).inum) (h : Truncating sb o ip s D (fun _ => 0) t)
    (hD : ∀ k, (s.view sb ip).ref (s.env.itable ip).inum k ≠ 0 → D k) :
    (do
      let i : Inode ← Xv6.env (.inode ip)
      setDin ip { i.din with size := 0 }
      iupdate sb ip : Code ℕ Unit).wp (St.exec p) X (fun _ u => Itrunc sb o ip s u) t := by
  rw [bind_eq,wp_inode,bind_eq,wp_setDin,h.din]
  dsimp only
  generalize hd : Dinode.mk .. = d
  have hop : InOp sb o 0 { t with env := t.env.setDin ip d } := h.op.congr rfl rfl
  have hinum : ((t.env.setDin ip d).itable ip).inum = (s.env.itable ip).inum := by
    rw [Env.setDin_itable_self,h.env,Env.setDin_itable_self]
  refine (iupdate_wp hop (by rw [hinum]; exact ha.2.1) (.inr hX)).imp ?_
  rintro ⟨⟩ u ⟨hop',henv,himage⟩
  refine ⟨hop',by rw [henv,h.env,Env.setDin_setDin,hd],?_⟩
  have hview : St.view sb { t with env := t.env.setDin ip d } ip = (t.image sb).setIno (s.env.itable ip).inum d := by
    rw [St.view,hinum,Env.setDin_itable_self]
    rfl
  rw [himage,hview]
  refine ⟨?_,h.blk,?_⟩
  · rw [St.view_ino_self,hd,Image.setIno_ino,h.ino,St.view,Image.setIno_ino,update_idem]
  · intro b
    refine (h.used b).trans (and_congr_right fun _ => ⟨fun hall k hr => hall k (hD k hr) hr,fun hall k _ => hall k⟩)

theorem itrunc_wp (h : InOp sb o 0 s) (hX : X (.panic .tooBigTransaction)) (ho : (s.view sb ip).Own sb)
    (ha : (s.view sb ip).Alloc sb (s.env.itable ip).inum) :
    (itrunc sb ip : Code ℕ Unit).wp (St.exec p) X (fun _ t => Itrunc sb o ip s t) s := by
  have hstart : Truncating sb o ip s (fun _ => False) (s.env.itable ip).din.addrs s :=
    ⟨h,(Env.setDin_self _ _).symm,rfl,rfl,fun b => by simp⟩
  rw [itrunc,bind_eq]
  refine (itruncDirect_wp hX ho ha _ ?_ hstart fun a _ => ⟨not_false,rfl⟩).seq ?_
  · exact (List.nodup_finRange 13).sublist (List.take_sublist _ _)
  rintro ⟨⟩ t ht
  have hdirect : ∀ k, (s.view sb ip).ref (s.env.itable ip).inum k ≠ 0 →
      (False ∨ ∃ a ∈ (List.finRange 13).take NDIRECT, k = .addr a) ∨ k = .addr 12 ∨ ∃ e, k = .entry e := by
    intro k _
    cases k with
    | addr a =>
      by_cases h12 : a = 12
      · exact .inr (.inl (by rw [h12]))
      · exact .inl (.inr ⟨a,(direct_list a).mpr h12,rfl⟩)
    | entry e => exact .inr (.inr ⟨e,rfl⟩)
  obtain ⟨A,hA,hA12,ht⟩ : ∃ A, (∀ a, a ≠ 12 → A a = 0) ∧ A 12 = (s.env.itable ip).din.addrs 12 ∧
      Truncating sb o ip s (fun k => False ∨ ∃ a ∈ (List.finRange 13).take NDIRECT, k = .addr a) A t :=
    ⟨_,fun a h12 => if_pos ((direct_list a).mpr h12),if_neg (by decide),ht⟩
  have href : (s.view sb ip).ref (s.env.itable ip).inum (.addr 12) = (A 12).toNat := by
    rw [Image.ref,St.view_ino_self,hA12]
  rw [bind_eq,wp_inode,ht.din]
  dsimp only
  by_cases h0 : (A 12).toNat ≠ 0
  · rw [if_pos h0,bind_eq,wp_bread,bind_eq]
    refine (itruncIndirect_wp hX ho ha href h0 _ List.nodup_range (fun j hj => List.mem_range.mp hj) ht ?_).seq ?_
    · rintro j hj e rfl (hf | ⟨a,-,he⟩)
      · exact hf
      · cases he
    rintro ⟨⟩ u hu
    rw [bind_eq,wp_brelse,bind_eq]
    refine hu.bfree hX ho ha ?_ href h0 fun v hv => ?_
    · rintro ((hf | ⟨a,ha,he⟩) | ⟨e,-,he⟩)
      · exact hf
      · exact (direct_list a).mp ha (Slot.addr.inj he).symm
      · cases he
    rw [bind_eq,wp_setDin]
    have hzero : update A 12 0 = fun _ => 0 := by
      funext a
      by_cases h12 : a = 12
      · rw [h12,update_self]
      · rw [update_of_ne h12,hA a h12]
    rw [hzero]
    refine (hv.setAddrs _).finish hX ha fun k hk => ?_
    rcases hdirect k hk with h | rfl | ⟨e,rfl⟩
    · exact .inl (.inl h)
    · exact .inr rfl
    · exact .inl (.inr ⟨e,List.mem_range.mpr e.isLt,rfl⟩)
  · rw [if_neg h0]
    have h12 : (A 12).toNat = 0 := by simpa using h0
    have hzero : A = fun _ => 0 := by
      funext a
      by_cases h : a = 12
      · rw [h]
        exact BitVec.eq_of_toNat_eq h12
      · exact hA a h
    rw [hzero] at ht
    refine ht.finish hX ha fun k hk => ?_
    rcases hdirect k hk with h | rfl | ⟨e,rfl⟩
    · exact h
    · exact absurd (href.trans h12) hk
    · exact absurd (Image.ref_entry_zero (href.trans h12)) hk

/-- `itrunc` gives back the blocks of its file `i` and no others. The content of every other file stays,
and again each block that is in use has one owner. -/
theorem itrunc_gives_back {i : ℕ} (hi : (s.env.itable ip).inum = i) (hop : InOp sb o 0 s) (hown : (s.view sb ip).Own sb)
    (hhole : (s.view sb ip).NoHole sb) (halloc : (s.view sb ip).Alloc sb i) :
    (itrunc sb ip : Code ℕ Unit).run (St.exec p) s = .error (.panic .tooBigTransaction) ∨
    ∃ t, (itrunc sb ip : Code ℕ Unit).run (St.exec p) s = .ok ((),t) ∧ (t.image sb).Own sb ∧ (t.image sb).NoHole sb ∧
      (t.image sb).content i = [] ∧ (∀ k, (t.image sb).ref i k = 0) ∧
      (∀ j, j ≠ i → (t.image sb).ino j = (s.view sb ip).ino j ∧ (t.image sb).content j = (s.view sb ip).content j) ∧
      ∀ b, (t.image sb).used b = true ↔ (s.view sb ip).used b = true ∧
        ∀ k, (s.view sb ip).ref i k ≠ 0 → (s.view sb ip).ref i k ≠ b := by
  subst hi
  rcases (itrunc_wp (p := p) (X := fun e => e = .panic .tooBigTransaction) hop rfl hown halloc).run with
    ⟨⟨⟩,t,hr,-,-,ht⟩ | ⟨e,hr,rfl⟩
  · refine .inr ⟨t,hr,ht.own hown halloc,ht.noHole hhole,?_,ht.ref_self,fun j hj => ⟨ht.ino_ne hj,?_⟩,ht.used⟩
    · rw [Image.content,Image.size,ht.ino_self]
      rfl
    · simp only [Image.content,Image.bytesAt,Image.byteAt,Image.size,Image.addr,ht.ino_ne hj,ht.ref_ne hj,ht.blk]
  · exact .inl hr

end

/-- The root directory of the sample, emptied. -/
theorem itrunc_gives_back_root : ∃ t, (itrunc Sample.super 0 : Code ℕ Unit).run (St.exec 0) onePage = .ok ((),t) ∧
    (t.image Sample.super).Own Sample.super ∧ (t.image Sample.super).content 1 = [] := by
  have himage : onePage.image Sample.super = Sample.image := Sample.state_image
  have hop : InOp Sample.super 1 MAXOPBLOCKS onePage := Sample.begun_inOp.congr rfl rfl
  have hview : onePage.view Sample.super 0 = Sample.image := (St.view_eq_image (by rw [himage]; rfl)).trans himage
  rcases itrunc_gives_back (p := 0) rfl (hop.mono (Nat.zero_le _)) (hview ▸ Sample.own) (hview ▸ Sample.noHole)
    (by rw [hview]; decide) with
    hr | ⟨t,hr,hown,-,hempty,-⟩
  · have hrun : ((itrunc Sample.super 0 : Code ℕ Unit).run (St.exec 0) onePage).isOk = true := by decide +kernel
    rw [hr] at hrun
    cases hrun
  · exact ⟨t,hr,hown,hempty⟩

end Xv6
