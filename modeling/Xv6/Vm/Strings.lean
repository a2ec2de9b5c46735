import Xv6.Vm.Copy

/-! # `copyinstr`, `fetchstr` and `argstr`

`copyinstr` goes through the pages of the user one by one. So what it copies is said in terms of user
addresses, as for `copyin`, with the first NUL where `copyin` has the last byte.
-/
namespace Xv6.Vm
open Library

/-! ## `syscall.c` -/

def strlen (s : List Byte) : ℕ := (s.takeWhile (· != 0)).length

/-- `fetchstr(addr, buf, max)`: the result and the new content of `buf`. -/
def fetchstr (pagetable addr : ℕ) (buf : List Byte) (max : ℕ) : VmCode (ℤ × List Byte) := do
  let r ← copyinstr pagetable addr max
  let buf := r.2 ++ buf.drop r.2.length
  if r.1 < 0 then pure (-1,buf) else pure (strlen buf,buf)

abbrev ArgRegs := Fin 6 → ℕ

def argraw (trapframe : ArgRegs) (n : Fin 6) : ℕ := trapframe n

def argstr (pagetable : ℕ) (trapframe : ArgRegs) (n : Fin 6) (buf : List Byte) (max : ℕ) : VmCode (ℤ × List Byte) :=
  fetchstr pagetable (argraw trapframe n) buf max

namespace Machine
variable {m : Machine} {root : ℕ}

/-- The first NUL from `a` on is `k` bytes further, and the bytes up to it can be read. -/
structure Terminated (m : Machine) (root a k : ℕ) : Prop where
  access : ∀ i ≤ k, Accessible readable (m.get 2 root) (a + i)
  nul : m.byte root (a + k) = some 0
  first : ∀ i < k, m.byte root (a + i) ≠ some 0

theorem Terminated.unique {a k k' : ℕ} (h : m.Terminated root a k) (h' : m.Terminated root a k') : k = k' := by
  rcases Nat.lt_trichotomy k k' with hlt | heq | hgt
  · exact absurd h.nul (h'.first k hlt)
  · exact heq
  · exact absurd h'.nul (h.first k' hgt)

def Reads (m : Machine) (root a : ℕ) (bs : List Byte) : Prop := ∀ i b, bs[i]? = some b → m.byte root (a + i) = some b

theorem terminated_add {a n : ℕ} (hacc : ∀ i < n, Accessible readable (m.get 2 root) (a + i))
    (hbyte : ∀ i < n, m.byte root (a + i) ≠ some 0) (k : ℕ) :
      m.Terminated root a k ↔ n ≤ k ∧ m.Terminated root (a + n) (k - n) := by
  constructor
  · intro h
    have hn : n ≤ k := by
      by_contra hlt
      exact hbyte k (by omega) h.nul
    refine ⟨hn,fun i hi => ?_,?_,fun i hi => ?_⟩
    · rw [Nat.add_assoc]
      exact h.access (n + i) (by omega)
    · rw [Nat.add_assoc,Nat.add_sub_cancel' hn]
      exact h.nul
    · rw [Nat.add_assoc]
      exact h.first (n + i) (by omega)
  · rintro ⟨hn,h⟩
    have hadd : ∀ i, n ≤ i → a + n + (i - n) = a + i := fun i hi => by omega
    refine ⟨fun i hi => ?_,?_,fun i hi => ?_⟩
    · rcases Nat.lt_or_ge i n with hlt | hge
      · exact hacc i hlt
      · rw [← hadd i hge]
        exact h.access (i - n) (by omega)
    · rw [← hadd k hn]
      exact h.nul
    · rcases Nat.lt_or_ge i n with hlt | hge
      · exact hbyte i hlt
      · rw [← hadd i hge]
        exact h.first (i - n) (by omega)

def Copied (m : Machine) (root a max : ℕ) (r : ℤ) (bs : List Byte) : Prop :=
  bs.length ≤ max ∧ m.Reads root a bs ∧
    (r = 0 ∧ (∃ k < max, m.Terminated root a k ∧ bs.length = k + 1) ∨ r = -1 ∧ ∀ k < max, ¬m.Terminated root a k)

theorem copied_zero (a : ℕ) : m.Copied root a 0 (-1) [] :=
  ⟨le_rfl,fun i b hb => by simp at hb,.inr ⟨rfl,fun k hk => absurd hk (Nat.not_lt_zero k)⟩⟩

theorem copied_stop {a max : ℕ} (h : ¬Accessible readable (m.get 2 root) a) : m.Copied root a max (-1) [] :=
  ⟨Nat.zero_le max,fun i b hb => by simp at hb,.inr ⟨rfl,fun _ _ ht => h (ht.access 0 (Nat.zero_le _))⟩⟩

theorem copyinstrLoop_zero {fuel a : ℕ} : copyinstrLoop root fuel a 0 = pure (-1,[]) := by
  cases fuel <;> rfl

section Page
variable {a : ℕ} {bs : List Byte}

theorem ne_zero_of_mem {s : List Byte} (h : 0 ∉ s) : ∀ b ∈ s, (b != 0) = true := fun _ hb =>
  bne_iff_ne.mpr fun he => h (he ▸ hb)

theorem takeWhile_nul {s t : List Byte} (h : 0 ∉ s) : (s ++ 0 :: t).takeWhile (· != 0) = s := by
  rw [List.takeWhile_append_of_pos (ne_zero_of_mem h)]
  exact List.append_nil s

theorem Reads.getElem (h : m.Reads root a bs) {i : ℕ} (hi : i < bs.length) : m.byte root (a + i) = some bs[i] :=
  h i _ (List.getElem?_eq_getElem hi)

theorem Reads.ne_zero (h : m.Reads root a bs) (h0 : 0 ∉ bs) : ∀ i < bs.length, m.byte root (a + i) ≠ some 0 := by
  intro i hi hb
  rw [h.getElem hi] at hb
  exact h0 (Option.some.inj hb ▸ List.getElem_mem hi)

theorem Reads.append {cs : List Byte} (h : m.Reads root a bs) (h' : m.Reads root (a + bs.length) cs) :
    m.Reads root a (bs ++ cs) := by
  intro i b hb
  rcases Nat.lt_or_ge i bs.length with hi | hi
  · rw [List.getElem?_append_left hi] at hb
    exact h i b hb
  · rw [List.getElem?_append_right hi] at hb
    have := h' (i - bs.length) b hb
    rwa [show a + bs.length + (i - bs.length) = a + i by omega] at this

theorem Reads.of_append {cs : List Byte} (h : m.Reads root a (bs ++ cs)) : m.Reads root a bs := by
  intro i b hb
  obtain ⟨hi,rfl⟩ := List.getElem?_eq_some_iff.mp hb
  refine h i _ ?_
  rw [List.getElem?_append_left hi,List.getElem?_eq_getElem hi]

theorem copied_found {max : ℕ} (hle : bs.length ≤ max) (hacc : ∀ i < bs.length, Accessible readable (m.get 2 root) (a + i))
    (hbytes : m.Reads root a bs) (h0 : 0 ∈ bs) : m.Copied root a max 0 (bs.takeWhile (· != 0) ++ [0]) := by
  obtain ⟨s,t,rfl,hs⟩ := List.eq_append_cons_of_mem h0
  rw [takeWhile_nul hs]
  have hlen : (s ++ 0 :: t).length = s.length + (t.length + 1) := by rw [List.length_append,List.length_cons]
  rw [hlen] at hle hacc
  have hcut : m.Reads root a (s ++ [0]) := by
    rw [List.append_cons] at hbytes
    exact hbytes.of_append
  have hnul := hbytes.getElem (i := s.length) (by omega)
  rw [List.getElem_append_right (le_refl _)] at hnul
  simp only [Nat.sub_self,List.getElem_cons_zero] at hnul
  refine ⟨?_,hcut,.inl ⟨rfl,s.length,by omega,⟨fun i hi => hacc i (by omega),hnul,?_⟩,?_⟩⟩
  · rw [List.length_append,List.length_singleton]
    omega
  · exact hcut.of_append.ne_zero hs
  · rw [List.length_append,List.length_singleton]

theorem copied_next {max : ℕ} {r : ℤ} {cs : List Byte} (hle : bs.length ≤ max)
    (hacc : ∀ i < bs.length, Accessible readable (m.get 2 root) (a + i)) (hbytes : m.Reads root a bs) (h0 : 0 ∉ bs)
    (h : m.Copied root (a + bs.length) (max - bs.length) r cs) : m.Copied root a max r (bs ++ cs) := by
  have hnext := terminated_add hacc (hbytes.ne_zero h0)
  obtain ⟨hlen,hcs,h⟩ := h
  refine ⟨by rw [List.length_append]; omega,hbytes.append hcs,?_⟩
  rcases h with ⟨hr,k,hk,hterm,hklen⟩ | ⟨hr,hno⟩
  · refine .inl ⟨hr,bs.length + k,by omega,(hnext _).mpr ⟨by omega,?_⟩,by rw [List.length_append]; omega⟩
    rwa [Nat.add_sub_cancel_left]
  · refine .inr ⟨hr,fun k hk ht => ?_⟩
    obtain ⟨hn,ht⟩ := (hnext k).mp ht
    exact hno _ (by omega) ht

theorem takeWhile_lt_iff : (bs.takeWhile (· != 0)).length < bs.length ↔ 0 ∈ bs := by
  constructor
  · intro h
    by_contra h0
    rw [List.takeWhile_eq_self_iff.mpr (ne_zero_of_mem h0)] at h
    exact absurd h (lt_irrefl _)
  · intro h0
    obtain ⟨s,t,rfl,hs⟩ := List.eq_append_cons_of_mem h0
    rw [takeWhile_nul hs,List.length_append,List.length_cons]
    omega

end Page

theorem run_copyinstrLoop (ram : Ram) (hpa : ∀ v e, v < 2 ^ 27 → m.get 2 root v = some e → readable e → PTE2PA e ≠ 0)
    {fuel a max : ℕ} (hfuel : max ≤ fuel) :
    ∃ r bs, (copyinstrLoop root fuel a max).run (exec ram) m = .ok ((r,bs),m) ∧ m.Copied root a max r bs := by
  induction fuel generalizing a max with
  | zero =>
    obtain rfl : max = 0 := by omega
    exact ⟨-1,[],rfl,copied_zero a⟩
  | succ fuel ih =>
    by_cases hmax : max = 0
    · subst hmax
      exact ⟨-1,[],by rw [copyinstrLoop_zero]; rfl,copied_zero a⟩
    rw [copyinstrLoop,if_neg hmax]
    dsimp only
    rw [Prog.bind_eq,Prog.run_bind_ok (run_walkaddr m root (PGROUNDDOWN a))]
    rcases userAddr_cases hpa a with ⟨hzero,hno⟩ | ⟨e,haddr,hne,ha,he,hU⟩
    · rw [if_pos hzero]
      exact ⟨-1,[],rfl,copied_stop hno⟩
    · have hacc : Accessible readable (m.get 2 root) a := ⟨ha,e,he,hU⟩
      have hoff : a - PGROUNDDOWN a = a % PGSIZE := by
        simp only [PGROUNDDOWN,PGSIZE]
        omega
      have hmod : a % PGSIZE < PGSIZE := Nat.mod_lt _ (by decide)
      rw [haddr,if_neg hne,hoff]
      generalize hn : min (PGSIZE - a % PGSIZE) max = n
      have hpage : ∀ i < n, Accessible readable (m.get 2 root) (a + i) := by
        intro i hi
        refine hacc.same_page ?_
        simp only [PGSIZE] at hn hmod ⊢
        omega
      rw [Prog.bind_eq,Prog.run_bind_ok (run_peek (by omega))]
      have hlen : ((m.mem (PTE2PA e)).slice (a % PGSIZE) n).length = n := Bytes.length_slice ..
      have hbytes : m.Reads root a ((m.mem (PTE2PA e)).slice (a % PGSIZE) n) := fun i b hb => byte_slice he (by omega) hb
      generalize (m.mem (PTE2PA e)).slice (a % PGSIZE) n = bs at hlen hbytes ⊢
      subst hlen
      simp only [takeWhile_lt_iff]
      by_cases h0 : 0 ∈ bs
      · rw [if_pos h0]
        exact ⟨0,_,rfl,copied_found (by omega) hpage hbytes h0⟩
      · rw [if_neg h0,Prog.bind_eq]
        -- the next page begins after these bytes, unless max bytes have been seen
        obtain ⟨r,cs,hrun,hcopied⟩ : ∃ r cs, (copyinstrLoop root fuel (PGROUNDDOWN a + PGSIZE) (max - bs.length)).run (exec ram) m =
            .ok ((r,cs),m) ∧ m.Copied root (a + bs.length) (max - bs.length) r cs := by
          rcases Nat.lt_or_ge bs.length max with hlt | hge
          · have hnext : PGROUNDDOWN a + PGSIZE = a + bs.length := by
              simp only [PGROUNDDOWN,PGSIZE] at hn ⊢
              omega
            rw [hnext]
            exact ih (by omega)
          · rw [Nat.sub_eq_zero_of_le hge,copyinstrLoop_zero]
            exact ⟨-1,[],rfl,copied_zero _⟩
        rw [Prog.run_bind_ok hrun]
        exact ⟨r,bs ++ cs,rfl,copied_next (by omega) hpage hbytes h0 hcopied⟩

theorem Terminated.strlen_eq {a k : ℕ} {bs : List Byte} (ht : m.Terminated root a k) (hbytes : m.Reads root a bs)
    (hlen : bs.length = k + 1) (rest : List Byte) : strlen (bs ++ rest) = k := by
  have hk : k < bs.length := by omega
  have hnul : bs[k] = 0 := by
    have := hbytes.getElem hk
    rw [ht.nul] at this
    exact (Option.some.inj this).symm
  have hfree : 0 ∉ bs.take k := by
    intro hm
    obtain ⟨i,hi,he⟩ := List.getElem_of_mem hm
    rw [List.length_take] at hi
    rw [List.getElem_take] at he
    refine ht.first i (by omega) ?_
    rw [hbytes.getElem (by omega),he]
  have hbs : bs ++ rest = bs.take k ++ 0 :: rest := by
    have hcut := List.take_append_getElem hk
    rw [hnul,← hlen,List.take_length] at hcut
    rw [List.append_cons,hcut]
  rw [strlen,hbs,takeWhile_nul hfree,List.length_take]
  omega

/-- `copyinstr` copies a terminated string of less than `max` characters, and accepts nothing else.
So `fetchstr` and `argstr` return its length. No user page is at physical address 0, which is how
`walkaddr` says that there is no page. -/
theorem copyinstr_copies_string (ram : Ram) (hpa : ∀ v e, v < 2 ^ 27 → m.get 2 root v = some e → readable e → PTE2PA e ≠ 0)
    (srcva max : ℕ) :
    ∃ r bs, (copyinstr root srcva max).run (exec ram) m = .ok ((r,bs),m) ∧ bs.length ≤ max ∧ (r = 0 ∨ r = -1) ∧
      (r = 0 ↔ ∃ k < max, m.Terminated root srcva k) ∧
      (∀ k < max, m.Terminated root srcva k → bs.length = k + 1 ∧ m.Reads root srcva bs) ∧
      ∀ (trapframe : ArgRegs) (n : Fin 6) (buf : List Byte), argraw trapframe n = srcva →
        ∃ len : ℤ, (fetchstr root srcva buf max).run (exec ram) m = .ok ((len,bs ++ buf.drop bs.length),m) ∧
          (argstr root trapframe n buf max).run (exec ram) m = .ok ((len,bs ++ buf.drop bs.length),m) ∧
          (∀ k < max, m.Terminated root srcva k → len = k) ∧ ((∀ k < max, ¬m.Terminated root srcva k) → len = -1) := by
  obtain ⟨r,bs,hrun,hlen,hbytes,hcase⟩ := run_copyinstrLoop ram hpa (a := srcva) (le_refl max)
  change (copyinstr root srcva max).run (exec ram) m = .ok ((r,bs),m) at hrun
  refine ⟨r,bs,hrun,hlen,?_⟩
  rcases hcase with ⟨rfl,k,hk,ht,hklen⟩ | ⟨rfl,hno⟩
  · refine ⟨.inl rfl,iff_of_true rfl ⟨k,hk,ht⟩,fun k' hk' ht' => ht'.unique ht ▸ ⟨hklen,hbytes⟩,?_⟩
    rintro trapframe n buf rfl
    have hfetch : (fetchstr root (argraw trapframe n) buf max).run (exec ram) m = .ok (((k : ℤ),bs ++ buf.drop bs.length),m) := by
      rw [fetchstr,Prog.bind_eq,Prog.run_bind_ok hrun]
      dsimp only
      rw [if_neg (lt_irrefl 0),ht.strlen_eq hbytes hklen]
      rfl
    exact ⟨k,hfetch,hfetch,fun k' _ ht' => by rw [ht'.unique ht],fun hno => absurd ht (hno k hk)⟩
  · refine ⟨.inr rfl,iff_of_false (by decide) fun ⟨k,hk,ht⟩ => hno k hk ht,fun k hk ht => absurd ht (hno k hk),?_⟩
    rintro trapframe n buf rfl
    have hfetch : (fetchstr root (argraw trapframe n) buf max).run (exec ram) m = .ok ((-1,bs ++ buf.drop bs.length),m) := by
      rw [fetchstr,Prog.bind_eq,Prog.run_bind_ok hrun]
      rfl
    exact ⟨-1,hfetch,hfetch,fun k hk ht => absurd ht (hno k hk),fun _ => rfl⟩

theorem Reads.eq {a : ℕ} {bs cs : List Byte} (h : m.Reads root a bs) (h' : m.Reads root a cs) (hlen : bs.length = cs.length) :
    bs = cs := by
  apply List.ext_getElem hlen
  intro i h₁ h₂
  exact Option.some.inj ((h.getElem h₁).symm.trans (h'.getElem h₂))

/-- The string "hi" in the first page of a process. -/
theorem copyinstr_copies_string_first : ∃ (m : Machine) (p : Space),
    (argstr p.pagetable (fun _ => 0) 1 [7,7,7,7] 3).run (exec firstRam) m = .ok ((2,[104,105,0,7]),m) := by
  obtain ⟨m,p,-,hm,hn⟩ := firstProcess_space
  obtain ⟨e,he,-,hU⟩ := hm.shape.low 0 (by omega)
  have hU : e &&& PTE_U ≠ 0 := hU (Set.notMem_empty 0)
  have hwrote := hm.wrote (a := 0) [104,105,0] (by decide) he hU (by decide)
  obtain ⟨hm',hget⟩ := hm.set (q := (m.mem (PTE2PA e)).splice 0 [104,105,0]) (by decide) he hU
  have hbytes : (m.set (PTE2PA e) ((m.mem (PTE2PA e)).splice 0 [104,105,0])).Reads p.pagetable 0 [104,105,0] := hwrote.written
  generalize m.set (PTE2PA e) ((m.mem (PTE2PA e)).splice 0 [104,105,0]) = m' at hm' hget hbytes
  have hpage : Accessible readable (m'.get 2 p.pagetable) 0 := by
    rw [hget]
    exact ⟨by decide,e,he,hU⟩
  have ht : m'.Terminated p.pagetable 0 2 := by
    refine ⟨fun i hi => hpage.same_page ?_,hbytes.getElem (i := 2) (by decide),fun i hi => ?_⟩
    · simp only [PGSIZE]
      omega
    · have hword : m'.Reads p.pagetable 0 [104,105] := Reads.of_append hbytes
      exact hword.ne_zero (by decide) i hi
  obtain ⟨r,bs,-,-,-,-,hbs,hfetch⟩ := copyinstr_copies_string firstRam hm'.pa_ne_zero 0 3
  obtain ⟨hlen,hreads⟩ := hbs 2 (by decide) ht
  obtain rfl := hreads.eq hbytes hlen
  obtain ⟨len,-,harg,hk,-⟩ := hfetch (fun _ => 0) 1 [7,7,7,7] rfl
  rw [hk 2 (by decide) ht] at harg
  exact ⟨m',p,harg⟩

end Machine

end Xv6.Vm
