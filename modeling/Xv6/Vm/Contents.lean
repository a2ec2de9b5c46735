import Xv6.Vm.Copy

/-! # Address spaces with their contents

A page table in memory with its user pages, as an assertion that knows what is in the pages, and
what is in memory when such an assertion holds.
-/
namespace Xv6.Vm
open Library Library.Assert

namespace Machine
variable {ram : Ram} {m m' : Machine} {h : Heap ℕ Page} {I : BitVec 64 → Prop} {root n : ℕ}
variable {M : ℕ → Option (BitVec 64)} {c : ℕ → Page}

theorem Clear.held (hm : m.Clear ram root) (hl : Leaves ram m root 0 n) :
    held (fun _ => True) ram root (m.get 2 root) (m.contents root) n (m.only (m.pages root n)) := by
  obtain ⟨hapart,hjoin⟩ := only_append (m := m) hl.disjoint
  refine ⟨_,_,hm.table,?_,hapart,hjoin⟩
  have := hl.ownsAt
  simp only [Nat.zero_add] at this
  exact this

theorem byte_of_content {a : ℕ} {e e' : BitVec 64} {root' : ℕ} (he : m.get 2 root (a / PGSIZE) = some e)
    (he' : m'.get 2 root' (a / PGSIZE) = some e') (hmem : m'.mem (PTE2PA e') = m.mem (PTE2PA e)) :
    m'.byte root' a = m.byte root a := by
  rw [byte,byte,phys,phys,he,he',Option.map_some,Option.map_some,Option.map_some,Option.map_some,hmem]

theorem contents_eq {v : ℕ} {e : BitVec 64} (he : m.get 2 root v = some e) : m.contents root v = m.mem (PTE2PA e) := by
  rw [contents,he]
  rfl

theorem Shows.byte {a root' : ℕ} (hs : Shows ram m' h root' M c n) (hn : n ≤ 2 ^ 27) (ha : a / PGSIZE < n)
    {e e' : BitVec 64} (he : m.get 2 root (a / PGSIZE) = some e) (he' : M (a / PGSIZE) = some e')
    (hc : c (a / PGSIZE) = m.contents root (a / PGSIZE)) : m'.byte root' a = m.byte root a := by
  refine byte_of_content he ((hs.get _ (by omega)).trans he') ?_
  rw [hs.content _ _ ha he',hc,contents_eq he]

theorem leafPages_congr (h : ∀ v, v < n → m'.get 2 root v = m.get 2 root v) :
    m'.leafPages root 0 n = m.leafPages root 0 n :=
  List.filterMap_congr fun v hv => by rw [Nat.zero_add,h v (List.mem_range.mp hv)]

/-- A growth that has failed: the mappings and the bytes are those of `m`, and a page that was free
is free or a node of the page table. -/
structure Undone (m m' : Machine) (root n : ℕ) : Prop where
  leaves : ∀ v, v < 2 ^ 27 → m'.get 2 root v = m.get 2 root v
  bytes : ∀ a, a / PGSIZE < n → m'.byte root a = m.byte root a
  pages : ∀ x ∈ m.freelist, x ∈ m'.freelist ∨ x ∈ m'.nodes 2 root

theorem Shows.bytes (hs : Shows ram m' h root (m.get 2 root) c n) (hn : n ≤ 2 ^ 27)
    (hc : ∀ v, v < n → c v = m.contents root v) {a : ℕ} (ha : a / PGSIZE < n) : m'.byte root a = m.byte root a := by
  cases he : m.get 2 root (a / PGSIZE) with
  | none =>
    rw [Machine.byte,Machine.byte,phys,phys,hs.get _ (by omega),he]
    rfl
  | some e => exact hs.byte hn ha he he (hc _ ha)

theorem Shows.undone (hs : Shows ram m' h root (m.get 2 root) c n) (hn : n ≤ 2 ^ 27)
    (hc : ∀ v, v < n → c v = m.contents root v) (hl : Leaves ram m root 0 n)
    (hall : ∀ x ∈ m.freelist, h x ≠ none ∨ x ∈ m'.freelist) : Undone m m' root n where
  leaves := hs.get
  bytes := fun _ => hs.bytes hn hc
  pages := fun x hx => by
    refine (hall x hx).symm.imp id fun hown => ?_
    refine (List.mem_append.mp ((hs.own x).mp hown)).resolve_right fun hleaf => hl.not_free ?_ hx
    rwa [leafPages_congr fun v hv => hs.get v (by omega)] at hleaf

section Space
variable {trampoline : ℕ} {p : Space} {guard : Set ℕ}

theorem HasSpace.le_pow (hm : m.HasSpace ram trampoline p guard) : npages p.sz ≤ 2 ^ 27 := by
  have := hm.shape.room
  rw [trapPage_eq] at this
  omega

theorem HasSpace.agrees (hm : m.HasSpace ram trampoline p guard) : m.Agrees ram (m.only (m.pages p.pagetable (npages p.sz))) :=
  hm.clear.agrees fun _ hx => hm.leaves.not_free hx

theorem HasSpace.run_uvmalloc (hm : m.HasSpace ram trampoline p guard) (hpages : ram.pages < trapPage) {newsz : ℕ}
    {perm : BitVec 64} (hperm : perm.toNat < 1024) (hle : p.sz ≤ newsz) :
    ∃ r m', (uvmalloc p.pagetable p.sz newsz perm).run (exec ram) m = .ok (r,m') ∧
      (r = 0 → Undone m m' p.pagetable (npages p.sz)) := by
  have hmust := uvmalloc_held (X := fun _ => False) (c := m.contents p.pagetable) (fun _ _ => trivial) hpages hperm rfl
    hm.shape.user hle _ (hm.clear.held hm.leaves)
  rcases run_conserves hm.agrees hmust with ⟨r,m',h',hr,hq,hag,-,hall⟩ | ⟨q,-,hq⟩
  · refine ⟨r,m',hr,fun hzero => ?_⟩
    have hback : held (fun _ => True) ram p.pagetable (m.get 2 p.pagetable) (m.contents p.pagetable) (npages p.sz) h' := by
      rcases hq with hq | hq
      · -- the new size is zero, and so was the old one
        obtain ⟨M',hq⟩ := iSup_iff.mp hq
        obtain ⟨⟨hnew,hG,-⟩,hq⟩ := fact_mul_iff.mp hq
        obtain rfl : newsz = 0 := hnew.symm.trans hzero
        have hsz : p.sz = 0 := by omega
        rw [hsz] at hG hq ⊢
        obtain rfl : M' = m.get 2 p.pagetable := funext fun v => hG.same v (.inr (Nat.zero_le v))
        exact hq
      · exact (fact_mul_iff.mp hq).2
    exact (shows_of_held hag hback hm.le_pow).undone hm.le_pow (fun _ _ => rfl) hm.leaves fun x hx => hall x (.inr hx)
  · exact hq.elim

end Space

end Machine

end Xv6.Vm
