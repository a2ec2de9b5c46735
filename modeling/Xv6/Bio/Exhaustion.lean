import Xv6.Bio.Protocol

/-! # Running out of buffers

`bget` panics when a block is not cached and every buffer has a reference. A reference belongs to a process that is
between `bget` and the end of `brelse`, or to the log. Nothing in the kernel bounds the number of such processes by the
number of buffers.
-/
namespace Xv6.BioProtocol
open Library Pool Bcache

section Room
variable {P : Type} [Fintype P] [DecidableEq P] {w : World P}

/-- How many buffers the process has between `bget` and the end of `brelse`. -/
def uses (w : World P) (p : P) : ℕ :=
  (Finset.univ.filter fun b => w.lock b = some p).card + if w.pos p = .idle then 0 else 1

def pinned (w : World P) : Finset Buf := Finset.univ.filter fun b => 0 < w.pins b

theorem sum_holding (w : World P) :
    ∑ b, (holding w b).card = ∑ p, (Finset.univ.filter fun b => w.lock b = some p).card := by
  simp only [holding,Finset.card_filter]
  exact Finset.sum_comm

omit [DecidableEq P] in
theorem sum_moving (w : World P) :
    ∑ b, ((waiting w b).card + (releasing w b).card) = ∑ p, if w.pos p = .idle then 0 else 1 := by
  simp only [waiting,releasing,Finset.card_filter,← Finset.sum_add_distrib]
  rw [Finset.sum_comm]
  refine Finset.sum_congr rfl fun p _ => ?_
  cases hp : w.pos p with
  | idle => simp
  | waiting a => simp
  | releasing a => simp

theorem Inv.nbuf_le (hi : Inv w) (hall : ∀ b, w.cache.refcnt b ≠ 0) : NBUF ≤ ∑ p, uses w p + (pinned w).card := by
  have hone : ∀ b, 1 ≤ (holding w b).card + ((waiting w b).card + (releasing w b).card) + if 0 < w.pins b then 1 else 0 := by
    intro b
    have hrefs := hi.refs b
    have hb := hall b
    split <;> omega
  have hsum : ∑ _b : Buf, 1 ≤ _ := Finset.sum_le_sum fun b (_ : b ∈ Finset.univ) => hone b
  rw [Finset.sum_add_distrib,Finset.sum_add_distrib,sum_holding,sum_moving,← Finset.sum_add_distrib,
    ← Finset.card_filter] at hsum
  simpa [uses,pinned] using hsum

theorem Inv.bget_ok (hi : Inv w) (dev blockno : ℕ) (hfree : ∃ b, w.cache.refcnt b = 0) :
    ∃ b c, w.cache.bget dev blockno = .ok (b,c) := by
  obtain ⟨xs,hxs,-⟩ := hi.order
  obtain ⟨b,hb⟩ := hfree
  unfold Bcache.bget
  cases w.cache.lookup dev blockno with
  | some a => exact ⟨a,_,rfl⟩
  | none =>
    cases hv : w.cache.victim with
    | some a => exact ⟨a,_,rfl⟩
    | none =>
      rw [hxs.victim_eq,List.find?_eq_none] at hv
      exact absurd hb (by simpa using hv b (List.mem_reverse.mpr (hxs.all b)))

/-- With fewer references than buffers `bget` finds one. -/
theorem bget_finds_buffer (h : Reachable w) (hroom : ∑ p, uses w p + (pinned w).card < NBUF) :
    (∃ b, w.cache.refcnt b = 0) ∧ ∀ dev blockno, ∃ b c, w.cache.bget dev blockno = .ok (b,c) := by
  have hfree : ∃ b, w.cache.refcnt b = 0 := by
    by_contra hnone
    have := h.inv.nbuf_le fun b hb => hnone ⟨b,hb⟩
    omega
  exact ⟨hfree,fun dev blockno => h.inv.bget_ok dev blockno hfree⟩

end Room

/-! ## Readers of different files -/

/-- The first `k` processes have each called `bget` for a data block of its own, from block 100 on. -/
structure Readers (w : World (Fin NPROC)) (k : ℕ) : Prop where
  reachable : Reachable w
  idle : ∀ p : Fin NPROC, k ≤ p.val → w.pos p = .idle
  lock : ∀ b, w.lock b = none
  pins : ∀ b, w.pins b = 0
  taken : (Finset.univ.filter fun b => w.cache.refcnt b ≠ 0).card = k
  blocks : ∀ b, w.cache.dev b = 1 → w.cache.blockno b < 100 + k

section Readers
variable {w : World (Fin NPROC)} {k : ℕ}

theorem Readers.free (h : Readers w k) (hk : k < NBUF) : ∃ b, w.cache.refcnt b = 0 := by
  by_contra hnone
  have hall : (Finset.univ.filter fun b => w.cache.refcnt b ≠ 0) = Finset.univ :=
    Finset.filter_true_of_mem fun b _ hb => hnone ⟨b,hb⟩
  have htaken := h.taken
  rw [hall,Finset.card_univ,Fintype.card_fin] at htaken
  omega

theorem Readers.next (h : Readers w k) (hk : k < NBUF) : ∃ w', Readers w' (k + 1) := by
  have hproc : k < NPROC := hk.trans (by decide)
  have hidle : w.pos ⟨k,hproc⟩ = .idle := h.idle ⟨k,hproc⟩ le_rfl
  obtain ⟨b,c,hget⟩ := h.reachable.inv.bget_ok 1 (100 + k) (h.free hk)
  refine ⟨_,h.reachable.step (.bget hidle hget),fun p hp => ?_,h.lock,h.pins,?_,fun a ha => ?_⟩
  · have hne : p ≠ ⟨k,hproc⟩ := by
      rintro rfl
      exact absurd hp (by simp)
    exact (Function.update_of_ne hne _ _).trans (h.idle p (by omega))
  all_goals
    obtain ⟨xs,hxs,-⟩ := h.reachable.inv.order
    rcases hxs.bget_cases hget with ⟨hdev,hblock,-⟩ | ⟨-,hzero,-,rfl⟩
    · exact absurd (h.blocks b hdev) (by omega)
  · have hinsert : (Finset.univ.filter fun a => Function.update w.cache.refcnt b 1 a ≠ 0) =
        insert b (Finset.univ.filter fun a => w.cache.refcnt a ≠ 0) := by
      ext a
      by_cases hab : a = b
      · simp [hab]
      · simp [hab]
    have hnot : b ∉ Finset.univ.filter fun a => w.cache.refcnt a ≠ 0 := by simp [hzero]
    exact (congrArg Finset.card hinsert).trans ((Finset.card_insert_of_notMem hnot).trans (by rw [h.taken]))
  · by_cases hab : a = b
    · simp [hab]
    · simp only [Function.update_of_ne hab] at ha ⊢
      exact (h.blocks a ha).trans (by omega)

theorem readers (k : ℕ) (hk : k ≤ NBUF) : ∃ w, Readers w k := by
  induction k with
  | zero => exact ⟨_,.init,fun _ _ => rfl,fun _ => rfl,fun _ => rfl,by simp [initial,binit],by simp [initial,binit]⟩
  | succ k ih =>
    obtain ⟨w,h⟩ := ih (by omega)
    exact h.next (by omega)

theorem Readers.uses_eq (h : Readers w k) (p : Fin NPROC) : uses w p = if w.pos p = .idle then 0 else 1 := by
  simp [uses,h.lock]

theorem Readers.sum_uses_le (h : Readers w k) : ∑ p, uses w p ≤ k := by
  have hle : ∀ p : Fin NPROC, uses w p ≤ if p.val < k then 1 else 0 := by
    intro p
    rw [h.uses_eq]
    by_cases hp : p.val < k
    · rw [if_pos hp]
      split <;> omega
    · rw [if_pos (h.idle p (by omega))]
      omega
  have hcard : (Finset.univ.filter fun p : Fin NPROC => p.val < k).card ≤ (Finset.range k).card :=
    Finset.card_le_card_of_injOn Fin.val (fun p hp => by simpa using hp) Fin.val_injective.injOn
  rw [Finset.card_range,Finset.card_filter] at hcard
  exact (Finset.sum_le_sum fun p _ => hle p).trans hcard

theorem Readers.pinned_eq (h : Readers w k) : pinned w = ∅ := by
  simp [pinned,h.pins]

end Readers

/-- 29 processes are reading, and one more finds a buffer. -/
theorem bget_finds_buffer_last : ∃ w, Readers w 29 ∧ ∃ b c, w.cache.bget 1 129 = .ok (b,c) := by
  obtain ⟨w,h⟩ := readers 29 (by decide)
  have hroom : ∑ p, uses w p + (pinned w).card < NBUF := by
    have hsum := h.sum_uses_le
    rw [h.pinned_eq,Finset.card_empty]
    simp only [NBUF]
    omega
  have hfound := (bget_finds_buffer h.reachable hroom).2 1 129
  exact ⟨w,h,hfound⟩

/-- 30 processes read blocks of different files, no process has more than one buffer and the log is empty. A process that
reads one more block panics. -/
theorem bget_no_buffers :
    ∃ w : World (Fin NPROC), Reachable w ∧ (∀ p, uses w p ≤ 1) ∧ pinned w = ∅ ∧ w.pos 30 = .idle ∧
      w.cache.lookup 1 130 = none ∧ w.cache.bget 1 130 = .error .bgetNoBuffers := by
  obtain ⟨w,h⟩ := readers NBUF le_rfl
  obtain ⟨xs,hxs,-⟩ := h.reachable.inv.order
  have hall : ∀ b, w.cache.refcnt b ≠ 0 := by
    have hcard := h.taken.trans (Fintype.card_fin NBUF).symm
    have huniv := Finset.eq_univ_of_card _ hcard
    intro b
    have hb : b ∈ Finset.univ.filter fun b => w.cache.refcnt b ≠ 0 := by
      rw [huniv]
      exact Finset.mem_univ b
    exact (Finset.mem_filter.mp hb).2
  have hlookup : w.cache.lookup 1 130 = none := by
    rw [hxs.lookup_eq,List.find?_eq_none]
    intro b _ hb
    obtain ⟨hdev,hblock⟩ := of_decide_eq_true hb
    have := h.blocks b hdev
    simp only [NBUF] at this
    omega
  have hvictim : w.cache.victim = none := by
    rw [hxs.victim_eq,List.find?_eq_none]
    intro b _ hb
    exact hall b (of_decide_eq_true hb)
  refine ⟨w,h.reachable,fun p => ?_,h.pinned_eq,h.idle 30 (by decide),hlookup,?_⟩
  · rw [h.uses_eq]
    split <;> omega
  · rw [Bcache.bget,hlookup,hvictim]

end Xv6.BioProtocol
