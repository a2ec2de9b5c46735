import Xv6.Bio.Cache
import Xv6.Library.Pool

/-! # The buffer cache under any interleaving

Any number of processes call `bget`, `bread`, `brelse`, `bpin` and `bunpin`. A section
under `bcache.lock` is one step, and so are `acquiresleep` and `releasesleep`: between
`bget`'s section and its `acquiresleep`, and between `brelse`'s `releasesleep` and its
section, other processes run.
-/
namespace Xv6.BioProtocol
open Library Pool Bcache
open Function (update update_of_ne update_self)

inductive Where
  | idle
  /-- `bget` has counted the reference; `acquiresleep` has not returned -/
  | waiting (b : Buf)
  /-- `brelse` has released the sleep-lock; the reference is still counted -/
  | releasing (b : Buf)
  deriving DecidableEq

structure World (P : Type) where
  cache : Bcache
  lock : Buf → Option P
  pos : P → Where
  pins : Buf → ℕ
  clock : ℕ
  /-- when `brelse` last dropped the count to zero; 0 if it never did -/
  released : Buf → ℕ

inductive Act (P : Type)
  | bget (p : P) (dev blockno : ℕ)
  | acquiresleep (p : P)
  | bread (p : P) (b : Buf)
  | releasesleep (p : P) (b : Buf)
  | bput (p : P)
  | bpin (p : P) (b : Buf)
  | bunpin (p : P) (b : Buf)

section Machine
variable {P : Type} [DecidableEq P]

inductive Step : World P → Act P → World P → Prop
  | bget {w : World P} {p : P} {dev blockno : ℕ} {b : Buf} {c : Bcache} : w.pos p = .idle →
      w.cache.bget dev blockno = .ok (b,c) →
      Step w (.bget p dev blockno) { w with cache := c, pos := update w.pos p (.waiting b) }
  | acquiresleep {w : World P} {p : P} {b : Buf} : w.pos p = .waiting b → w.lock b = none →
      Step w (.acquiresleep p) { w with
        lock := update w.lock b (some p)
        pos := update w.pos p .idle }
  | bread {w : World P} {p : P} {b : Buf} : w.pos p = .idle → w.lock b = some p →
      Step w (.bread p b) { w with cache := w.cache.fill b }
  | releasesleep {w : World P} {p : P} {b : Buf} : w.pos p = .idle → w.lock b = some p →
      Step w (.releasesleep p b) { w with
        lock := update w.lock b none
        pos := update w.pos p (.releasing b) }
  | bput {w : World P} {p : P} {b : Buf} : w.pos p = .releasing b →
      Step w (.bput p) { w with
        cache := w.cache.bput b
        pos := update w.pos p .idle
        clock := w.clock + 1
        released := if w.cache.refcnt b = 1 then update w.released b (w.clock + 1)
          else w.released }
  | bpin {w : World P} {p : P} {b : Buf} : w.pos p = .idle →
      Step w (.bpin p b) { w with
        cache := w.cache.bpin b
        pins := update w.pins b (w.pins b + 1) }
  -- a pin is undone once
  | bunpin {w : World P} {p : P} {b : Buf} : w.pos p = .idle → 0 < w.pins b →
      Step w (.bunpin p b) { w with
        cache := w.cache.bunpin b
        pins := update w.pins b (w.pins b - 1) }

def initial (P : Type) : World P where
  cache := binit
  lock := fun _ => none
  pos := fun _ => .idle
  pins := fun _ => 0
  clock := 0
  released := fun _ => 0

inductive Reachable : World P → Prop
  | init : Reachable (initial P)
  | step {w w' : World P} {a : Act P} : Reachable w → Step w a w' → Reachable w'

end Machine

/-! ## The invariant -/

section Invariant
variable {P : Type} [Fintype P] [DecidableEq P]

/-- The processes that hold the sleep-lock of `b`. -/
def holding (w : World P) (b : Buf) : Finset P := {p | w.lock b = some p}

/-- The processes `bget` has counted and that wait for the sleep-lock of `b`. -/
def waiting (w : World P) (b : Buf) : Finset P := {p | w.pos p = .waiting b}

/-- The processes in `brelse` of `b` that have released its sleep-lock. -/
def releasing (w : World P) (b : Buf) : Finset P := {p | w.pos p = .releasing b}

structure Inv (w : World P) : Prop where
  order : ∃ xs, w.cache.Order xs ∧ xs.Pairwise (fun a b => w.released b ≤ w.released a)
  clock : ∀ b, w.released b ≤ w.clock
  unique : ∀ a b, w.cache.dev a = w.cache.dev b → w.cache.blockno a = w.cache.blockno b →
    1 ≤ w.cache.dev a → a = b
  refs : ∀ b, w.cache.refcnt b =
    (holding w b).card + (waiting w b).card + (releasing w b).card + w.pins b

def countAt (x y : Where) : ℕ := if y = x then 1 else 0

omit [DecidableEq P] in
theorem card_at (pos : P → Where) (x : Where) :
    (Finset.univ.filter (fun p => pos p = x)).card = total (countAt x) pos := by
  rw [Finset.card_filter]
  rfl

theorem card_update (pos : P → Where) (p : P) (y z : Where) :
    (Finset.univ.filter (fun q => update pos p y q = z)).card + countAt z (pos p) =
      (Finset.univ.filter (fun q => pos q = z)).card + countAt z y := by
  rw [card_at,card_at]
  exact total_update (countAt z) pos p y

theorem card_holder (l : Option P) :
    (Finset.univ.filter (fun p => l = some p)).card = l.elim 0 (fun _ => 1) := by
  cases l with
  | none => simp
  | some p => simp [Finset.filter_eq]

variable {w w' : World P} {p : P} {b : Buf}

theorem Inv.bget (hi : Inv w) (hp : w.pos p = .idle) {dev blockno : ℕ} {c : Bcache}
    (hb : w.cache.bget dev blockno = .ok (b,c)) :
    Inv { w with cache := c, pos := update w.pos p (.waiting b) } := by
  obtain ⟨xs,hxs,hsorted⟩ := hi.order
  have hw := fun a => card_update w.pos p (.waiting b) (.waiting a)
  have hr := fun a => card_update w.pos p (.waiting b) (.releasing a)
  simp only [hp,countAt,reduceCtorEq,if_false,Nat.add_zero,Where.waiting.injEq] at hw hr
  -- the buffer `bget` returns gains one reference, and one process that waits
  have hrefs : ∀ f : Buf → ℕ, (∀ a, a ≠ b → f a = w.cache.refcnt a) → f b = w.cache.refcnt b + 1 →
      ∀ a, f a = (holding w a).card +
        (Finset.univ.filter (fun q => update w.pos p (.waiting b) q = .waiting a)).card +
        (Finset.univ.filter (fun q => update w.pos p (.waiting b) q = .releasing a)).card +
        w.pins a := by
    intro f hother hself a
    have hold := hi.refs a
    simp only [waiting,releasing] at hold
    rw [hw a,hr a]
    by_cases ha : a = b
    · subst ha
      rw [hself,if_pos rfl]
      omega
    · rw [hother a ha,if_neg (Ne.symm ha)]
      omega
  rcases hxs.bget_cases hb with ⟨-,-,rfl⟩ | ⟨hmiss,hzero,-,rfl⟩
  · exact ⟨⟨xs,⟨hxs.ring,hxs.all⟩,hsorted⟩,hi.clock,hi.unique,
      hrefs _ (fun a ha => update_of_ne ha _ _) (update_self ..)⟩
  · refine ⟨⟨xs,⟨hxs.ring,hxs.all⟩,hsorted⟩,hi.clock,?_,
      hrefs _ (fun a ha => update_of_ne ha _ _) (by rw [hzero]; exact update_self ..)⟩
    intro a a' hd hn h1
    change update w.cache.dev b dev a = update w.cache.dev b dev a' at hd
    change update w.cache.blockno b blockno a = update w.cache.blockno b blockno a' at hn
    change 1 ≤ update w.cache.dev b dev a at h1
    by_cases ha : a = b <;> by_cases ha' : a' = b
    · rw [ha,ha']
    · subst ha
      rw [update_self,update_of_ne ha'] at hd hn
      exact absurd hn.symm (hmiss a' hd.symm)
    · subst ha'
      rw [update_self,update_of_ne ha] at hd hn
      exact absurd hn (hmiss a hd)
    · rw [update_of_ne ha,update_of_ne ha'] at hd hn
      rw [update_of_ne ha] at h1
      exact hi.unique a a' hd hn h1

theorem Inv.acquiresleep (hi : Inv w) (hp : w.pos p = .waiting b) (hl : w.lock b = none) :
    Inv { w with lock := update w.lock b (some p), pos := update w.pos p .idle } := by
  refine ⟨hi.order,hi.clock,hi.unique,?_⟩
  intro a
  have hw := card_update w.pos p .idle (.waiting a)
  have hr := card_update w.pos p .idle (.releasing a)
  simp only [hp,countAt,reduceCtorEq,if_false,Nat.add_zero,Where.waiting.injEq] at hw hr
  have hold := hi.refs a
  simp only [holding,waiting,releasing,card_holder] at hold ⊢
  rw [hold,hr]
  by_cases ha : a = b
  · subst ha
    rw [if_pos rfl] at hw
    simp only [hl,update_self,Option.elim]
    omega
  · rw [if_neg (Ne.symm ha)] at hw
    rw [update_of_ne ha]
    omega

theorem Inv.releasesleep (hi : Inv w) (hp : w.pos p = .idle) (hl : w.lock b = some p) :
    Inv { w with lock := update w.lock b none, pos := update w.pos p (.releasing b) } := by
  refine ⟨hi.order,hi.clock,hi.unique,?_⟩
  intro a
  have hw := card_update w.pos p (.releasing b) (.waiting a)
  have hr := card_update w.pos p (.releasing b) (.releasing a)
  simp only [hp,countAt,reduceCtorEq,if_false,Nat.add_zero,Where.releasing.injEq] at hw hr
  have hold := hi.refs a
  simp only [holding,waiting,releasing,card_holder] at hold ⊢
  rw [hold,hw,hr]
  by_cases ha : a = b
  · subst ha
    simp only [hl,update_self,Option.elim,if_true]
    omega
  · rw [update_of_ne ha,if_neg (Ne.symm ha)]
    omega

omit [Fintype P] [DecidableEq P] in
theorem sorted_moveFront {f : Buf → ℕ} {t : ℕ} {ys zs : List Buf}
    (hsorted : (ys ++ b :: zs).Pairwise (fun a b => f b ≤ f a)) (hnd : (ys ++ b :: zs).Nodup)
    (hle : ∀ a, f a ≤ t) :
    (b :: (ys ++ zs)).Pairwise (fun a c => update f b (t + 1) c ≤ update f b (t + 1) a) := by
  rw [List.nodup_middle,List.nodup_cons] at hnd
  have hne : ∀ a ∈ ys ++ zs, a ≠ b := fun a ha => ne_of_mem_of_not_mem ha hnd.1
  have hsub : (ys ++ zs).Sublist (ys ++ b :: zs) :=
    (List.Sublist.refl ys).append (List.sublist_cons_self b zs)
  rw [List.pairwise_cons]
  refine ⟨fun a ha => ?_,(hsorted.sublist hsub).imp_of_mem fun {a c} ha hc h => ?_⟩
  · rw [update_self,update_of_ne (hne a ha)]
    exact Nat.le_succ_of_le (hle a)
  · rw [update_of_ne (hne a ha),update_of_ne (hne c hc)]
    exact h

theorem Inv.bput (hi : Inv w) (hp : w.pos p = .releasing b) :
    Inv { w with
      cache := w.cache.bput b
      pos := update w.pos p .idle
      clock := w.clock + 1
      released := if w.cache.refcnt b = 1 then update w.released b (w.clock + 1)
        else w.released } := by
  obtain ⟨xs,hxs,hsorted⟩ := hi.order
  have hin : p ∈ releasing w b := by simp [releasing,hp]
  have hpos : 1 ≤ w.cache.refcnt b := by
    have := Finset.card_pos.mpr ⟨p,hin⟩
    rw [hi.refs b]
    omega
  have hrefs : ∀ a, update w.cache.refcnt b (w.cache.refcnt b - 1) a = (holding w a).card +
      (Finset.univ.filter (fun q => update w.pos p .idle q = .waiting a)).card +
      (Finset.univ.filter (fun q => update w.pos p .idle q = .releasing a)).card + w.pins a := by
    intro a
    have hw := card_update w.pos p .idle (.waiting a)
    have hr := card_update w.pos p .idle (.releasing a)
    simp only [hp,countAt,reduceCtorEq,if_false,Nat.add_zero,Where.releasing.injEq] at hw hr
    have hold := hi.refs a
    simp only [waiting,releasing] at hold
    rw [hw]
    by_cases ha : a = b
    · subst ha
      rw [if_pos rfl] at hr
      rw [update_self]
      omega
    · rw [if_neg (Ne.symm ha)] at hr
      rw [update_of_ne ha]
      omega
  simp only [Bcache.bput,update_self]
  by_cases hone : w.cache.refcnt b = 1
  · rw [if_pos hone,if_pos (by omega)]
    obtain ⟨ys,zs,rfl,horder⟩ := hxs.moveFront b
    refine ⟨⟨b :: (ys ++ zs),⟨horder.ring,horder.all⟩,?_⟩,?_,hi.unique,hrefs⟩
    · exact sorted_moveFront hsorted hxs.nodup hi.clock
    · intro a
      change update w.released b (w.clock + 1) a ≤ w.clock + 1
      by_cases ha : a = b
      · subst ha
        rw [update_self]
      · rw [update_of_ne ha]
        exact Nat.le_succ_of_le (hi.clock a)
  · rw [if_neg hone,if_neg (by omega)]
    exact ⟨⟨xs,⟨hxs.ring,hxs.all⟩,hsorted⟩,fun a => Nat.le_succ_of_le (hi.clock a),hi.unique,hrefs⟩

theorem Inv.pin (hi : Inv w) {m n : ℕ} (h : m + w.pins b = w.cache.refcnt b + n) :
    Inv { w with
      cache := { w.cache with refcnt := update w.cache.refcnt b m }
      pins := update w.pins b n } := by
  obtain ⟨xs,hxs,hsorted⟩ := hi.order
  refine ⟨⟨xs,⟨hxs.ring,hxs.all⟩,hsorted⟩,hi.clock,hi.unique,?_⟩
  intro a
  have hold := hi.refs a
  simp only [holding,waiting,releasing] at hold ⊢
  by_cases ha : a = b
  · subst ha
    rw [update_self,update_self]
    omega
  · rw [update_of_ne ha,update_of_ne ha]
    exact hold

theorem Step.inv {a : Act P} (h : Step w a w') (hi : Inv w) : Inv w' := by
  cases h with
  | bget hp hb => exact hi.bget hp hb
  | acquiresleep hp hl => exact hi.acquiresleep hp hl
  | bread _ _ => exact ⟨hi.order.imp fun xs h => ⟨⟨h.1.ring,h.1.all⟩,h.2⟩,hi.clock,hi.unique,hi.refs⟩
  | releasesleep hp hl => exact hi.releasesleep hp hl
  | bput hp => exact hi.bput hp
  | bpin _ => exact hi.pin (by omega)
  | @bunpin p b _ hpins =>
    have := hi.refs b
    exact hi.pin (by omega)

theorem initial_inv : Inv (initial P) where
  order := ⟨_,binit_order,List.pairwise_iff_getElem.mpr fun _ _ _ _ _ => Nat.le_refl 0⟩
  clock := fun _ => Nat.le_refl 0
  unique := fun a b _ _ h => absurd h (by simp [initial,binit])
  refs := fun b => by simp [initial,binit,holding,waiting,releasing]

theorem Reachable.inv (h : Reachable w) : Inv w := by
  induction h with
  | init => exact initial_inv
  | step _ h ih => exact h.inv ih

theorem Step.keeps_block {a : Act P} (h : Step w a w') (hi : Inv w) (hb : 0 < w.cache.refcnt b) :
    w'.cache.dev b = w.cache.dev b ∧ w'.cache.blockno b = w.cache.blockno b := by
  obtain ⟨xs,hxs,-⟩ := hi.order
  cases h with
  | @bget _ _ _ v _ _ hget =>
    rcases hxs.bget_cases hget with ⟨-,-,rfl⟩ | ⟨-,hzero,-,rfl⟩
    · exact ⟨rfl,rfl⟩
    · have hne : b ≠ v := by
        rintro rfl
        exact hb.ne' hzero
      exact ⟨update_of_ne hne _ _,update_of_ne hne _ _⟩
  | bput _ =>
    simp only [Bcache.bput]
    split <;> exact ⟨rfl,rfl⟩
  | acquiresleep | bread | releasesleep | bpin | bunpin => exact ⟨rfl,rfl⟩

theorem Inv.bget_oldest (hi : Inv w) {dev blockno : ℕ} {c : Bcache}
    (hb : w.cache.bget dev blockno = .ok (b,c)) (hmiss : w.cache.lookup dev blockno = none) :
    w.cache.refcnt b = 0 ∧ ∀ a, w.cache.refcnt a = 0 → w.released b ≤ w.released a := by
  obtain ⟨xs,hxs,hsorted⟩ := hi.order
  rcases hxs.bget_cases hb with ⟨hd,hn,-⟩ | ⟨-,hzero,⟨ys,zs,rfl,hzs⟩,-⟩
  · rw [hxs.lookup_eq,List.find?_eq_none] at hmiss
    exact absurd (hmiss b (hxs.all b)) (by simp [hd,hn])
  · refine ⟨hzero,fun a ha => ?_⟩
    have hmem := hxs.all a
    rw [List.mem_append,List.mem_cons] at hmem
    rcases hmem with hmem | rfl | hmem
    · exact (List.pairwise_append.mp hsorted).2.2 a hmem b List.mem_cons_self
    · exact Nat.le_refl _
    · exact absurd ha (hzs a hmem)

/-- The buffer cache in every interleaving: one ring of all buffers ordered by their
last release, one buffer for each block of a real device, exact reference counts, and
recycling of the least recently released unused buffer only. -/
theorem cache_representation (h : Reachable w) :
    (∃ xs : List Buf, w.cache.links.Ring none (xs.map some) ∧ xs.Nodup ∧ (∀ b, b ∈ xs) ∧
      xs.Pairwise (fun a b => w.released b ≤ w.released a)) ∧
    (∀ a b, 1 ≤ w.cache.dev a → w.cache.dev a = w.cache.dev b →
      w.cache.blockno a = w.cache.blockno b → a = b) ∧
    (∀ b, w.cache.refcnt b =
      (holding w b).card + (waiting w b).card + (releasing w b).card + w.pins b) ∧
    (∀ a w', Step w a w' → ∀ b, 0 < w.cache.refcnt b →
      w'.cache.dev b = w.cache.dev b ∧ w'.cache.blockno b = w.cache.blockno b) ∧
    ∀ p dev blockno w' b, Step w (.bget p dev blockno) w' → w'.pos p = .waiting b →
      w.cache.lookup dev blockno = none →
      w.cache.refcnt b = 0 ∧ ∀ a, w.cache.refcnt a = 0 → w.released b ≤ w.released a := by
  have hi := h.inv
  refine ⟨?_,fun a b h1 hd hn => hi.unique a b hd hn h1,hi.refs,fun a w' hs b hb => hs.keeps_block hi hb,?_⟩
  · obtain ⟨xs,hxs,hsorted⟩ := hi.order
    exact ⟨xs,hxs.ring,hxs.nodup,hxs.all,hsorted⟩
  · intro p dev blockno w' b hs hpos hmiss
    cases hs with
    | bget hp hb =>
      have hwait := (update_self ..).symm.trans hpos
      cases hwait
      exact hi.bget_oldest hb hmiss

end Invariant

section Runs

theorem binit_bget : ∃ b c, binit.bget 1 5 = .ok (b,c) := by
  rw [Bcache.bget,binit_order.lookup_eq,List.find?_eq_none.mpr (by simp [binit]),binit_order.victim_eq]
  exact ⟨_,_,rfl⟩

/-- One process has read block 5 and holds its buffer. -/
theorem cache_representation_held : ∃ w : World (Fin 1), Reachable w ∧
    ∃ b, w.lock b = some 0 ∧ w.pos 0 = .idle ∧ w.cache.refcnt b =
      (holding w b).card + (waiting w b).card + (releasing w b).card + w.pins b := by
  obtain ⟨b,c,hb⟩ := binit_bget
  obtain ⟨w,h,hlock,hpos⟩ : ∃ w : World (Fin 1), Reachable w ∧ w.lock b = some 0 ∧ w.pos 0 = .idle :=
    ⟨_,.step (.step (a := .bget 0 1 5) .init (.bget rfl hb)) (.acquiresleep (p := 0) (b := b) rfl rfl),
      update_self ..,rfl⟩
  exact ⟨w,h,b,hlock,hpos,(cache_representation h).2.2.1 b⟩

/-- A process in `brelse` that has released the sleep-lock still counts, though it
neither holds the lock nor waits for it. -/
theorem refcnt_in_brelse : ∃ w : World (Fin 1), Reachable w ∧
    ∃ b, w.cache.refcnt b ≠ (holding w b).card + (waiting w b).card + w.pins b := by
  obtain ⟨b,c,hb⟩ := binit_bget
  obtain ⟨w,h,hpos⟩ : ∃ w : World (Fin 1), Reachable w ∧ w.pos 0 = .releasing b :=
    ⟨_,.step (.step (.step (a := .bget 0 1 5) .init (.bget rfl hb))
      (.acquiresleep (p := 0) (b := b) rfl rfl))
      (.releasesleep (p := 0) (b := b) rfl (update_self ..)),rfl⟩
  refine ⟨w,h,b,?_⟩
  have hrefs := h.inv.refs b
  have hin : 0 < (releasing w b).card := Finset.card_pos.mpr ⟨0,by simp [releasing,hpos]⟩
  omega

end Runs

end Xv6.BioProtocol
