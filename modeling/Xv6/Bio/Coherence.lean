import Xv6.Bio.Protocol

/-! # What the buffers contain

The buffer cache with its data, next to a plain store of blocks in which a change takes effect at
once. Whoever changes a buffer writes it or pins it before releasing it, and a pin is undone when
the buffer has been written; then a buffer that is recycled never takes a change with it.
-/
namespace Xv6.BioCoherence
open BioProtocol
open Function (update update_of_ne update_self)

structure Data (P D : Type) where
  w : World P
  data : Buf → D
  disk : ℕ × ℕ → D
  store : ℕ × ℕ → D

section Machine
variable {P D : Type} [DecidableEq P]

namespace Data

def block (v : Data P D) (b : Buf) : ℕ × ℕ := (v.w.cache.dev b,v.w.cache.blockno b)

def Written (v : Data P D) (b : Buf) : Prop := v.data b = v.disk (v.block b)

/-- The end of `bread`: the block is read from the disk if the buffer was recycled for it. -/
def read (v : Data P D) (b : Buf) : Data P D := { v with
  w := { v.w with cache := v.w.cache.fill b }
  data := if v.w.cache.valid b then v.data else update v.data b (v.disk (v.block b)) }

def Allowed (v : Data P D) : Act P → Prop
  | .bget _ dev _ => 1 ≤ dev
  | .releasesleep _ b => v.w.cache.valid b = true → v.Written b ∨ 0 < v.w.pins b
  -- `log_write` pins a buffer that its caller holds
  | .bpin p b => v.w.lock b = some p
  | .bunpin _ b => v.Written b
  | .bread _ _ => False
  | _ => True

end Data

inductive Step : Data P D → Data P D → Prop
  | cache {v : Data P D} {a : Act P} {w : World P} (ha : v.Allowed a) (h : BioProtocol.Step v.w a w) : Step v { v with w := w }
  | bread {v : Data P D} {p : P} {b : Buf} (hp : v.w.pos p = .idle) (hl : v.w.lock b = some p) :
      Step v (v.read b)
  /-- the caller assigns to `b->data` -/
  | change {v : Data P D} {p : P} {b : Buf} (d : D) (hl : v.w.lock b = some p) (hv : v.w.cache.valid b = true) :
      Step v { v with data := update v.data b d, store := update v.store (v.block b) d }
  | bwrite {v : Data P D} {p : P} {b : Buf} (hl : v.w.lock b = some p) (hv : v.w.cache.valid b = true) :
      Step v { v with disk := update v.disk (v.block b) (v.data b) }

inductive Reaches : Data P D → Prop
  | init (data : Buf → D) (disk : ℕ × ℕ → D) : Reaches ⟨initial P,data,disk,disk⟩
  | step {v v' : Data P D} : Reaches v → Step v v' → Reaches v'

end Machine

section Invariant
variable {P D : Type} [Fintype P] [DecidableEq P] {v v' : Data P D}

structure Coherent (v : Data P D) : Prop where
  cache : BioProtocol.Inv v.w
  dev : ∀ b, v.w.cache.valid b = true ∨ 0 < v.w.cache.refcnt b → 1 ≤ v.w.cache.dev b
  data : ∀ b, v.w.cache.valid b = true → v.data b = v.store (v.block b)
  /-- a change that is not on the disk is in a buffer that stays -/
  kept : ∀ k, v.disk k ≠ v.store k → ∃ b, v.block b = k ∧ v.w.cache.valid b = true ∧ (v.w.lock b ≠ none ∨ 0 < v.w.pins b)

theorem Coherent.eq_of_block (h : Coherent v) {a b : Buf} (hab : v.block a = v.block b) (ha : v.w.cache.valid a = true) : a = b :=
  h.cache.unique a b (congrArg Prod.fst hab) (congrArg Prod.snd hab) (h.dev a (.inl ha))

theorem refcnt_pos (h : BioProtocol.Inv v.w) {b : Buf} (hb : v.w.lock b ≠ none ∨ 0 < v.w.pins b) : 0 < v.w.cache.refcnt b := by
  rw [h.refs b]
  rcases hb with hl | hpin
  · obtain ⟨p,hp⟩ := Option.ne_none_iff_exists'.mp hl
    have : 0 < (holding v.w b).card := Finset.card_pos.mpr ⟨p,by simpa [holding] using hp⟩
    omega
  · omega

theorem Coherent.frame (h : Coherent v) {w : World P} (hw : BioProtocol.Inv w)
    (hdev : w.cache.dev = v.w.cache.dev) (hno : w.cache.blockno = v.w.cache.blockno) (hvalid : w.cache.valid = v.w.cache.valid)
    (hcount : ∀ b, 0 < w.cache.refcnt b → 0 < v.w.cache.refcnt b ∨ 1 ≤ v.w.cache.dev b)
    (hkept : ∀ b, v.w.cache.valid b = true → v.w.lock b ≠ none ∨ 0 < v.w.pins b → ¬v.Written b → w.lock b ≠ none ∨ 0 < w.pins b) :
    Coherent { v with w := w } := by
  have hblock : ∀ b, Data.block { v with w := w } b = v.block b := fun b => by simp only [Data.block,hdev,hno]
  refine ⟨hw,fun b hb => ?_,fun b hb => ?_,fun k hk => ?_⟩
  · rw [hdev]
    rcases hb with hb | hb
    · exact h.dev b (.inl (hvalid ▸ hb))
    · exact (hcount b hb).elim (fun hpos => h.dev b (.inr hpos)) id
  · rw [hblock]
    exact h.data b (hvalid ▸ hb)
  · obtain ⟨b,rfl,hb,huse⟩ := h.kept k hk
    refine ⟨b,hblock b,hvalid ▸ hb,hkept b hb huse fun hwr => hk ?_⟩
    exact hwr.symm.trans (h.data b hb)

theorem Coherent.bget (h : Coherent v) {dev blockno : ℕ} {b : Buf} {c : Bcache} {w : World P} (hdev : 1 ≤ dev)
    (hget : v.w.cache.bget dev blockno = .ok (b,c)) (hw : BioProtocol.Inv w) (hc : w.cache = c) (hl : w.lock = v.w.lock)
    (hp : w.pins = v.w.pins) : Coherent { v with w := w } := by
  obtain ⟨xs,hxs,-⟩ := h.cache.order
  rcases hxs.bget_cases hget with ⟨hb,-,rfl⟩ | ⟨-,hzero,-,rfl⟩
  · refine h.frame hw (by rw [hc]) (by rw [hc]) (by rw [hc]) (fun a ha => ?_) fun a _ huse _ => by rwa [hl,hp]
    rcases eq_or_ne a b with rfl | hab
    · exact .inr (hb ▸ hdev)
    · exact .inl (by simpa [hc,hab] using ha)
  -- the victim has no references, so its block is on the disk, and no buffer was for the new block
  have hblock : ∀ a, a ≠ b → Data.block { v with w := w } a = v.block a := fun a ha => by
    simp only [Data.block,hc,update_of_ne ha]
  have hvalid : ∀ a, w.cache.valid a = true → a ≠ b ∧ v.w.cache.valid a = true := fun a ha => by
    rw [hc] at ha
    rcases eq_or_ne a b with rfl | hab
    · simp at ha
    · exact ⟨hab,by simpa [hab] using ha⟩
  refine ⟨hw,fun a ha => ?_,fun a ha => ?_,fun k hk => ?_⟩
  · rcases eq_or_ne a b with rfl | hab
    · simpa [hc] using hdev
    · simp only [hc,update_of_ne hab] at ha ⊢
      exact h.dev a ha
  · obtain ⟨hab,hva⟩ := hvalid a ha
    rw [hblock a hab]
    exact h.data a hva
  · obtain ⟨a,rfl,hva,huse⟩ := h.kept k hk
    have hab : a ≠ b := by
      rintro rfl
      exact absurd hzero (refcnt_pos h.cache huse).ne'
    refine ⟨a,hblock a hab,?_,?_⟩
    · simp only [hc,update_of_ne hab]
      exact hva
    · rwa [hl,hp]

theorem Coherent.bread (h : Coherent v) {b : Buf} (hl : v.w.lock b ≠ none)
    (hw : BioProtocol.Inv { v.w with cache := v.w.cache.fill b }) :
    Coherent (v.read b) := by
  have hvalid : ∀ a, (v.w.cache.fill b).valid a = true → a = b ∨ v.w.cache.valid a = true := fun a ha => by
    rcases eq_or_ne a b with rfl | hab
    · exact .inl rfl
    · exact .inr (by simpa [Bcache.fill,hab] using ha)
  refine ⟨hw,fun a ha => ?_,fun a ha => ?_,fun k hk => ?_⟩
  · rcases ha with ha | hpos
    · rcases hvalid a ha with rfl | hva
      · exact h.dev a (.inr (refcnt_pos h.cache (.inl hl)))
      · exact h.dev a (.inl hva)
    · exact h.dev a (.inr hpos)
  · show (if v.w.cache.valid b then v.data else update v.data b (v.disk (v.block b))) a = v.store (v.block a)
    cases hb : v.w.cache.valid b with
    | true =>
      rw [if_pos rfl]
      rcases hvalid a ha with rfl | hva
      · exact h.data a hb
      · exact h.data a hva
    | false =>
      rw [if_neg Bool.false_ne_true]
      rcases eq_or_ne a b with rfl | hab
      · rw [update_self]
        -- a change to this block would be in another buffer for it
        by_contra hne
        obtain ⟨a',ha',hva',-⟩ := h.kept _ hne
        rw [h.eq_of_block ha' hva',hb] at hva'
        cases hva'
      · rw [update_of_ne hab]
        exact h.data a ((hvalid a ha).resolve_left hab)
  · obtain ⟨a,rfl,hva,huse⟩ := h.kept k hk
    refine ⟨a,rfl,?_,huse⟩
    rcases eq_or_ne a b with rfl | hab
    · simp [Data.read,Bcache.fill]
    · simpa [Data.read,Bcache.fill,hab] using hva

theorem Coherent.change (h : Coherent v) {b : Buf} (d : D) (hl : v.w.lock b ≠ none) (hv : v.w.cache.valid b = true) :
    Coherent { v with data := update v.data b d, store := update v.store (v.block b) d } := by
  refine ⟨h.cache,h.dev,fun a ha => ?_,fun k hk => ?_⟩
  · show update v.data b d a = update v.store (v.block b) d (v.block a)
    rcases eq_or_ne a b with rfl | hab
    · rw [update_self,update_self]
    · rw [update_of_ne hab,update_of_ne fun heq => hab (h.eq_of_block heq ha)]
      exact h.data a ha
  · rcases eq_or_ne k (v.block b) with rfl | hkb
    · exact ⟨b,rfl,hv,.inl hl⟩
    · refine h.kept k fun heq => hk ?_
      show v.disk k = update v.store (v.block b) d k
      rw [update_of_ne hkb]
      exact heq

theorem Coherent.bwrite (h : Coherent v) {b : Buf} (hv : v.w.cache.valid b = true) :
    Coherent { v with disk := update v.disk (v.block b) (v.data b) } := by
  refine ⟨h.cache,h.dev,h.data,fun k hk => h.kept k fun heq => hk ?_⟩
  show update v.disk (v.block b) (v.data b) k = v.store k
  rcases eq_or_ne k (v.block b) with rfl | hkb
  · rw [update_self]
    exact h.data b hv
  · rw [update_of_ne hkb]
    exact heq

theorem bput_keeps (c : Bcache) (b : Buf) : (c.bput b).dev = c.dev ∧ (c.bput b).blockno = c.blockno ∧
    (c.bput b).valid = c.valid ∧ ∀ a, 0 < (c.bput b).refcnt a → 0 < c.refcnt a := by
  have hcount : ∀ a, 0 < update c.refcnt b (c.refcnt b - 1) a → 0 < c.refcnt a := fun a ha => by
    rcases eq_or_ne a b with rfl | hab
    · rw [update_self] at ha
      omega
    · rwa [update_of_ne hab] at ha
  unfold Bcache.bput
  dsimp only
  split <;> exact ⟨rfl,rfl,rfl,hcount⟩

theorem Coherent.step (h : Coherent v) (hs : Step v v') : Coherent v' := by
  cases hs with
  | @cache a w ha hstep =>
    have hw := hstep.inv h.cache
    cases hstep with
    | bget hp hget => exact h.bget ha hget hw rfl rfl rfl
    | @acquiresleep p c hp hl =>
      refine h.frame hw rfl rfl rfl (fun _ hb => .inl hb) fun b _ huse _ => huse.imp_left fun hb => ?_
      rcases eq_or_ne b c with rfl | hbc
      · exact absurd hl hb
      · exact (update_of_ne hbc ..).trans_ne hb
    | bread => exact ha.elim
    | @releasesleep p c hp hl =>
      refine h.frame hw rfl rfl rfl (fun _ hb => .inl hb) fun b hb huse hwr => ?_
      rcases eq_or_ne b c with rfl | hbc
      · exact .inr ((ha hb).resolve_left hwr)
      · exact huse.imp_left fun hb => (update_of_ne hbc ..).trans_ne hb
    | @bput p c hp =>
      obtain ⟨hdev,hno,hvalid,hcount⟩ := bput_keeps v.w.cache c
      exact h.frame hw hdev hno hvalid (fun b hb => .inl (hcount b hb)) fun _ _ huse _ => huse
    | @bpin p c hp =>
      have hlock : v.w.lock c = some p := ha
      refine h.frame hw rfl rfl rfl (fun b hb => .inl ?_) fun b _ huse _ => huse.imp_right fun hpin => ?_
      · rcases eq_or_ne b c with rfl | hbc
        · exact refcnt_pos h.cache (.inl (by simp [hlock]))
        · simpa [Bcache.bpin,hbc] using hb
      · rcases eq_or_ne b c with rfl | hbc
        · simp
        · simpa [hbc] using hpin
    | @bunpin p c hp hpin =>
      refine h.frame hw rfl rfl rfl (fun b hb => .inl ?_) fun b _ huse hwr => ?_
      · rcases eq_or_ne b c with rfl | hbc
        · simp only [Bcache.bunpin,update_self] at hb
          omega
        · simpa [Bcache.bunpin,hbc] using hb
      · have hbc : b ≠ c := by
          rintro rfl
          exact hwr ha
        exact huse.imp_right fun hpin => by simpa [hbc] using hpin
  | @bread p b hp hl =>
    exact h.bread (by simp [hl]) ((BioProtocol.Step.bread hp hl).inv h.cache)
  | change d hl hv => exact h.change d (by simp [hl]) hv
  | bwrite hl hv => exact h.bwrite hv

theorem Reaches.coherent (h : Reaches v) : Coherent v := by
  induction h with
  | init data disk =>
    exact ⟨initial_inv,fun _ hb => (by simp [initial,Bcache.binit] at hb),fun _ hb => (by cases hb),fun _ hk => absurd rfl hk⟩
  | step _ hs ih => exact ih.step hs

/-- In every interleaving a buffer that has been read shows the last change to its block, and the
disk has the last change to every block whose buffer is neither locked nor pinned. -/
theorem cache_coherent (h : Reaches v) :
    (∀ b, v.w.cache.valid b = true → v.data b = v.store (v.block b)) ∧
    ∀ k, (∀ b, v.block b = k → v.w.lock b = none ∧ v.w.pins b = 0) → v.disk k = v.store k := by
  have hc := h.coherent
  refine ⟨hc.data,fun k hfree => ?_⟩
  by_contra hne
  obtain ⟨b,hb,-,huse⟩ := hc.kept k hne
  obtain ⟨hl,hp⟩ := hfree b hb
  exact huse.elim (fun h => h hl) fun h => h.ne' hp

end Invariant

/-- One process has changed a block, pinned its buffer and released it, and the disk is as before. -/
theorem cache_coherent_pinned : ∃ (v : Data (Fin 1) ℕ) (b : Buf), Reaches v ∧ v.w.lock b = none ∧
    v.disk (v.block b) = 0 ∧ v.store (v.block b) = 7 ∧ v.data b = v.store (v.block b) := by
  obtain ⟨b,c,hb⟩ := binit_bget
  have hget : Reaches (_ : Data (Fin 1) ℕ) := .step (.init (fun _ => 0) fun _ => 0)
    (.cache (a := .bget 0 1 5) (le_refl 1) (.bget rfl hb))
  have hlock := hget.step (.cache (a := .acquiresleep 0) trivial (.acquiresleep (p := 0) (b := b) rfl rfl))
  have hread := hlock.step (.bread (p := 0) (b := b) rfl (update_self ..))
  have hchange := hread.step (.change (p := 0) (b := b) 7 (update_self ..) (update_self ..))
  have hpin := hchange.step (.cache (a := .bpin 0 b) (update_self ..) (.bpin rfl))
  have hrel := hpin.step (.cache (a := .releasesleep 0 b) (fun _ => .inr (by simp)) (.releasesleep rfl (update_self ..)))
  exact ⟨_,b,hrel,update_self ..,rfl,update_self ..,(cache_coherent hrel).1 b (update_self ..)⟩

end Xv6.BioCoherence
