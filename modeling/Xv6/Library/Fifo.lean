import Mathlib

/-! # A queue in a ring with free-running counters

Items are stored at the write counter and taken at the read counter, both modulo the size
of the ring. The counters wrap at `2 ^ w`; what has gone through the ring is not bounded.
-/
namespace Xv6.Library
open Function (update update_of_ne update_self)

/-- The ring holds what has been stored and not yet taken. -/
structure Fifo {α : Type} {c w : ℕ} [NeZero c] (data : Fin c → α) (rd wr : BitVec w)
    (stored taken : List α) : Prop where
  rd : rd = BitVec.ofNat w taken.length
  wr : wr = BitVec.ofNat w stored.length
  order : taken <+: stored
  room : stored.length ≤ taken.length + c
  slots : ∀ k x, taken.length ≤ k → stored[k]? = some x → data (Fin.ofNat c k) = x

namespace Fifo
variable {α : Type} {c w k : ℕ} [NeZero c] {data : Fin c → α} {rd wr : BitVec w} {stored taken : List α} {x : α}

theorem le (h : Fifo data rd wr stored taken) : taken.length ≤ stored.length := h.order.length_le

theorem count (h : Fifo data rd wr stored taken) (hc : c < 2 ^ w) :
    (wr - rd).toNat = stored.length - taken.length := by
  obtain ⟨d,hd⟩ := Nat.exists_eq_add_of_le h.le
  have hroom := h.room
  have hsub : wr - rd = BitVec.ofNat w d := by
    rw [h.rd,h.wr,hd,BitVec.ofNat_add,BitVec.add_comm,BitVec.add_sub_cancel]
  rw [hsub,hd,BitVec.toNat_ofNat,Nat.mod_eq_of_lt (by omega)]
  omega

theorem empty_iff (h : Fifo data rd wr stored taken) (hc : c < 2 ^ w) : rd = wr ↔ taken = stored := by
  have hcount := h.count hc
  have hle := h.le
  constructor
  · rintro rfl
    rw [BitVec.sub_self,BitVec.toNat_zero] at hcount
    exact h.order.eq_of_length (by omega)
  · rintro rfl
    rw [h.rd,h.wr]

theorem full_iff (h : Fifo data rd wr stored taken) (hc : c < 2 ^ w) :
    wr = rd + BitVec.ofNat w c ↔ stored.length = taken.length + c := by
  have hcount := h.count hc
  have hroom := h.room
  constructor
  · intro hwr
    rw [hwr,BitVec.add_comm,BitVec.add_sub_cancel,BitVec.toNat_ofNat,Nat.mod_eq_of_lt hc] at hcount
    have := NeZero.pos c
    omega
  · intro hlen
    rw [h.rd,h.wr,hlen,BitVec.ofNat_add]

/-- The slot a counter names is that of the number of items that went through. -/
private theorem slot_eq (hc : c ∣ 2 ^ w) (k : ℕ) : Fin.ofNat c (BitVec.ofNat w k).toNat = Fin.ofNat c k := by
  apply Fin.ext
  rw [Fin.val_ofNat,Fin.val_ofNat,BitVec.toNat_ofNat]
  exact Nat.mod_mod_of_dvd k hc

private theorem slot_ne {i j : ℕ} (hij : i < j) (hji : j < i + c) : Fin.ofNat c i ≠ Fin.ofNat c j := by
  intro he
  have he : i % c = j % c := by simpa [Fin.ext_iff] using he
  have hdvd : c ∣ j - i := (Nat.modEq_iff_dvd' (by omega)).mp he
  have := Nat.le_of_dvd (by omega) hdvd
  omega

/-- The slot that the write counter names holds nothing that is still needed. -/
theorem free_slot (h : Fifo data rd wr stored taken) (hdvd : c ∣ 2 ^ w) (hfull : stored.length < taken.length + c)
    (hk : taken.length ≤ k) (hlt : k < stored.length) : Fin.ofNat c k ≠ Fin.ofNat c wr.toNat := by
  rw [h.wr,slot_eq hdvd]
  exact slot_ne hlt (by omega)

/-- `data[wr % c] = x` -/
theorem write (h : Fifo data rd wr stored taken) (hdvd : c ∣ 2 ^ w) (hfull : stored.length < taken.length + c) (x : α) :
    Fifo (update data (Fin.ofNat c wr.toNat) x) rd wr stored taken where
  rd := h.rd
  wr := h.wr
  order := h.order
  room := h.room
  slots := by
    intro k y hk hy
    rw [update_of_ne (h.free_slot hdvd hfull hk (List.getElem?_eq_some_iff.mp hy).1)]
    exact h.slots k y hk hy

/-- `wr++`, once the item is in its slot -/
theorem advance (h : Fifo data rd wr stored taken) (hdvd : c ∣ 2 ^ w) (hfull : stored.length < taken.length + c) {x : α}
    (hx : data (Fin.ofNat c wr.toNat) = x) : Fifo data rd (wr + 1) (stored ++ [x]) taken where
  rd := h.rd
  wr := by
    rw [h.wr,List.length_append,List.length_singleton,BitVec.ofNat_add]
    rfl
  order := h.order.trans (List.prefix_append _ _)
  room := by
    rw [List.length_append,List.length_singleton]
    omega
  slots := by
    intro k y hk hy
    have hklt : k < stored.length + 1 := by
      have := (List.getElem?_eq_some_iff.mp hy).1
      rwa [List.length_append,List.length_singleton] at this
    by_cases hlast : k = stored.length
    · subst hlast
      rw [h.wr,slot_eq hdvd] at hx
      rw [hx]
      simpa using hy
    · rw [List.getElem?_append_left (by omega)] at hy
      exact h.slots k y hk hy

/-- `data[wr++ % c] = x` -/
theorem store (h : Fifo data rd wr stored taken) (hdvd : c ∣ 2 ^ w) (hfull : stored.length < taken.length + c) (x : α) :
    Fifo (update data (Fin.ofNat c wr.toNat) x) rd (wr + 1) (stored ++ [x]) taken :=
  (h.write hdvd hfull x).advance hdvd hfull (update_self ..)

theorem item (h : Fifo data rd wr stored taken) (hdvd : c ∣ 2 ^ w) {x : α} (hk : taken.length ≤ k)
    (hx : stored[k]? = some x) : data (Fin.ofNat c (BitVec.ofNat w k).toNat) = x := by
  rw [slot_eq hdvd]
  exact h.slots k x hk hx

theorem items (h : Fifo data rd wr stored taken) (hdvd : c ∣ 2 ^ w) (pre xs post : List α)
    (hs : stored = pre ++ xs ++ post) (hk : taken.length ≤ pre.length) :
    (List.range xs.length).map (fun j => data (Fin.ofNat c (BitVec.ofNat w pre.length + BitVec.ofNat w j).toNat)) = xs := by
  apply List.ext_getElem
  · simp
  · intro j h₁ h₂
    simp only [List.getElem_map,List.getElem_range]
    rw [← BitVec.ofNat_add]
    refine h.item hdvd (by omega) ?_
    rw [hs,List.append_assoc,List.getElem?_append_right (by omega),Nat.add_sub_cancel_left,List.getElem?_append_left h₂]
    exact List.getElem?_eq_getElem h₂

/-- `wr--` takes the last item back. -/
theorem erase (h : Fifo data rd wr (stored ++ [x]) taken) (hle : taken.length ≤ stored.length) :
    Fifo data rd (wr - 1) stored taken where
  rd := h.rd
  wr := by
    rw [h.wr,List.length_append,List.length_singleton,BitVec.ofNat_add]
    exact BitVec.add_sub_cancel _ _
  order := (List.prefix_or_prefix_of_prefix h.order (List.prefix_append _ _)).elim id fun hp => by
    rw [hp.eq_of_length_le hle]
  room := by
    have := h.room
    rw [List.length_append] at this
    omega
  slots := by
    intro k y hk hy
    refine h.slots k y hk ?_
    rwa [List.getElem?_append_left (List.getElem?_eq_some_iff.mp hy).1]

/-- The slot that the read counter names holds the next item. -/
theorem next (h : Fifo data rd wr stored taken) (hdvd : c ∣ 2 ^ w) (hempty : taken.length < stored.length) :
    stored[taken.length]? = some (data (Fin.ofNat c rd.toNat)) := by
  have hget := List.getElem?_eq_getElem hempty
  rw [h.rd,slot_eq hdvd,h.slots _ _ (Nat.le_refl _) hget,hget]

/-- `x = data[rd++ % c]` -/
theorem take (h : Fifo data rd wr stored taken) (hdvd : c ∣ 2 ^ w) (hempty : taken.length < stored.length) :
    Fifo data (rd + 1) wr stored (taken ++ [data (Fin.ofNat c rd.toNat)]) := by
  have hslot := h.next hdvd hempty
  refine ⟨?_,h.wr,?_,?_,?_⟩
  · rw [h.rd,List.length_append,List.length_singleton,BitVec.ofNat_add]
    rfl
  · obtain ⟨rest,rfl⟩ := h.order
    cases rest with
    | nil =>
      rw [List.append_nil] at hempty
      exact absurd hempty (Nat.lt_irrefl _)
    | cons x rest =>
      refine ⟨rest,?_⟩
      rw [List.getElem?_append_right (Nat.le_refl _),Nat.sub_self,List.getElem?_cons_zero] at hslot
      rw [← Option.some.inj hslot,List.append_assoc]
      rfl
  · have := h.room
    rw [List.length_append,List.length_singleton]
    omega
  · intro k y hk
    rw [List.length_append,List.length_singleton] at hk
    exact h.slots k y (by omega)

theorem take_next (h : Fifo data rd wr stored (stored.take k)) (hdvd : c ∣ 2 ^ w) (hk : k < stored.length) :
    Fifo data (rd + 1) wr stored (stored.take (k + 1)) := by
  have hlen : (stored.take k).length = k := by
    rw [List.length_take]
    omega
  have hnext := h.next hdvd (by omega)
  rw [hlen] at hnext
  rw [List.take_add_one,hnext]
  exact h.take hdvd (by omega)

end Fifo

end Xv6.Library
