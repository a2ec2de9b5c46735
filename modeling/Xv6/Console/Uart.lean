import Xv6.Library.Bytes
import Xv6.Library.Fifo
import Xv6.Library.Monitor

/-! # The output buffer of the UART

Processes call `uartputc` and interrupt handlers call `uartintr`; both drain the buffer with `uartstart` under
`uart_tx_lock`. What a read of LSR finds is arbitrary. The one channel is `&uart_tx_r`.
-/
namespace Xv6.UartProtocol
open Library Library.Monitor

def UART_TX_BUF_SIZE : ℕ := 32

instance : NeZero UART_TX_BUF_SIZE := ⟨by decide⟩

structure Uart where
  uart_tx_buf : Fin UART_TX_BUF_SIZE → Byte
  uart_tx_w : BitVec 64
  uart_tx_r : BitVec 64
  /-- what `uartputc` has put into the buffer -/
  accepted : List Byte
  /-- what `uartstart` has written to THR -/
  sent : List Byte

def Uart.Full (u : Uart) : Prop := u.uart_tx_w = u.uart_tx_r + BitVec.ofNat 64 UART_TX_BUF_SIZE

instance (u : Uart) : Decidable u.Full := inferInstanceAs (Decidable (_ = _))

inductive Point
  /-- at the loop of `uartputc(c)` -/
  | uartputc (c : Byte)
  /-- at the loop of `uartstart` -/
  | uartstart
  /-- in `uartstart`, at `WriteReg(THR, c)` -/
  | write (c : Byte)

/-- The code from one point to the next; `idle` is the bit that LSR shows. -/
def Point.exec (idle : Bool) (u : Uart) : Point → Uart × Next Point Unit
  | .uartputc c =>
    if u.Full then (u,.sleep () (.uartputc c))
    else
      ({ u with
        uart_tx_buf := Function.update u.uart_tx_buf (Fin.ofNat _ u.uart_tx_w.toNat) c
        uart_tx_w := u.uart_tx_w + 1
        accepted := u.accepted ++ [c] },.goto .uartstart)
  | .uartstart =>
    if u.uart_tx_w = u.uart_tx_r then (u,.done)
    else if idle = false then (u,.done)
    else
      ({ u with uart_tx_r := u.uart_tx_r + 1 },.wakeup () (.write (u.uart_tx_buf (Fin.ofNat _ u.uart_tx_r.toNat))))
  | .write c => ({ u with sent := u.sent ++ [c] },.goto .uartstart)

/-- `uartputc` from processes, `uartintr` from handlers. -/
def code (N : ℕ) (H : Type) : Monitor.Code N H Uart Point Unit where
  call := fun a _ k => match a with
    | .inl _ => ∃ c, k = .uartputc c
    | .inr _ => k = .uartstart
  exec := fun _ k u u' n => ∃ idle, k.exec idle u = (u',n)
  other := fun _ _ _ => False

def Start (u : Uart) : Prop := u.uart_tx_w = 0 ∧ u.uart_tx_r = 0 ∧ u.accepted = [] ∧ u.sent = []

def Point.taken (u : Uart) : Point → List Byte
  | .write c => u.sent ++ [c]
  | .uartputc _ | .uartstart => u.sent

def Queue (u : Uart) (taken : List Byte) : Prop := Fifo u.uart_tx_buf u.uart_tx_r u.uart_tx_w u.accepted taken

def Left (u : Uart) : Next Point Unit → Prop
  | .goto k | .wakeup _ k => Queue u (k.taken u)
  | .sleep _ _ | .done => Queue u u.sent

theorem Start.queue {u : Uart} (h : Start u) : Queue u u.sent := by
  obtain ⟨hw,hr,ha,hs⟩ := h
  rw [Queue,hw,hr,ha,hs]
  exact ⟨rfl,rfl,List.prefix_rfl,Nat.zero_le _,fun k x _ hx => by simp at hx⟩

section
variable {u u' : Uart} {k : Point} {idle : Bool} {n : Next Point Unit}

theorem Point.exec_queue (h : Queue u (k.taken u)) (he : k.exec idle u = (u',n)) : Left u' n := by
  have hdvd : UART_TX_BUF_SIZE ∣ 2 ^ 64 := by decide
  cases k with
  | uartputc c =>
    rw [Point.exec] at he
    split at he
    · cases he
      exact h
    · rename_i hfull
      cases he
      refine Fifo.store h hdvd ?_ c
      have hne := (not_congr (Fifo.full_iff h (by decide))).mp hfull
      have := h.room
      omega
  | uartstart =>
    rw [Point.exec] at he
    split at he
    · cases he
      exact h
    · rename_i hempty
      split at he
      · cases he
        exact h
      · cases he
        refine Fifo.take h hdvd ?_
        have hne : u.sent ≠ u.accepted := fun h' => hempty ((Fifo.empty_iff h (by decide)).mpr h').symm
        have hle := h.le
        by_contra hlt
        exact hne (h.order.eq_of_length (by simp only [Point.taken] at hle hlt ⊢; omega))
  | write c =>
    cases he
    exact h

theorem Point.exec_full (he : k.exec idle u = (u',n)) :
    (∀ c k', n = .sleep c k' → u'.Full) ∧ (u.Full → u'.Full ∨ ∃ k', n = .wakeup () k') := by
  cases k with
  | uartputc c =>
    rw [Point.exec] at he
    split at he
    · rename_i hfull
      cases he
      exact ⟨fun _ _ _ => hfull,fun _ => .inl hfull⟩
    · rename_i hfull
      cases he
      exact ⟨nofun,fun h => absurd h hfull⟩
  | uartstart =>
    rw [Point.exec] at he
    split at he
    · cases he
      exact ⟨nofun,.inl⟩
    · split at he
      · cases he
        exact ⟨nofun,.inl⟩
      · cases he
        exact ⟨nofun,fun _ => .inr ⟨_,rfl⟩⟩
  | write c =>
    cases he
    exact ⟨nofun,.inl⟩

end

variable {N : ℕ} {H : Type}

def spec (N : ℕ) (H : Type) : Spec (code N H) where
  free := fun u => Queue u u.sent
  held := fun _ k u => Queue u (k.taken u)
  loc := fun _ k _ => ∀ c, k ≠ .write c
  call := by
    intro a u k hc
    cases a with
    | inl p =>
      obtain ⟨c,rfl⟩ := hc
      exact nofun
    | inr g =>
      obtain rfl : k = .uartstart := hc
      exact nofun
  acquire := by
    intro a u k h hk
    cases k with
    | write c => exact absurd rfl (hk c)
    | uartputc | uartstart => exact h
  exec := by
    rintro a k u u' n h ⟨idle,he⟩
    have hq := Point.exec_queue h he
    cases n with
    | goto | wakeup | done => exact hq
    | sleep c k' =>
      refine ⟨hq,?_⟩
      cases k with
      | uartputc ch =>
        rw [Point.exec] at he
        split at he
        · cases he
          exact nofun
        · cases he
      | uartstart =>
        rw [Point.exec] at he
        split_ifs at he <;> cases he
      | write ch => cases he
  exec_loc := fun _ _ _ h => h
  other_free := nofun
  other_held := nofun
  other_loc := nofun

theorem wakes (N : ℕ) (H : Type) : Wakes (spec N H) fun _ u => u.Full where
  sleep := by
    rintro a k u u' c k' - ⟨idle,he⟩
    exact (Point.exec_full he).1 c k' rfl
  exec := by
    rintro a k u u' c n - ⟨idle,he⟩ hfull
    exact (Point.exec_full he).2 hfull
  other := nofun

theorem Queue.bounded {u : Uart} {taken : List Byte} (h : Queue u taken) :
    (u.uart_tx_w - u.uart_tx_r).toNat ≤ UART_TX_BUF_SIZE := by
  have hroom := h.room
  rw [Fifo.count h (by decide)]
  omega

variable [DecidableEq H]

/-- The buffer never holds more than fits, THR gets the characters in order and without loss, and nobody sleeps while
there is room. -/
theorem uart_fifo {w : World N H Uart Point Unit} (h : Reaches (code N H) Start w) :
    (w.shared.uart_tx_w - w.shared.uart_tx_r).toNat ≤ UART_TX_BUF_SIZE ∧ w.shared.sent <+: w.shared.accepted ∧
      (w.lock = none → ¬w.shared.Full → ∀ p, w.asleep p = none) := by
  have hinv := h.inv (P := spec N H) fun _ => Start.queue
  have hsafe : (w.shared.uart_tx_w - w.shared.uart_tx_r).toNat ≤ UART_TX_BUF_SIZE ∧ w.shared.sent <+: w.shared.accepted := by
    refine hinv.always h.ordered (Q := fun u => (u.uart_tx_w - u.uart_tx_r).toNat ≤ UART_TX_BUF_SIZE ∧ u.sent <+: u.accepted)
      (fun u hu => ⟨Queue.bounded hu,hu.order⟩) fun a k u hu => ⟨Queue.bounded hu,?_⟩
    refine List.IsPrefix.trans ?_ hu.order
    cases k with
    | write c => exact List.prefix_append _ _
    | uartputc | uartstart => exact List.prefix_rfl
  refine ⟨hsafe.1,hsafe.2,fun hl hfull p => ?_⟩
  cases hp : w.asleep p with
  | none => rfl
  | some c => exact absurd (h.no_lost_wakeup (wakes N H) (fun _ => Start.queue) hl hp) hfull

/-- A process writes two characters while the device takes one; the interrupt handler sends the other. -/
theorem uart_fifo_drained : ∃ w : World 1 Unit Uart Point Unit, Reaches (code 1 Unit) Start w ∧ w.shared.sent = [65,66] ∧
    w.shared.sent <+: w.shared.accepted := by
  have h : Reaches (code 1 Unit) Start ⟨⟨fun _ => 0,0,0,[],[]⟩,none,fun _ => .idle,fun _ => none,fun _ => none⟩ :=
    .init ⟨⟨rfl,rfl,rfl,rfl⟩,rfl,fun _ => rfl,fun _ => rfl,fun _ => rfl⟩
  have h := h.step (.call (p := 0) (k := .uartputc 65) rfl nofun ⟨65,rfl⟩)
  have h := h.step (.acquire (a := .inl 0) rfl nofun rfl)
  have h := h.step (.exec (a := .inl 0) rfl ⟨true,rfl⟩)
  have h := h.step (.exec (a := .inl 0) rfl ⟨true,rfl⟩)
  have h := h.step (.wakeup (a := .inl 0) (q := 0) rfl trivial)
  have h := h.step (.wakeupDone (a := .inl 0) rfl)
  have h := h.step (.exec (a := .inl 0) rfl ⟨true,rfl⟩)
  have h := h.step (.exec (a := .inl 0) rfl ⟨true,rfl⟩)
  have h := h.step (.call (p := 0) (k := .uartputc 66) rfl nofun ⟨66,rfl⟩)
  have h := h.step (.acquire (a := .inl 0) rfl nofun rfl)
  have h := h.step (.exec (a := .inl 0) rfl ⟨false,rfl⟩)
  have h := h.step (.exec (a := .inl 0) rfl ⟨false,rfl⟩)
  have h := h.step (.interrupt (h := ()) (s := some 0) rfl (fun _ hp => by cases hp; trivial) rfl)
  have h := h.step (.acquire (a := .inr ()) rfl nofun rfl)
  have h := h.step (.exec (a := .inr ()) rfl ⟨true,rfl⟩)
  have h := h.step (.wakeup (a := .inr ()) (q := 0) rfl trivial)
  have h := h.step (.wakeupDone (a := .inr ()) rfl)
  have h := h.step (.exec (a := .inr ()) rfl ⟨true,rfl⟩)
  exact ⟨_,h,rfl,(uart_fifo h).2.1⟩

end Xv6.UartProtocol
