import Xv6.Virtio.Code
import Xv6.Library.Fifo

/-! # Disk requests under any interleaving

Any number of processes call `virtio_disk_rw` with buffers whose sleep-locks they hold, interrupts
arrive at any time, and the device works on what has been submitted in an order of its own. A
process that sleeps may resume at any time, since `kill` makes it runnable without a wakeup.
The device hands back the head of each chain once, after it has carried out the request and has
set the status byte to 0.
-/
namespace Xv6.Virtio
open Library
open Function (update update_apply update_of_ne update_self)

/-! ## Descriptors -/

section Descriptors
variable {B : Type} {m m' : Mem B} {r : Req B} {c : Chain}

def Chain.descs (c : Chain) : List (Fin NUM) := [c.head,c.data,c.status]

@[simp] theorem Chain.mem_descs {i : Fin NUM} : i ∈ c.descs ↔ i = c.head ∨ i = c.data ∨ i = c.status := by
  simp [Chain.descs]

theorem Chain.nodup_iff : c.descs.Nodup ↔ (c.head ≠ c.data ∧ c.head ≠ c.status) ∧ c.data ≠ c.status := by
  simp [Chain.descs]

def Mem.without (m : Mem B) (l : List (Fin NUM)) : Mem B := { m with free := fun i => m.free i && !decide (i ∈ l) }

theorem Mem.freeDescs_eq (m : Mem B) (l : List (Fin NUM)) (hl : l.Nodup) (hfree : ∀ i ∈ l, m.free i = false) :
    m.freeDescs l = .ok { m with
      desc := fun i => if i ∈ l then .zero else m.desc i
      free := fun i => m.free i || decide (i ∈ l) } := by
  induction l generalizing m with
  | nil => simp [Mem.freeDescs]
  | cons i l ih =>
    obtain ⟨hi,hl⟩ := List.nodup_cons.mp hl
    have hstep : m.freeDesc i = .ok { m with
        desc := update m.desc i .zero, free := update m.free i true } := by
      simp [Mem.freeDesc,hfree i (by simp)]
    rw [Mem.freeDescs,hstep]
    change Mem.freeDescs _ l = _
    rw [ih _ hl]
    · simp only [Except.ok.injEq,Mem.mk.injEq,true_and,and_true]
      constructor
      · funext j
        by_cases hj : j = i <;> simp [hj]
      · funext j
        by_cases hj : j = i <;> simp [hj]
    · intro j hj
      have hne : j ≠ i := fun h => hi (h ▸ hj)
      simp [hne,hfree j (List.mem_cons_of_mem _ hj)]

theorem Mem.alloc3From_eq (m : Mem B) (l : List (Fin NUM)) (n : ℕ) (hl : l.Nodup) (hfree : ∀ i ∈ l, m.free i = true) :
    (∃ l' : List (Fin NUM), (m.without l).alloc3From l n = .ok (m.without l',some l') ∧ l'.length = l.length + n ∧ l'.Nodup ∧
      ∀ i ∈ l', m.free i = true) ∨
    ∃ l' : List (Fin NUM), (m.without l).alloc3From l n = .ok
      ({ m with desc := fun i => if i ∈ l' then .zero else m.desc i },none) ∧
      ∀ i ∈ l', m.free i = true := by
  induction n generalizing l with
  | zero => exact .inl ⟨l,rfl,rfl,hl,hfree⟩
  | succ n ih =>
    rw [Mem.alloc3From,Mem.allocDesc]
    cases hfind : (List.finRange NUM).find? (m.without l).free with
    | none =>
      refine .inr ⟨l,?_,hfree⟩
      simp only [Option.map_none]
      rw [Mem.freeDescs_eq _ _ hl (fun i hi => by simp [Mem.without,hi])]
      simp only [bind,Except.bind,Mem.without,Except.ok.injEq,Prod.mk.injEq,Mem.mk.injEq,true_and,and_true]
      funext i
      by_cases hi : i ∈ l <;> simp [hi,hfree]
    | some i =>
      have hi := List.find?_some hfind
      simp only [Mem.without,Bool.and_eq_true,Bool.not_eq_true',decide_eq_false_iff_not] at hi
      have hnext : { m.without l with free := update (m.without l).free i false } = m.without (l ++ [i]) := by
        simp only [Mem.without,Mem.mk.injEq,true_and,and_true]
        funext j
        by_cases hj : j = i <;> simp [hj]
      simp only [Option.map_some,hnext]
      rcases ih (l ++ [i]) (List.nodup_append.mpr ⟨hl,by simp,fun a ha b hb h => hi.2 (List.mem_singleton.mp hb ▸ h ▸ ha)⟩)
          (fun j hj => by
            rcases List.mem_append.mp hj with hj | hj
            · exact hfree j hj
            · exact List.mem_singleton.mp hj ▸ hi.1) with ⟨l',h₁,h₂,h₃⟩ | h
      · exact .inl ⟨l',h₁,by simpa [Nat.add_assoc,Nat.add_comm 1] using h₂,h₃⟩
      · exact .inr h

theorem Mem.alloc3Desc_eq (m : Mem B) :
    (∃ c : Chain, m.alloc3Desc = .ok (m.without c.descs,some c.descs) ∧ c.descs.Nodup ∧ ∀ i ∈ c.descs, m.free i = true) ∨
    ∃ d, m.alloc3Desc = .ok ({ m with desc := d },none) ∧ ∀ i, m.free i = false → d i = m.desc i := by
  have hm : m.without [] = m := by simp [Mem.without]
  rcases m.alloc3From_eq [] 3 List.nodup_nil (by simp) with ⟨l,h,hlen,hnd,hfree⟩ | ⟨l,h,hfree⟩
  · rw [hm] at h
    obtain ⟨i,j,k,rfl⟩ := List.length_eq_three.mp hlen
    exact .inl ⟨⟨i,j,k⟩,h,hnd,hfree⟩
  · rw [hm] at h
    refine .inr ⟨_,h,fun i hi => if_neg fun hil => ?_⟩
    rw [hfree i hil] at hi
    cases hi

structure Mem.Formatted (m : Mem B) (r : Req B) (c : Chain) : Prop where
  head : m.desc c.head = ⟨.op c.head,16,VRING_DESC_F_NEXT,c.data⟩
  data : m.desc c.data =
    ⟨.data r.b,BSIZE,(if r.write then 0 else VRING_DESC_F_WRITE) ||| VRING_DESC_F_NEXT,c.status⟩
  status : m.desc c.status = ⟨.status c.head,1,VRING_DESC_F_WRITE,0⟩
  op : m.ops c.head = ⟨if r.write then VIRTIO_BLK_T_OUT else VIRTIO_BLK_T_IN,0,r.sector⟩
  b : (m.info c.head).b = some r.b

theorem Mem.format_formatted [DecidableEq B] (m : Mem B) (r : Req B) (hc : c.descs.Nodup) : (m.format r c).Formatted r c := by
  obtain ⟨⟨h₁,h₂⟩,h₃⟩ := Chain.nodup_iff.mp hc
  constructor <;> simp [Mem.format,h₁,h₂,h₃]

theorem Mem.Formatted.command (h : m.Formatted r c) : m.command c.head = some (r,c.head) := by
  obtain ⟨h₁,h₂,h₃,h₄,-⟩ := h
  obtain ⟨b,sector,write⟩ := r
  simp only [Mem.command,Fin.is_lt,Fin.eta,dite_true,Option.bind_eq_bind,Option.bind_some,h₁,h₂,h₃,h₄]
  cases write <;> simp

theorem Mem.Formatted.congr (h : m.Formatted r c) (hdesc : ∀ i ∈ c.descs, m'.desc i = m.desc i)
    (hops : m'.ops c.head = m.ops c.head) (hb : (m'.info c.head).b = (m.info c.head).b) : m'.Formatted r c where
  head := (hdesc _ (by simp)).trans h.head
  data := (hdesc _ (by simp)).trans h.data
  status := (hdesc _ (by simp)).trans h.status
  op := hops.trans h.op
  b := hb.trans h.b

theorem Mem.freeDesc_eq {i : Fin NUM} (hi : m.free i = false) : m.freeDesc i = .ok { m with
    desc := update m.desc i .zero, free := update m.free i true } := by
  simp [Mem.freeDesc,hi]

theorem Mem.freeChainFrom_eq (fuel : ℕ) {i : Fin NUM} (hi : m.free i = false) :
    m.freeChainFrom (fuel + 1) i =
      if (m.desc i).flags &&& VRING_DESC_F_NEXT ≠ 0 then
        Mem.freeChainFrom fuel { m with
          desc := update m.desc i .zero, free := update m.free i true } (m.desc i).next
      else .ok { m with desc := update m.desc i .zero, free := update m.free i true } := by
  rw [Mem.freeChainFrom,dif_pos i.isLt,Mem.freeDesc_eq hi]
  rfl

theorem Mem.freeChain_eq (h₁ : (m.desc c.head).flags = VRING_DESC_F_NEXT) (h₁' : (m.desc c.head).next = c.data)
    (h₂ : (m.desc c.data).flags &&& VRING_DESC_F_NEXT ≠ 0) (h₂' : (m.desc c.data).next = c.status)
    (h₃ : (m.desc c.status).flags = VRING_DESC_F_WRITE) (hc : c.descs.Nodup) (hfree : ∀ i ∈ c.descs, m.free i = false) :
    ∃ d, m.freeChain c.head = .ok { m with desc := d, free := fun i => m.free i || decide (i ∈ c.descs) } ∧
      ∀ i, i ∉ c.descs → d i = m.desc i := by
  obtain ⟨⟨hhd,hhs⟩,hds⟩ := Chain.nodup_iff.mp hc
  have hf₁ := hfree c.head (by simp)
  have hf₂ := hfree c.data (by simp)
  have hf₃ := hfree c.status (by simp)
  refine ⟨update (update (update m.desc c.head .zero) c.data .zero) c.status .zero,?_,?_⟩
  · rw [Mem.freeChain,Mem.freeChainFrom_eq _ hf₁,if_pos (by rw [h₁]; decide),h₁',
      Mem.freeChainFrom_eq _ (by simpa [hhd.symm] using hf₂),if_pos (by simpa [hhd.symm] using h₂)]
    simp only [update_of_ne hhd.symm,h₂']
    rw [Mem.freeChainFrom_eq _ (by simpa [hhs.symm,hds.symm] using hf₃),
      if_neg (by simp [hhs.symm,hds.symm,h₃])]
    simp only [Except.ok.injEq,Mem.mk.injEq,true_and,and_true]
    funext i
    simp only [update_apply,Chain.mem_descs]
    grind
  · intro i hi
    simp only [Chain.mem_descs,not_or] at hi
    simp [hi.1,hi.2.1,hi.2.2]

end Descriptors

/-! ## The machine -/

structure Sub (B : Type) where
  req : Req B
  head : Fin NUM

/-- An entry of the used ring, with the number of the submission it answers. -/
structure Ent where
  tag : ℕ
  head : ℕ

/-- How far the device is with a submission; it goes by the head that it has read. -/
inductive Stage
  | unseen
  | pending (head : ℕ)
  | performed (head : ℕ)
  /-- in the used ring, but `used->idx` is not yet incremented -/
  | posting (head : ℕ)
  | posted

inductive Pos (B : Type)
  | idle
  /-- before `acquire(&disk.vdisk_lock)`, or in `sleep` -/
  | entry (k : Point B)
  | locked (k : Point B)

/-- `A` are the processes and the interrupt handlers, `B` the buffers. -/
structure World (A B : Type) where
  mem : Mem B
  /-- the holder of `vdisk_lock` -/
  lock : Option A
  /-- the holder of `b->lock` -/
  holder : B → Option A
  pos : A → Pos B
  /-- how far the device has looked in the avail ring -/
  seen : BitVec 16
  stage : ℕ → Stage
  -- the rest is a record of what has happened
  sub : List (Sub B)
  /-- the number of the current submission of each process -/
  serial : A → ℕ
  consumed : ℕ
  commands : List (ℕ × Req B)
  posted : List Ent
  handled : ℕ

def Next.pos {B : Type} : Next B → Pos B
  | .goto k => .locked k
  | .sleep k => .entry k
  | .done => .idle

def Next.lock {A B : Type} (a : A) : Next B → Option A
  | .goto _ => some a
  | .sleep _ | .done => none

section Machine
variable {A B : Type} [DecidableEq A] [DecidableEq B]

/-- What the point adds to the record: a submission, or an answer that the handler has seen. -/
def World.note (w : World A B) (a : A) : Point B → World A B
  | .bump r c => { w with sub := w.sub ++ [⟨r,c.head⟩], serial := update w.serial a w.sub.length }
  | .intrClear _ => { w with handled := w.handled + 1 }
  | _ => w

/-- What executing the point does, when it leads to `n` and to the memory `m`. -/
def World.run (w : World A B) (a : A) (k : Point B) (n : Next B) (m : Mem B) : World A B :=
  { w.note a k with mem := m, lock := n.lock a, pos := update w.pos a n.pos }

inductive Step : World A B → World A B → Prop
  | acquiresleep {w : World A B} (a : A) {b : B} : w.holder b = none →
      Step w { w with holder := update w.holder b (some a) }
  | releasesleep {w : World A B} {a : A} {b : B} : w.holder b = some a → w.pos a = .idle →
      Step w { w with holder := update w.holder b none }
  | call {w : World A B} {a : A} {b : B} (blockno : BitVec 32) (write : Bool) : w.pos a = .idle → w.holder b = some a →
      Step w { w with pos := update w.pos a (.entry (.alloc (.of b blockno write))) }
  | intr {w : World A B} {a : A} : w.pos a = .idle →
      Step w { w with pos := update w.pos a (.entry .intr) }
  | acquire {w : World A B} {a : A} {k : Point B} : w.pos a = .entry k → w.lock = none →
      Step w { w with lock := some a, pos := update w.pos a (.locked k) }
  | exec {w : World A B} {a : A} {k : Point B} {n : Next B} {m : Mem B} : w.pos a = .locked k →
      k.exec w.mem = .ok (n,m) → Step w (w.run a k n m)
  | consume {w : World A B} : w.seen ≠ w.mem.availIdx →
      Step w { w with
        seen := w.seen + 1
        stage := update w.stage w.consumed (.pending (w.mem.availRing (Mem.slot w.seen)))
        consumed := w.consumed + 1 }
  | perform {w : World A B} {tag head : ℕ} {r : Req B} {i : Fin NUM} : w.stage tag = .pending head →
      w.mem.command head = some (r,i) →
      Step w { w with
        mem := { w.mem with info := update w.mem.info i { w.mem.info i with status := 0 } }
        stage := update w.stage tag (.performed head)
        commands := w.commands ++ [(tag,r)] }
  | post {w : World A B} {tag head : ℕ} : w.stage tag = .performed head → (∀ t h, w.stage t ≠ .posting h) →
      Step w { w with
        mem := { w.mem with usedRing := update w.mem.usedRing (Mem.slot w.mem.deviceIdx) head }
        stage := update w.stage tag (.posting head) }
  | posted {w : World A B} {tag head : ℕ} : w.stage tag = .posting head →
      Step w { w with
        mem := { w.mem with deviceIdx := w.mem.deviceIdx + 1 }
        stage := update w.stage tag .posted
        posted := w.posted ++ [⟨tag,head⟩] }

structure Initial (w : World A B) : Prop where
  free : ∀ i, w.mem.free i = true
  availIdx : w.mem.availIdx = 0
  usedIdx : w.mem.usedIdx = 0
  deviceIdx : w.mem.deviceIdx = 0
  seen : w.seen = 0
  disk : ∀ b, w.mem.disk b = false
  lock : w.lock = none
  pos : ∀ a, w.pos a = .idle
  stage : ∀ t, w.stage t = .unseen
  sub : w.sub = []
  consumed : w.consumed = 0
  commands : w.commands = []
  posted : w.posted = []
  handled : w.handled = 0

inductive Reachable : World A B → Prop
  | init {w : World A B} : Initial w → Reachable w
  | step {w w' : World A B} : Reachable w → Step w w' → Reachable w'

end Machine

/-! ## What a point does -/

section Points
variable {B : Type} [DecidableEq B] {m m' : Mem B} {k : Point B} {n : Next B}

def Point.req : Point B → Option (Req B)
  | .alloc r | .format r _ | .publish r _ | .bump r _ | .wait r _ | .finish r _ | .ret r _ => some r
  | .intr | .intrId | .intrClear _ => none

def Point.chain : Point B → Option Chain
  | .format _ c | .publish _ c | .bump _ c | .wait _ c | .finish _ c => some c
  | .alloc _ | .ret _ _ | .intr | .intrId | .intrClear _ => none

inductive Effect (m : Mem B) : Point B → Next B → Mem B → Prop
  | allocated {r : Req B} {c : Chain} : c.descs.Nodup → (∀ i ∈ c.descs, m.free i = true) →
      Effect m (.alloc r) (.goto (.format r c)) (m.without c.descs)
  | exhausted {r : Req B} {d : Fin NUM → Desc B} : (∀ i, m.free i = false → d i = m.desc i) →
      Effect m (.alloc r) (.sleep (.alloc r)) { m with desc := d }
  | format {r : Req B} {c : Chain} : Effect m (.format r c) (.goto (.publish r c)) (m.format r c)
  | publish {r : Req B} {c : Chain} : Effect m (.publish r c) (.goto (.bump r c))
      { m with availRing := update m.availRing (Mem.slot m.availIdx) c.head }
  | bump {r : Req B} {c : Chain} : Effect m (.bump r c) (.goto (.wait r c)) { m with availIdx := m.availIdx + 1 }
  | unfinished {r : Req B} {c : Chain} : m.disk r.b = true → Effect m (.wait r c) (.sleep (.wait r c)) m
  | finished {r : Req B} {c : Chain} : m.disk r.b = false → Effect m (.wait r c) (.goto (.finish r c)) m
  | finish {r : Req B} {c : Chain} {d : Fin NUM → Desc B} : (∀ i, i ∉ c.descs → d i = m.desc i) →
      Effect m (.finish r c) (.goto (.ret r c)) { m with
        info := update m.info c.head { m.info c.head with b := none }
        desc := d
        free := fun i => m.free i || decide (i ∈ c.descs) }
  | ret {r : Req B} {c : Chain} : Effect m (.ret r c) .done m
  | more : m.usedIdx ≠ m.deviceIdx → Effect m .intr (.goto .intrId) m
  | noMore : m.usedIdx = m.deviceIdx → Effect m .intr .done m
  | intrId : Effect m .intrId (.goto (.intrClear (m.usedRing (Mem.slot m.usedIdx)))) m
  | intrClear {i : Fin NUM} {b : B} : (m.info i).status = 0 → (m.info i).b = some b →
      Effect m (.intrClear i) (.goto .intr) { m with disk := update m.disk b false, usedIdx := m.usedIdx + 1 }

def Point.Safe (m : Mem B) : Point B → Prop
  | .finish r c => m.Formatted r c ∧ c.descs.Nodup ∧ ∀ i ∈ c.descs, m.free i = false
  | .intrClear id => ∃ (i : Fin NUM) (b : B), id = i ∧ (m.info i).status = 0 ∧ (m.info i).b = some b
  | _ => True

theorem Point.Safe.exec (h : k.Safe m) : ∃ n m', k.exec m = .ok (n,m') ∧ Effect m k n m' := by
  cases k with
  | alloc r =>
    rcases m.alloc3Desc_eq with ⟨c,he,hc,hfree⟩ | ⟨d,he,hd⟩
    · exact ⟨_,_,by rw [Point.exec,he]; rfl,.allocated hc hfree⟩
    · exact ⟨_,_,by rw [Point.exec,he]; rfl,.exhausted hd⟩
  | format r c => exact ⟨_,_,rfl,.format⟩
  | publish r c => exact ⟨_,_,rfl,.publish⟩
  | bump r c => exact ⟨_,_,rfl,.bump⟩
  | wait r c =>
    cases hd : m.disk r.b with
    | true => exact ⟨_,_,by simp [Point.exec,hd],.unfinished hd⟩
    | false => exact ⟨_,_,by simp [Point.exec,hd],.finished hd⟩
  | finish r c =>
    obtain ⟨hf,hc,hfree⟩ := h
    obtain ⟨d,he,hd⟩ := Mem.freeChain_eq
      (m := { m with info := update m.info c.head { m.info c.head with b := none } })
      (by simp [hf.head]) (by simp [hf.head]) (by rw [hf.data]; cases r.write <;> simp) (by simp [hf.data])
      (by simp [hf.status]) hc hfree
    exact ⟨_,_,by rw [Point.exec,he]; rfl,.finish hd⟩
  | ret r c => exact ⟨_,_,rfl,.ret⟩
  | intr =>
    by_cases hu : m.usedIdx = m.deviceIdx
    · exact ⟨_,_,by simp [Point.exec,hu],.noMore hu⟩
    · exact ⟨_,_,by simp [Point.exec,hu],.more hu⟩
  | intrId => exact ⟨_,_,rfl,.intrId⟩
  | intrClear id =>
    obtain ⟨i,b,rfl,hs,hb⟩ := h
    exact ⟨_,_,by simp [Point.exec,hs,hb],.intrClear hs hb⟩

theorem Point.Safe.effect (h : k.Safe m) (he : k.exec m = .ok (n,m')) : Effect m k n m' := by
  obtain ⟨n₁,m₁,he₁,heff⟩ := h.exec
  rw [he] at he₁
  cases he₁
  exact heff

theorem Effect.formatted {r : Req B} {c : Chain} (he : Effect m k n m') (hf : m.Formatted r c)
    (hfree : ∀ i ∈ c.descs, m.free i = false) (hdis : ∀ c', k.chain = some c' → ∀ i ∈ c'.descs, i ∉ c.descs) :
    m'.Formatted r c := by
  cases he with
  | exhausted hd => exact hf.congr (fun i hi => hd i (hfree i hi)) rfl rfl
  | @format r' c' =>
    have hne (i : Fin NUM) (hi : i ∈ c.descs) : i ≠ c'.head ∧ i ≠ c'.data ∧ i ≠ c'.status := by
      have := fun h => hdis c' rfl i h hi
      simpa [not_or] using this
    have hhead := hne c.head (by simp)
    refine hf.congr (fun i hi => ?_) ?_ ?_
    · obtain ⟨h₁,h₂,h₃⟩ := hne i hi
      simp [Mem.format,h₁,h₂,h₃]
    · simp [Mem.format,hhead.1]
    · simp [Mem.format,hhead.1]
  | @finish r' c' d hd =>
    have hne (i : Fin NUM) (hi : i ∈ c.descs) : i ∉ c'.descs := fun h => hdis c' rfl i h hi
    have hhead := hne c.head (by simp)
    refine hf.congr (fun i hi => hd i (hne i hi)) rfl ?_
    simp only [Chain.mem_descs,not_or] at hhead
    simp [hhead.1]
  | allocated | publish | bump | unfinished | finished | ret | more | noMore | intrId | intrClear =>
    exact hf.congr (fun _ _ => rfl) rfl rfl

def Point.Sleeps : Point B → Prop
  | .alloc _ | .wait _ _ => True
  | _ => False

end Points

/-! ## The invariant -/

section Invariant
variable {A B : Type} {w w' : World A B} {a : A} {k : Point B} {n : Next B} {m : Mem B}

def Pos.point : Pos B → Option (Point B)
  | .idle => none
  | .entry k | .locked k => some k

def World.req (w : World A B) (a : A) : Option (Req B) := (w.pos a).point.bind Point.req

def World.chain (w : World A B) (a : A) : Option Chain := (w.pos a).point.bind Point.chain

def World.Cleared (w : World A B) (t : ℕ) : Prop := ∃ i e, i < w.handled ∧ w.posted[i]? = some e ∧ e.tag = t

structure Owners (w : World A B) : Prop where
  lock : ∀ a, w.lock = some a ↔ ∃ k, w.pos a = .locked k
  own : ∀ a r, w.req a = some r → w.holder r.b = some a
  entry : ∀ a k, w.pos a = .entry k → k.Sleeps ∨ k = .intr

structure Descs (w : World A B) : Prop where
  nodup : ∀ a c, w.chain a = some c → c.descs.Nodup
  disjoint : ∀ a a' c c' i, w.chain a = some c → w.chain a' = some c' → i ∈ c.descs → i ∈ c'.descs → a = a'
  free : ∀ i, w.mem.free i = false ↔ ∃ a c, w.chain a = some c ∧ i ∈ c.descs

def Point.Fits (w : World A B) (a : A) : Point B → Prop
  | .alloc _ | .format _ _ | .intr => True
  | .publish r c => w.mem.Formatted r c ∧ w.mem.disk r.b = true
  | .bump r c => w.mem.Formatted r c ∧ w.mem.disk r.b = true ∧ w.mem.availRing (Mem.slot w.mem.availIdx) = c.head
  | .wait r c => w.mem.Formatted r c ∧ w.sub[w.serial a]? = some ⟨r,c.head⟩ ∧
      (w.mem.disk r.b = true ↔ ¬w.Cleared (w.serial a))
  | .finish r c => w.mem.Formatted r c ∧ w.sub[w.serial a]? = some ⟨r,c.head⟩ ∧ w.Cleared (w.serial a)
  | .ret r c => w.sub[w.serial a]? = some ⟨r,c.head⟩ ∧ w.Cleared (w.serial a)
  | .intrId => w.handled < w.posted.length
  | .intrClear id => ∃ e, w.posted[w.handled]? = some e ∧ e.head = id

def Stage.Done : Stage → Prop
  | .performed _ | .posting _ | .posted => True
  | _ => False

def Stage.head : Stage → Option ℕ
  | .pending h | .performed h | .posting h => some h
  | _ => none

structure Tags (w : World A B) : Prop where
  unseen : ∀ t, w.stage t = .unseen ↔ w.consumed ≤ t
  head : ∀ t h, (w.stage t).head = some h → ∃ s, w.sub[t]? = some s ∧ s.head = h
  posting : ∀ t t' h h', w.stage t = .posting h → w.stage t' = .posting h' → t = t'
  slot : ∀ t h, w.stage t = .posting h → w.mem.usedRing (Mem.slot w.mem.deviceIdx) = h
  posted : ∀ t, w.stage t = .posted ↔ ∃ e ∈ w.posted, e.tag = t
  heads : ∀ e ∈ w.posted, ∃ s, w.sub[e.tag]? = some s ∧ s.head = e.head
  nodup : (w.posted.map Ent.tag).Nodup
  commands : ∀ t s, (w.stage t).Done → w.sub[t]? = some s → (t,s.req) ∈ w.commands
  once : (w.commands.map Prod.fst).Nodup ∧ ∀ x ∈ w.commands, (w.stage x.1).Done
  status : ∀ t s, (w.stage t).Done → ¬w.Cleared t → w.sub[t]? = some s → (w.mem.info s.head).status = 0

structure Inv (w : World A B) : Prop where
  owners : Owners w
  descs : Descs w
  fits : ∀ a k, (w.pos a).point = some k → k.Fits w a
  live : ∀ t, t < w.sub.length → ¬w.Cleared t → ∃ a r c, (w.pos a).point = some (.wait r c) ∧ w.serial a = t
  avail : Fifo w.mem.availRing w.seen w.mem.availIdx (w.sub.map fun s => s.head.val)
    ((w.sub.map fun s => s.head.val).take w.consumed)
  used : Fifo w.mem.usedRing w.mem.usedIdx w.mem.deviceIdx (w.posted.map Ent.head) ((w.posted.map Ent.head).take w.handled)
  tags : Tags w
  bounds : w.consumed ≤ w.sub.length ∧ w.handled ≤ w.posted.length

theorem Descs.at_most_two (h : Descs w) {a₁ a₂ a₃ : A} {c₁ c₂ c₃ : Chain} (h₁ : w.chain a₁ = some c₁)
    (h₂ : w.chain a₂ = some c₂) (h₃ : w.chain a₃ = some c₃) : a₁ = a₂ ∨ a₁ = a₃ ∨ a₂ = a₃ := by
  by_contra hne
  simp only [not_or] at hne
  -- nine different descriptors
  have hnd : (c₁.descs ++ (c₂.descs ++ c₃.descs)).Nodup := by
    refine List.nodup_append.mpr ⟨h.nodup _ _ h₁,List.nodup_append.mpr ⟨h.nodup _ _ h₂,h.nodup _ _ h₃,?_⟩,?_⟩
    · rintro i hi _ hj rfl
      exact hne.2.2 (h.disjoint _ _ _ _ i h₂ h₃ hi hj)
    · rintro i hi _ hj rfl
      rcases List.mem_append.mp hj with hj | hj
      · exact hne.1 (h.disjoint _ _ _ _ i h₁ h₂ hi hj)
      · exact hne.2.1 (h.disjoint _ _ _ _ i h₁ h₃ hi hj)
  have := hnd.length_le_card
  simp [Chain.descs,NUM] at this

theorem Tags.tag_inj (h : Tags w) {i j : ℕ} {e e' : Ent} (hi : w.posted[i]? = some e) (hj : w.posted[j]? = some e')
    (he : e.tag = e'.tag) : i = j := by
  have hlt : i < (w.posted.map Ent.tag).length := by
    rw [List.length_map]
    exact (List.getElem?_eq_some_iff.mp hi).1
  refine (List.getElem?_inj hlt h.nodup).mp ?_
  rw [List.getElem?_map,List.getElem?_map,hi,hj]
  simp [he]

theorem Tags.not_cleared (h : Tags w) {i : ℕ} {e : Ent} (hi : w.posted[i]? = some e) (hle : w.handled ≤ i) :
    ¬w.Cleared e.tag := by
  rintro ⟨j,e',hj,he',ht⟩
  have := h.tag_inj he' hi ht
  omega

theorem Tags.cleared_posted (h : Tags w) {t : ℕ} (ht : w.Cleared t) : w.stage t = .posted := by
  obtain ⟨i,e,-,he,ht⟩ := ht
  exact (h.posted t).mpr ⟨e,List.mem_of_getElem? he,ht⟩

namespace Inv

theorem waiter (hi : Inv w) {t : ℕ} {s : Sub B} (hs : w.sub[t]? = some s) (ht : ¬w.Cleared t) :
    ∃ a c, (w.pos a).point = some (.wait s.req c) ∧ w.serial a = t ∧ c.head = s.head ∧ w.mem.Formatted s.req c ∧
      w.mem.disk s.req.b = true := by
  obtain ⟨a,r,c,hp,ha⟩ := hi.live t (List.getElem?_eq_some_iff.mp hs).1 ht
  obtain ⟨hf,hsub,hd⟩ := hi.fits a _ hp
  rw [ha] at hsub hd
  rw [hs] at hsub
  cases hsub
  exact ⟨a,c,hp,ha,rfl,hf,hd.mpr ht⟩

theorem buf_inj (hi : Inv w) {x y : A} {r r' : Req B} (hx : w.req x = some r) (hy : w.req y = some r') (hb : r.b = r'.b) :
    x = y := by
  have h := hi.owners.own x r hx
  rw [hb,hi.owners.own y r' hy] at h
  exact (Option.some.inj h).symm

/-- The entry of the used ring that the handler is about to handle is the answer to a request whose
process waits for it. -/
theorem answer (hi : Inv w) {id : ℕ} (hp : w.pos a = .locked (.intrClear id)) :
    ∃ e s x c, w.posted[w.handled]? = some e ∧ w.sub[e.tag]? = some s ∧ id = s.head ∧ ¬w.Cleared e.tag ∧
      (w.mem.info s.head).status = 0 ∧ (w.mem.info s.head).b = some s.req.b ∧
      (w.pos x).point = some (.wait s.req c) ∧ w.serial x = e.tag := by
  obtain ⟨e,he,rfl⟩ := hi.fits a _ (by rw [hp]; rfl)
  have hnc := hi.tags.not_cleared he (Nat.le_refl _)
  have hmem := List.mem_of_getElem? he
  obtain ⟨s,hs,hhead⟩ := hi.tags.heads e hmem
  have hdone : (w.stage e.tag).Done := by
    rw [(hi.tags.posted e.tag).mpr ⟨e,hmem,rfl⟩]
    trivial
  obtain ⟨x,c,hx,hserial,hc,hf,-⟩ := hi.waiter hs hnc
  exact ⟨e,s,x,c,he,hs,hhead.symm,hnc,hi.tags.status _ _ hdone hnc hs,hc ▸ hf.b,hx,hserial⟩

theorem safe (hi : Inv w) (hp : w.pos a = .locked k) : k.Safe w.mem := by
  have hfit := hi.fits a k (by rw [hp]; rfl)
  cases k with
  | finish r c =>
    have hc : w.chain a = some c := by simp [World.chain,hp,Pos.point,Point.chain]
    exact ⟨hfit.1,hi.descs.nodup a c hc,fun i hic => (hi.descs.free i).mpr ⟨a,c,hc,hic⟩⟩
  | intrClear id =>
    obtain ⟨e,s,-,-,-,-,hid,-,hstatus,hb,-⟩ := hi.answer hp
    exact ⟨s.head,s.req.b,hid,hstatus,hb⟩
  | _ => trivial

def Open (w : World A B) (t : ℕ) : Prop := t < w.sub.length ∧ ¬w.Cleared t

theorem open_at_most_two (hi : Inv w) {t₀ t₁ t₂ : ℕ} (h₀ : Open w t₀) (h₁ : Open w t₁) (h₂ : Open w t₂) :
    t₀ = t₁ ∨ t₀ = t₂ ∨ t₁ = t₂ := by
  have hwait {t : ℕ} (h : Open w t) : ∃ a c, w.chain a = some c ∧ w.serial a = t := by
    obtain ⟨a,r,c,hp,ha⟩ := hi.live _ h.1 h.2
    exact ⟨a,c,by simp [World.chain,hp,Point.chain],ha⟩
  obtain ⟨a₀,c₀,hc₀,rfl⟩ := hwait h₀
  obtain ⟨a₁,c₁,hc₁,rfl⟩ := hwait h₁
  obtain ⟨a₂,c₂,hc₂,rfl⟩ := hwait h₂
  rcases hi.descs.at_most_two hc₀ hc₁ hc₂ with rfl | rfl | rfl
  · exact .inl rfl
  · exact .inr (.inl rfl)
  · exact .inr (.inr rfl)

theorem unseen_not_cleared (hi : Inv w) {t : ℕ} (ht : w.consumed ≤ t) : ¬w.Cleared t := by
  intro hc
  have h₁ := hi.tags.cleared_posted hc
  rw [(hi.tags.unseen t).mpr ht] at h₁
  cases h₁

theorem avail_room (hi : Inv w) : w.sub.length ≤ w.consumed + 2 := by
  by_contra hlt
  have hopen (i : ℕ) (h : i < 3) : Open w (w.consumed + i) := ⟨by omega,hi.unseen_not_cleared (by omega)⟩
  have := hi.open_at_most_two (hopen 0 (by decide)) (hopen 1 (by decide)) (hopen 2 (by decide))
  omega

theorem used_room (hi : Inv w) : w.posted.length ≤ w.handled + 2 := by
  by_contra hlt
  have hget (i : ℕ) (h : i < 3) : ∃ e, w.posted[w.handled + i]? = some e ∧ Open w e.tag := by
    have hi' : w.handled + i < w.posted.length := by omega
    obtain ⟨s,hs,-⟩ := hi.tags.heads _ (List.getElem_mem hi')
    exact ⟨_,List.getElem?_eq_getElem hi',(List.getElem?_eq_some_iff.mp hs).1,
      hi.tags.not_cleared (List.getElem?_eq_getElem hi') (by omega)⟩
  obtain ⟨e₀,h₀,o₀⟩ := hget 0 (by decide)
  obtain ⟨e₁,h₁,o₁⟩ := hget 1 (by decide)
  obtain ⟨e₂,h₂,o₂⟩ := hget 2 (by decide)
  rcases hi.open_at_most_two o₀ o₁ o₂ with h | h | h
  · have := hi.tags.tag_inj h₀ h₁ h
    omega
  · have := hi.tags.tag_inj h₀ h₂ h
    omega
  · have := hi.tags.tag_inj h₁ h₂ h
    omega

theorem avail_not_full (hi : Inv w) :
    (w.sub.map fun s => s.head.val).length < ((w.sub.map fun s => s.head.val).take w.consumed).length + NUM := by
  have := hi.avail_room
  have := hi.bounds.1
  simp only [List.length_take,List.length_map,NUM]
  omega

theorem used_not_full (hi : Inv w) :
    (w.posted.map Ent.head).length < ((w.posted.map Ent.head).take w.handled).length + NUM := by
  have := hi.used_room
  have := hi.bounds.2
  simp only [List.length_take,List.length_map,NUM]
  omega

end Inv

theorem Owners.not_locked {x : A} (ho : Owners w) (hp : w.pos a = .locked k) (hx : x ≠ a) (k' : Point B) :
    w.pos x ≠ .locked k' := by
  intro h
  have h₁ := (ho.lock a).mpr ⟨k,hp⟩
  rw [(ho.lock x).mpr ⟨k',h⟩] at h₁
  exact hx (Option.some.inj h₁)

theorem Descs.congr (hd : Descs w) (hc : ∀ x, w'.chain x = w.chain x) (hf : w'.mem.free = w.mem.free) : Descs w' := by
  obtain ⟨h₁,h₂,h₃⟩ := hd
  refine ⟨?_,?_,?_⟩
  · intro a c
    rw [hc]
    exact h₁ a c
  · intro a a' c c' i
    rw [hc,hc]
    exact h₂ a a' c c' i
  · intro i
    rw [hf,h₃]
    simp only [hc]

theorem Descs.alloc [DecidableEq A] {c : Chain} (hd : Descs w) (ha : w.chain a = none) (hc : c.descs.Nodup)
    (hfree : ∀ i ∈ c.descs, w.mem.free i = true) (hchain : ∀ x, w'.chain x = if x = a then some c else w.chain x)
    (hf : ∀ i, w'.mem.free i = (w.mem.free i && !decide (i ∈ c.descs))) : Descs w' := by
  obtain ⟨h₁,h₂,h₃⟩ := hd
  have hold (x : A) (c' : Chain) (i : Fin NUM) (hx : w.chain x = some c') (hic : i ∈ c.descs) : i ∉ c'.descs := by
    intro hic'
    have := (h₃ i).mpr ⟨x,c',hx,hic'⟩
    rw [hfree i hic] at this
    cases this
  refine ⟨?_,?_,?_⟩
  · grind
  · grind
  · intro i
    rw [hf]
    by_cases hic : i ∈ c.descs
    · exact iff_of_true (by simp [hic]) ⟨a,c,by rw [hchain,if_pos rfl],hic⟩
    · simp only [hic,decide_false,Bool.not_false,Bool.and_true,h₃]
      grind

theorem Descs.release [DecidableEq A] {c : Chain} (hd : Descs w) (ha : w.chain a = some c)
    (hchain : ∀ x, w'.chain x = if x = a then none else w.chain x)
    (hf : ∀ i, w'.mem.free i = (w.mem.free i || decide (i ∈ c.descs))) : Descs w' := by
  obtain ⟨h₁,h₂,h₃⟩ := hd
  refine ⟨?_,?_,?_⟩
  · grind
  · grind
  · intro i
    rw [hf]
    by_cases hic : i ∈ c.descs
    · refine iff_of_false (by simp [hic]) ?_
      rintro ⟨x,c',hx,hic'⟩
      rw [hchain] at hx
      split at hx
      · cases hx
      · rename_i hne
        exact hne (h₂ _ _ _ _ i hx ha hic' hic)
    · simp only [hic,decide_false,Bool.or_false,h₃]
      grind

/-! ## The lock holder -/

section Run
variable [DecidableEq A]

@[simp] theorem run_mem : (w.run a k n m).mem = m := rfl
@[simp] theorem run_lock : (w.run a k n m).lock = n.lock a := rfl
@[simp] theorem run_pos : (w.run a k n m).pos = update w.pos a n.pos := rfl
@[simp] theorem run_holder : (w.run a k n m).holder = w.holder := by cases k <;> rfl
@[simp] theorem run_seen : (w.run a k n m).seen = w.seen := by cases k <;> rfl
@[simp] theorem run_stage : (w.run a k n m).stage = w.stage := by cases k <;> rfl
@[simp] theorem run_consumed : (w.run a k n m).consumed = w.consumed := by cases k <;> rfl
@[simp] theorem run_commands : (w.run a k n m).commands = w.commands := by cases k <;> rfl
@[simp] theorem run_posted : (w.run a k n m).posted = w.posted := by cases k <;> rfl

theorem run_req (x : A) :
    (w.run a k n m).req x = if x = a then n.pos.point.bind Point.req else w.req x := by
  by_cases hx : x = a <;> simp [World.req,hx]

theorem run_chain (x : A) :
    (w.run a k n m).chain x = if x = a then n.pos.point.bind Point.chain else w.chain x := by
  by_cases hx : x = a <;> simp [World.chain,hx]

variable [DecidableEq B]

theorem Owners.run (ho : Owners w) (hp : w.pos a = .locked k) (he : Effect w.mem k n m) : Owners (w.run a k n m) := by
  refine ⟨fun x => ?_,fun x r hr => ?_,fun x k' hk => ?_⟩
  · by_cases hx : x = a
    · subst hx
      cases n <;> simp [Next.lock,Next.pos]
    · have := ho.not_locked hp hx
      cases n <;> simp [Next.lock,hx,Ne.symm hx,this]
  · rw [run_req] at hr
    rw [run_holder]
    split at hr
    · rename_i hx
      subst hx
      refine ho.own x r ?_
      have hk : w.req x = k.req := by simp [World.req,hp,Pos.point]
      rw [hk]
      cases he <;> first | exact hr | cases hr
    · exact ho.own x r hr
  · by_cases hx : x = a
    · subst hx
      simp only [run_pos,update_self] at hk
      cases he <;> first | (cases hk; exact .inl trivial) | cases hk
    · rw [run_pos,update_of_ne hx] at hk
      exact ho.entry x k' hk

theorem Descs.run (hd : Descs w) (hp : w.pos a = .locked k) (he : Effect w.mem k n m) : Descs (w.run a k n m) := by
  have hk : w.chain a = k.chain := by simp [World.chain,hp,Pos.point]
  have hsame (hn : n.pos.point.bind Point.chain = k.chain) (x : A) : (w.run a k n m).chain x = w.chain x := by
    rw [run_chain]
    split
    · rename_i hx
      rw [hx,hk,hn]
    · rfl
  cases he with
  | @allocated r c hc hfree =>
    exact hd.alloc (a := a) hk hc hfree (fun x => by rw [run_chain]; rfl) fun _ => rfl
  | @finish r c d _ =>
    exact hd.release (a := a) hk (fun x => by rw [run_chain]; rfl) fun _ => rfl
  | exhausted | format | publish | bump | unfinished | finished | ret | more | noMore | intrId | intrClear =>
    exact hd.congr (hsame rfl) rfl

omit [DecidableEq B] in
theorem run_serial {x : A} (hx : x ≠ a) : (w.run a k n m).serial x = w.serial x := by
  cases k <;> simp [World.run,World.note,hx]

omit [DecidableEq B] in
theorem run_sub {t : ℕ} {s : Sub B} (h : w.sub[t]? = some s) : (w.run a k n m).sub[t]? = some s := by
  cases k with
  | bump r c =>
    simp only [World.run,World.note]
    rwa [List.getElem?_append_left (List.getElem?_eq_some_iff.mp h).1]
  | _ => exact h

omit [DecidableEq B] in
theorem run_cleared {t : ℕ} : (w.run a k n m).Cleared t ↔
    w.Cleared t ∨ ∃ id e, k = .intrClear id ∧ w.posted[w.handled]? = some e ∧ e.tag = t := by
  cases k with
  | intrClear id =>
    simp only [World.Cleared,World.run,World.note]
    constructor
    · rintro ⟨i,e,hi,he,ht⟩
      rcases Nat.lt_succ_iff_lt_or_eq.mp hi with hi | rfl
      · exact .inl ⟨i,e,hi,he,ht⟩
      · exact .inr ⟨id,e,rfl,he,ht⟩
    · rintro (⟨i,e,hi,he,ht⟩ | ⟨_,e,-,he,ht⟩)
      · exact ⟨i,e,Nat.lt_succ_of_lt hi,he,ht⟩
      · exact ⟨_,e,Nat.lt_succ_self _,he,ht⟩
  | _ =>
    refine (or_iff_left ?_).symm
    rintro ⟨_,_,h,-⟩
    cases h

namespace Inv

theorem wait_run (hi : Inv w) (hp : w.pos a = .locked k) (he : Effect w.mem k n m) {x : A} (hx : x ≠ a) {r : Req B} {c : Chain}
    (hw : (w.pos x).point = some (.wait r c)) : (Point.wait r c).Fits (w.run a k n m) x := by
  obtain ⟨hf,hsub,hd⟩ := hi.fits x _ hw
  have hreq : w.req x = some r := by simp [World.req,hw,Point.req]
  have hchain : w.chain x = some c := by simp [World.chain,hw,Point.chain]
  refine ⟨he.formatted hf (fun i hic => (hi.descs.free i).mpr ⟨x,c,hchain,hic⟩) fun c' hc' i hic' hic => ?_,?_,?_⟩
  · refine hx (hi.descs.disjoint x a c c' i hchain ?_ hic hic')
    simpa [World.chain,hp,Pos.point] using hc'
  · rw [run_serial hx]
    exact run_sub hsub
  · rw [run_serial hx,run_mem,run_cleared]
    cases he with
    | @format r' c' =>
      have hne : r.b ≠ r'.b := fun h => hx (hi.buf_inj hreq (by simp [World.req,hp,Pos.point,Point.req]) h)
      simpa [Mem.format,hne] using hd
    | @intrClear i b hs hb =>
      obtain ⟨e,s,y,c',he',hs',hid,hnc,-,hb',hy,hserial⟩ := hi.answer hp
      rw [Fin.val_inj] at hid
      rw [hid,hb'] at hb
      cases hb
      by_cases hxy : x = y
      · subst hxy
        rw [hw] at hy
        cases hy
        exact iff_of_false (by simp) (fun h => h (.inr ⟨_,e,rfl,he',hserial.symm⟩))
      · have hne : r.b ≠ s.req.b := fun h =>
          hxy (hi.buf_inj hreq (by simp [World.req,hy,Point.req]) h)
        have htag : e.tag ≠ w.serial x := by
          intro h
          rw [← h,hs'] at hsub
          cases hsub
          exact hne rfl
        simp only [update_of_ne hne,hd]
        refine not_congr (or_iff_left ?_).symm
        rintro ⟨_,e',-,he'',ht⟩
        rw [he'] at he''
        cases he''
        exact htag ht
    | allocated | exhausted | publish | bump | unfinished | finished | finish | ret | more | noMore | intrId =>
      simpa [Mem.without] using hd

theorem own_run (hi : Inv w) (hp : w.pos a = .locked k) (he : Effect w.mem k n m) {k' : Point B}
    (hk : n.pos.point = some k') : k'.Fits (w.run a k n m) a := by
  have hfit := hi.fits a k (by rw [hp]; rfl)
  cases he with
  | allocated | exhausted | intrClear =>
    cases hk
    trivial
  | @format r c =>
    cases hk
    have hc : c.descs.Nodup := hi.descs.nodup a c (by simp [World.chain,hp,Pos.point,Point.chain])
    exact ⟨w.mem.format_formatted r hc,update_self ..⟩
  | @publish r c =>
    cases hk
    exact ⟨hfit.1.congr (fun _ _ => rfl) rfl rfl,hfit.2,update_self ..⟩
  | @bump r c =>
    cases hk
    obtain ⟨hf,hd,-⟩ := hfit
    have hserial : (w.run a (.bump r c) (.goto (.wait r c)) { w.mem with availIdx := w.mem.availIdx + 1 }).serial a =
        w.sub.length := update_self ..
    refine ⟨hf.congr (fun _ _ => rfl) rfl rfl,?_,?_⟩
    · rw [hserial]
      simp [World.run,World.note]
    · rw [hserial,run_cleared]
      refine iff_of_true hd ?_
      rintro (h | ⟨_,_,h,-⟩)
      · exact hi.unseen_not_cleared hi.bounds.1 h
      · cases h
  | @unfinished r c hd =>
    cases hk
    exact hfit
  | @finished r c hd =>
    cases hk
    refine ⟨hfit.1,hfit.2.1,?_⟩
    by_contra hnc
    rw [hfit.2.2.mpr hnc] at hd
    cases hd
  | @finish r c d hd =>
    cases hk
    exact hfit.2
  | ret | noMore => cases hk
  | more hne =>
    cases hk
    have hempty := (not_congr (hi.used.empty_iff (by decide))).mp hne
    have hlt : w.handled < w.posted.length := lt_of_le_of_ne hi.bounds.2 fun h => hempty (by rw [h]; simp)
    exact hlt
  | intrId =>
    cases hk
    have hlt : w.handled < w.posted.length := hfit
    have hlen : ((w.posted.map Ent.head).take w.handled).length = w.handled := by
      rw [List.length_take,List.length_map]
      omega
    have hnext := hi.used.next (by decide) (by rw [hlen,List.length_map]; exact hlt)
    rw [hlen,List.getElem?_map,List.getElem?_eq_getElem hlt] at hnext
    exact ⟨_,List.getElem?_eq_getElem hlt,Option.some.inj hnext⟩

theorem fits_run (hi : Inv w) (hp : w.pos a = .locked k) (he : Effect w.mem k n m) (x : A) (k' : Point B)
    (hk : ((w.run a k n m).pos x).point = some k') : k'.Fits (w.run a k n m) x := by
  by_cases hx : x = a
  · subst hx
    simp only [run_pos,update_self] at hk
    exact hi.own_run hp he hk
  · simp only [run_pos,update_of_ne hx] at hk
    cases hpx : w.pos x with
    | idle =>
      rw [hpx] at hk
      cases hk
    | locked k'' => exact absurd hpx (hi.owners.not_locked hp hx k'')
    | entry k'' =>
      have hsl := hi.owners.entry x _ hpx
      obtain rfl : k'' = k' := by
        rw [hpx] at hk
        exact Option.some.inj hk
      cases k'' with
      | alloc r => trivial
      | wait r c => exact hi.wait_run hp he hx (by rw [hpx]; rfl)
      | intr => trivial
      | _ => rcases hsl with h | h <;> cases h

theorem live_run (hi : Inv w) (hp : w.pos a = .locked k) (he : Effect w.mem k n m) (t : ℕ)
    (ht : t < (w.run a k n m).sub.length) (hnc : ¬(w.run a k n m).Cleared t) :
    ∃ x r c, ((w.run a k n m).pos x).point = some (.wait r c) ∧ (w.run a k n m).serial x = t := by
  have hnc' : ¬w.Cleared t := fun h => hnc (run_cleared.mpr (.inl h))
  by_cases hold : t < w.sub.length
  · obtain ⟨x,r,c,hw,hs⟩ := hi.live t hold hnc'
    by_cases hx : x = a
    · subst hx
      have hfit := hi.fits x _ hw
      rw [hp] at hw
      cases hw
      cases he with
      | unfinished hd => exact ⟨x,r,c,by simp [Next.pos,Pos.point],hs⟩
      | finished hd =>
        rw [hfit.2.2.mpr (hs ▸ hnc')] at hd
        cases hd
    · exact ⟨x,r,c,by rw [run_pos,update_of_ne hx]; exact hw,(run_serial hx).trans hs⟩
  · -- a new submission
    cases k with
    | bump r c =>
      cases he
      refine ⟨a,r,c,by simp [Next.pos,Pos.point],?_⟩
      simp only [World.run,World.note,List.length_append,List.length_singleton] at ht
      simp only [World.run,World.note,update_self]
      omega
    | _ => exact absurd ht hold

theorem avail_run (hi : Inv w) (hp : w.pos a = .locked k) (he : Effect w.mem k n m) :
    Fifo m.availRing w.seen m.availIdx ((w.run a k n m).sub.map fun s => s.head.val)
      (((w.run a k n m).sub.map fun s => s.head.val).take w.consumed) := by
  have hfit := hi.fits a k (by rw [hp]; rfl)
  cases he with
  | publish => exact hi.avail.write (by decide) hi.avail_not_full _
  | @bump r c =>
    obtain ⟨-,-,hslot⟩ := hfit
    have hnew := hi.avail.advance (by decide) hi.avail_not_full hslot
    simp only [World.run,World.note,List.map_append,List.map_cons,List.map_nil]
    rwa [List.take_append_of_le_length (by rw [List.length_map]; exact hi.bounds.1)]
  | allocated | exhausted | format | unfinished | finished | finish | ret | more | noMore | intrId | intrClear =>
    exact hi.avail

theorem used_run (hi : Inv w) (hp : w.pos a = .locked k) (he : Effect w.mem k n m) :
    Fifo m.usedRing m.usedIdx m.deviceIdx (w.posted.map Ent.head)
      ((w.posted.map Ent.head).take (w.run a k n m).handled) := by
  have hfit := hi.fits a k (by rw [hp]; rfl)
  cases he with
  | intrClear =>
    obtain ⟨e,he,-⟩ := hfit
    refine hi.used.take_next (by decide) ?_
    rw [List.length_map]
    exact (List.getElem?_eq_some_iff.mp he).1
  | allocated | exhausted | format | publish | bump | unfinished | finished | finish | ret | more | noMore | intrId =>
    exact hi.used

omit [DecidableEq B] in
theorem bounds_run (hi : Inv w) (hp : w.pos a = .locked k) :
    w.consumed ≤ (w.run a k n m).sub.length ∧ (w.run a k n m).handled ≤ w.posted.length := by
  have hfit := hi.fits a k (by rw [hp]; rfl)
  have hb := hi.bounds
  cases k with
  | bump r c =>
    refine ⟨?_,hb.2⟩
    simp only [World.run,World.note,List.length_append]
    omega
  | intrClear id =>
    obtain ⟨e,he,-⟩ := hfit
    exact ⟨hb.1,(List.getElem?_eq_some_iff.mp he).1⟩
  | _ => exact hb

omit [DecidableEq B] in
theorem sub_of_done (hi : Inv w) {t : ℕ} {s : Sub B} (hd : (w.stage t).Done) (hs : (w.run a k n m).sub[t]? = some s) :
    w.sub[t]? = some s := by
  have hlt : t < w.consumed := by
    by_contra hle
    rw [(hi.tags.unseen t).mpr (by omega)] at hd
    exact hd
  have hget := List.getElem?_eq_getElem (Nat.lt_of_lt_of_le hlt hi.bounds.1)
  rw [run_sub hget] at hs
  rw [hget,hs]

theorem tags_run (hi : Inv w) (hp : w.pos a = .locked k) (he : Effect w.mem k n m) : Tags (w.run a k n m) := by
  obtain ⟨h₁,h₂,h₃,h₄,h₅,h₆,h₇,h₈,h₉,h₁₀⟩ := hi.tags
  refine ⟨?_,?_,?_,?_,?_,?_,?_,?_,?_,?_⟩
  · simpa using h₁
  · intro t h ht
    rw [run_stage] at ht
    obtain ⟨s,hs,hh⟩ := h₂ t h ht
    exact ⟨s,run_sub hs,hh⟩
  · simpa using h₃
  · rw [run_stage,run_mem]
    cases he <;> exact h₄
  · simpa using h₅
  · intro e hm
    rw [run_posted] at hm
    obtain ⟨s,hs,hh⟩ := h₆ e hm
    exact ⟨s,run_sub hs,hh⟩
  · simpa using h₇
  · intro t s hd hs
    rw [run_stage] at hd
    rw [run_commands]
    exact h₈ t s hd (hi.sub_of_done hd hs)
  · simpa using h₉
  · intro t s hd hnc hs
    rw [run_stage] at hd
    have hs := hi.sub_of_done hd hs
    have hnc' : ¬w.Cleared t := fun h => hnc (run_cleared.mpr (.inl h))
    have hold := h₁₀ t s hd hnc' hs
    rw [run_mem]
    cases he with
    | @format r c =>
      -- the head belongs to another process
      obtain ⟨x,c',hx,-,hc',-⟩ := hi.waiter hs hnc'
      have hne : s.head ≠ c.head := by
        intro h
        have := hi.descs.disjoint x a c' c s.head (by simp [World.chain,hx,Point.chain])
          (by simp [World.chain,hp,Pos.point,Point.chain]) (by simp [hc']) (by simp [h])
        subst this
        rw [hp] at hx
        cases hx
      simpa [Mem.format,hne] using hold
    | @finish r c d _ =>
      by_cases hh : s.head = c.head
      · rw [hh] at hold
        simpa [hh] using hold
      · simpa [hh] using hold
    | allocated | exhausted | publish | bump | unfinished | finished | ret | more | noMore | intrId | intrClear =>
      exact hold

theorem run (hi : Inv w) (hp : w.pos a = .locked k) (he : Effect w.mem k n m) : Inv (w.run a k n m) where
  owners := hi.owners.run hp he
  descs := hi.descs.run hp he
  fits := hi.fits_run hp he
  live := hi.live_run hp he
  avail := by
    rw [run_mem,run_seen,run_consumed]
    exact hi.avail_run hp he
  used := by
    rw [run_mem,run_posted]
    exact hi.used_run hp he
  tags := hi.tags_run hp he
  bounds := by
    rw [run_consumed,run_posted]
    exact hi.bounds_run hp

end Inv

end Run

/-! ## The device -/

structure Quiet (w w' : World A B) : Prop where
  pos : w'.pos = w.pos
  lock : w'.lock = w.lock
  holder : w'.holder = w.holder
  serial : w'.serial = w.serial
  sub : w'.sub = w.sub
  handled : w'.handled = w.handled
  posted : w.posted <+: w'.posted
  desc : w'.mem.desc = w.mem.desc
  free : w'.mem.free = w.mem.free
  ops : w'.mem.ops = w.mem.ops
  b : ∀ i, (w'.mem.info i).b = (w.mem.info i).b
  disk : w'.mem.disk = w.mem.disk
  availRing : w'.mem.availRing = w.mem.availRing
  availIdx : w'.mem.availIdx = w.mem.availIdx

theorem Quiet.cleared (h : Quiet w w') (hle : w.handled ≤ w.posted.length) (t : ℕ) : w'.Cleared t ↔ w.Cleared t := by
  obtain ⟨l,hl⟩ := h.posted
  constructor
  · rintro ⟨i,e,hi,he,ht⟩
    rw [h.handled] at hi
    rw [← hl,List.getElem?_append_left (by omega)] at he
    exact ⟨i,e,hi,he,ht⟩
  · rintro ⟨i,e,hi,he,ht⟩
    refine ⟨i,e,by rwa [h.handled],?_,ht⟩
    rwa [← hl,List.getElem?_append_left (by omega)]

theorem Quiet.fits (h : Quiet w w') (hle : w.handled ≤ w.posted.length) (hf : k.Fits w a) : k.Fits w' a := by
  have hform {r : Req B} {c : Chain} (hf : w.mem.Formatted r c) : w'.mem.Formatted r c :=
    hf.congr (fun i _ => by rw [h.desc]) (by rw [h.ops]) (h.b _)
  obtain ⟨l,hl⟩ := h.posted
  cases k with
  | publish r c => exact ⟨hform hf.1,by rw [h.disk]; exact hf.2⟩
  | bump r c => exact ⟨hform hf.1,by rw [h.disk]; exact hf.2.1,by rw [h.availRing,h.availIdx]; exact hf.2.2⟩
  | wait r c =>
    refine ⟨hform hf.1,by rw [h.sub,h.serial]; exact hf.2.1,?_⟩
    rw [h.disk,h.serial,h.cleared hle]
    exact hf.2.2
  | finish r c =>
    refine ⟨hform hf.1,by rw [h.sub,h.serial]; exact hf.2.1,?_⟩
    rw [h.serial,h.cleared hle]
    exact hf.2.2
  | ret r c =>
    refine ⟨by rw [h.sub,h.serial]; exact hf.1,?_⟩
    rw [h.serial,h.cleared hle]
    exact hf.2
  | intrId =>
    simp only [Point.Fits] at hf ⊢
    rw [h.handled,← hl,List.length_append]
    omega
  | intrClear id =>
    obtain ⟨e,he,hid⟩ := hf
    refine ⟨e,?_,hid⟩
    rwa [h.handled,← hl,List.getElem?_append_left (List.getElem?_eq_some_iff.mp he).1]
  | alloc | format | intr => trivial

namespace Inv

theorem quiet (hi : Inv w) (h : Quiet w w')
    (havail : Fifo w.mem.availRing w'.seen w.mem.availIdx (w.sub.map fun s => s.head.val)
      ((w.sub.map fun s => s.head.val).take w'.consumed))
    (hused : Fifo w'.mem.usedRing w'.mem.usedIdx w'.mem.deviceIdx (w'.posted.map Ent.head)
      ((w'.posted.map Ent.head).take w.handled))
    (htags : Tags w') (hconsumed : w'.consumed ≤ w.sub.length) : Inv w' where
  owners := by
    obtain ⟨h₁,h₂,h₃⟩ := hi.owners
    refine ⟨?_,?_,?_⟩
    · rw [h.lock,h.pos]
      exact h₁
    · simp only [World.req,h.pos,h.holder]
      exact h₂
    · rw [h.pos]
      exact h₃
  descs := hi.descs.congr (fun x => by simp only [World.chain,h.pos]) h.free
  fits := fun x k hk => by
    rw [h.pos] at hk
    exact h.fits hi.bounds.2 (hi.fits x k hk)
  live := fun t ht hnc => by
    rw [h.sub] at ht
    rw [h.cleared hi.bounds.2] at hnc
    rw [h.pos,h.serial]
    exact hi.live t ht hnc
  avail := by
    rw [h.sub,h.availRing,h.availIdx]
    exact havail
  used := by
    rw [h.handled]
    exact hused
  tags := htags
  bounds := by
    rw [h.sub,h.handled]
    exact ⟨hconsumed,hi.bounds.2.trans h.posted.length_le⟩

theorem consume (hi : Inv w) (hne : w.seen ≠ w.mem.availIdx) : Inv { w with
    seen := w.seen + 1
    stage := update w.stage w.consumed (.pending (w.mem.availRing (Mem.slot w.seen)))
    consumed := w.consumed + 1 } := by
  have hlt : w.consumed < w.sub.length := by
    refine lt_of_le_of_ne hi.bounds.1 fun h => hne ?_
    rw [hi.avail.empty_iff (by decide),h]
    simp
  have hlen : ((w.sub.map fun s => s.head.val).take w.consumed).length = w.consumed := by
    rw [List.length_take,List.length_map]
    omega
  have hnext := hi.avail.next (by decide) (by rw [hlen,List.length_map]; exact hlt)
  rw [hlen,List.getElem?_map,List.getElem?_eq_getElem hlt] at hnext
  have hhead : (w.sub[w.consumed]).head.val = w.mem.availRing (Mem.slot w.seen) := Option.some.inj hnext
  have hunseen := (hi.tags.unseen w.consumed).mpr (Nat.le_refl _)
  refine hi.quiet (by constructor <;> first | rfl | exact List.prefix_refl _ | exact fun _ => rfl)
    (hi.avail.take_next (by decide) (by rw [List.length_map]; exact hlt)) hi.used ?_ hlt
  obtain ⟨h₁,h₂,h₃,h₄,h₅,h₆,h₇,h₈,h₉,h₁₀⟩ := hi.tags
  have hget := List.getElem?_eq_getElem hlt
  constructor <;> simp only [update_apply]
  · grind
  · grind [Stage.head]
  · grind
  · grind
  · grind
  · exact h₆
  · exact h₇
  · grind [Stage.Done]
  · grind [Stage.Done]
  · intro t s hd hnc hs
    change ¬w.Cleared t at hnc
    grind [Stage.Done]

theorem command_eq (hi : Inv w) {tag head : ℕ} {r : Req B} {i : Fin NUM} (ht : w.stage tag = .pending head)
    (hc : w.mem.command head = some (r,i)) : ∃ s, w.sub[tag]? = some s ∧ s.req = r ∧ s.head = i := by
  obtain ⟨s,hs,rfl⟩ := hi.tags.head tag head (by rw [ht]; rfl)
  have hnc : ¬w.Cleared tag := by
    intro h
    have := hi.tags.cleared_posted h
    rw [ht] at this
    cases this
  obtain ⟨x,c,-,-,hhead,hf,-⟩ := hi.waiter hs hnc
  rw [← hhead,hf.command] at hc
  cases hc
  exact ⟨s,hs,rfl,hhead.symm⟩

theorem perform (hi : Inv w) {tag head : ℕ} {r : Req B} {i : Fin NUM} (ht : w.stage tag = .pending head)
    (hc : w.mem.command head = some (r,i)) : Inv { w with
      mem := { w.mem with info := update w.mem.info i { w.mem.info i with status := 0 } }
      stage := update w.stage tag (.performed head)
      commands := w.commands ++ [(tag,r)] } := by
  obtain ⟨s,hs,rfl,rfl⟩ := hi.command_eq ht hc
  refine hi.quiet (by
    constructor
    case b =>
      intro j
      by_cases hj : j = s.head <;> simp [hj]
    all_goals rfl) hi.avail hi.used ?_ hi.bounds.1
  obtain ⟨h₁,h₂,h₃,h₄,h₅,h₆,h₇,h₈,h₉,h₁₀⟩ := hi.tags
  constructor <;> simp only [update_apply]
  · grind
  · grind [Stage.head]
  · grind
  · grind
  · grind
  · exact h₆
  · exact h₇
  · grind [Stage.Done]
  · constructor
    · rw [List.map_append,List.nodup_append]
      refine ⟨h₉.1,by simp,?_⟩
      grind [Stage.Done]
    · grind [Stage.Done]
  · intro t s' hd hnc hs'
    change ¬w.Cleared t at hnc
    grind [Stage.Done]

theorem post (hi : Inv w) {tag head : ℕ} (ht : w.stage tag = .performed head) (hone : ∀ t h, w.stage t ≠ .posting h) :
    Inv { w with
      mem := { w.mem with usedRing := update w.mem.usedRing (Mem.slot w.mem.deviceIdx) head }
      stage := update w.stage tag (.posting head) } := by
  refine hi.quiet (by constructor <;> first | rfl | exact List.prefix_refl _ | exact fun _ => rfl) hi.avail
    (hi.used.write (by decide) hi.used_not_full _) ?_ hi.bounds.1
  obtain ⟨h₁,h₂,h₃,h₄,h₅,h₆,h₇,h₈,h₉,h₁₀⟩ := hi.tags
  constructor <;> simp only [update_apply]
  · grind
  · grind [Stage.head]
  · grind
  · grind
  · grind
  · exact h₆
  · exact h₇
  · grind [Stage.Done]
  · grind [Stage.Done]
  · intro t s hd hnc hs
    change ¬w.Cleared t at hnc
    grind [Stage.Done]

theorem posted (hi : Inv w) {tag head : ℕ} (ht : w.stage tag = .posting head) : Inv { w with
    mem := { w.mem with deviceIdx := w.mem.deviceIdx + 1 }
    stage := update w.stage tag .posted
    posted := w.posted ++ [⟨tag,head⟩] } := by
  have hq : Quiet w { w with
      mem := { w.mem with deviceIdx := w.mem.deviceIdx + 1 }
      stage := update w.stage tag .posted
      posted := w.posted ++ [⟨tag,head⟩] } := by
    constructor <;> first | rfl | exact List.prefix_append _ _ | exact fun _ => rfl
  obtain ⟨s,hs,hh⟩ := hi.tags.head tag head (by rw [ht]; rfl)
  refine hi.quiet hq hi.avail ?_ ?_ hi.bounds.1
  · have hnew := hi.used.advance (by decide) hi.used_not_full (hi.tags.slot tag head ht)
    rw [List.map_append,List.take_append_of_le_length (by rw [List.length_map]; exact hi.bounds.2)]
    exact hnew
  obtain ⟨h₁,h₂,h₃,h₄,h₅,h₆,h₇,h₈,h₉,h₁₀⟩ := hi.tags
  constructor
  case nodup =>
    rw [List.map_append,List.nodup_append]
    refine ⟨h₇,by simp,?_⟩
    grind
  case status =>
    intro t s hd hnc hs
    rw [hq.cleared hi.bounds.2] at hnc
    simp only [update_apply] at hd
    grind [Stage.Done]
  case posted =>
    intro t
    simp only [update_apply,List.mem_append,List.mem_singleton,or_and_right,exists_or,exists_eq_left,← h₅]
    split
    · rename_i h
      exact iff_of_true rfl (.inr h.symm)
    · rename_i h
      exact (or_iff_left fun h' => h h'.symm).symm
  all_goals simp only [update_apply]
  · grind
  · grind [Stage.head]
  · grind
  · grind
  · grind
  · grind [Stage.Done]
  · grind [Stage.Done]

/-! ## Every run -/

theorem moved (hi : Inv w) {l : Option A} {h : B → Option A} {p : A → Pos B}
    (ho : Owners { w with lock := l, holder := h, pos := p })
    (hp : ∀ x, (p x).point = (w.pos x).point ∨
      (w.pos x).point = none ∧ ((p x).point = some .intr ∨ ∃ r, (p x).point = some (.alloc r))) :
    Inv { w with lock := l, holder := h, pos := p } where
  owners := ho
  descs := hi.descs.congr (fun x => by
    simp only [World.chain]
    rcases hp x with h | ⟨h,h' | ⟨r,h'⟩⟩
    · rw [h]
    · rw [h,h']
      rfl
    · rw [h,h']
      rfl) rfl
  fits := fun x k hk => by
    rcases hp x with h | ⟨-,h | ⟨r,h⟩⟩
    · exact hi.fits x k (h ▸ hk)
    · rw [show (p x).point = some k from hk] at h
      cases h
      trivial
    · rw [show (p x).point = some k from hk] at h
      cases h
      trivial
  live := fun t ht hnc => by
    obtain ⟨x,r,c,hx,hs⟩ := hi.live t ht hnc
    refine ⟨x,r,c,?_,hs⟩
    rcases hp x with h | ⟨h,-⟩
    · exact h.trans hx
    · rw [hx] at h
      cases h
  avail := hi.avail
  used := hi.used
  tags :=
    let ⟨h₁,h₂,h₃,h₄,h₅,h₆,h₇,h₈,h₉,h₁₀⟩ := hi.tags
    ⟨h₁,h₂,h₃,h₄,h₅,h₆,h₇,h₈,h₉,h₁₀⟩
  bounds := hi.bounds

end Inv

section Runs
variable [DecidableEq A] [DecidableEq B]

omit [DecidableEq B] in
theorem Owners.enter (ho : Owners w) (hidle : w.pos a = .idle) (hr : ∀ r, k.req = some r → w.holder r.b = some a)
    (hk : k.Sleeps ∨ k = .intr) : Owners { w with pos := update w.pos a (.entry k) } := by
  obtain ⟨h₁,h₂,h₃⟩ := ho
  simp only [World.req] at h₂
  refine ⟨?_,?_,?_⟩ <;> simp only [World.req,update_apply]
  · grind
  · intro x r hx
    split at hx
    · rename_i h
      rw [h]
      exact hr r hx
    · exact h₂ x r hx
  · grind

omit [DecidableEq B] in
theorem Owners.acquire (ho : Owners w) (hp : w.pos a = .entry k) (hl : w.lock = none) :
    Owners { w with lock := some a, pos := update w.pos a (.locked k) } := by
  obtain ⟨h₁,h₂,h₃⟩ := ho
  simp only [World.req] at h₂
  refine ⟨?_,?_,?_⟩ <;> simp only [World.req,update_apply]
  · intro x
    split
    · rename_i h
      exact iff_of_true (congrArg some h.symm) ⟨k,rfl⟩
    · rename_i h
      rw [← h₁,hl]
      exact iff_of_false (fun h' => h (Option.some.inj h').symm) (by simp)
  · intro x r hx
    refine h₂ x r ?_
    split at hx
    · rename_i h
      rw [h,hp]
      exact hx
    · exact hx
  · grind

theorem Step.inv (hs : Step w w') (hi : Inv w) : Inv w' := by
  obtain ⟨h₁,h₂,h₃⟩ := hi.owners
  cases hs with
  | @acquiresleep a b hb =>
    refine hi.moved ⟨h₁,fun x r hr => ?_,h₃⟩ fun x => .inl rfl
    have hx := h₂ x r hr
    have hne : r.b ≠ b := by
      rintro rfl
      rw [hb] at hx
      cases hx
    simpa [hne] using hx
  | @releasesleep a b hb hidle =>
    refine hi.moved ⟨h₁,fun x r hr => ?_,h₃⟩ fun x => .inl rfl
    have hx := h₂ x r hr
    have hne : r.b ≠ b := by
      rintro rfl
      rw [hb] at hx
      cases hx
      simp [World.req,hidle,Pos.point] at hr
    simpa [hne] using hx
  | @call a b blockno write hidle hb =>
    refine hi.moved (hi.owners.enter hidle (fun r hr => by cases hr; exact hb) (.inl trivial)) fun x => ?_
    by_cases hx : x = a
    · subst hx
      exact .inr ⟨by rw [hidle]; rfl,.inr ⟨.of b blockno write,by simp [Pos.point]⟩⟩
    · exact .inl (by simp [hx])
  | @intr a hidle =>
    refine hi.moved (hi.owners.enter hidle (fun r hr => by cases hr) (.inr rfl)) fun x => ?_
    by_cases hx : x = a
    · subst hx
      exact .inr ⟨by rw [hidle]; rfl,.inl (by simp [Pos.point])⟩
    · exact .inl (by simp [hx])
  | @acquire a k hp hl =>
    refine hi.moved (hi.owners.acquire hp hl) fun x => .inl ?_
    by_cases hx : x = a
    · subst hx
      simp [hp,Pos.point]
    · simp [hx]
  | @exec a k n m hp he => exact hi.run hp ((hi.safe hp).effect he)
  | consume hne => exact hi.consume hne
  | perform ht hc => exact hi.perform ht hc
  | post ht hone => exact hi.post ht hone
  | posted ht => exact hi.posted ht

omit [DecidableEq A] [DecidableEq B] in
theorem Initial.inv (h : Initial w) : Inv w where
  owners := ⟨fun a => by simp [h.lock,h.pos],fun a r hr => by simp [World.req,h.pos,Pos.point] at hr,
    fun a k hk => by simp [h.pos] at hk⟩
  descs := ⟨fun a c hc => by simp [World.chain,h.pos,Pos.point] at hc,
    fun a _ c _ _ hc => by simp [World.chain,h.pos,Pos.point] at hc,
    fun i => by simp [World.chain,h.pos,h.free,Pos.point]⟩
  fits := fun a k hk => by simp [h.pos,Pos.point] at hk
  live := fun t ht => by simp [h.sub] at ht
  avail := by
    rw [h.seen,h.availIdx,h.sub,h.consumed]
    exact ⟨rfl,rfl,List.prefix_refl _,Nat.zero_le _,fun k x _ hx => by simp at hx⟩
  used := by
    rw [h.usedIdx,h.deviceIdx,h.posted,h.handled]
    exact ⟨rfl,rfl,List.prefix_refl _,Nat.zero_le _,fun k x _ hx => by simp at hx⟩
  tags := by
    constructor <;> simp [h.stage,h.consumed,h.posted,h.commands,h.sub,Stage.head,Stage.Done]
  bounds := by simp [h.consumed,h.handled]

theorem Reachable.inv (h : Reachable w) : Inv w := by
  induction h with
  | init h => exact h.inv
  | step _ hs ih => exact hs.inv ih

theorem Step.disk (hs : Step w w') (hi : Inv w) {b : B} (hb : w.mem.disk b = true) (hb' : w'.mem.disk b = false) :
    ∃ a id, w.pos a = .locked (.intrClear id) ∧ w'.mem.disk = update w.mem.disk b false ∧
      w'.handled = w.handled + 1 := by
  cases hs with
  | @exec a k n m hp he =>
    have heff := (hi.safe hp).effect he
    rw [run_mem] at hb' ⊢
    cases heff with
    | @format r c =>
      refine absurd hb' ?_
      simp only [Mem.format,update_apply]
      split <;> simp [hb]
    | @intrClear i b' _ _ =>
      obtain rfl : b = b' := by
        by_contra hne
        simp only [update_of_ne hne,hb] at hb'
        cases hb'
      exact ⟨a,i,hp,rfl,rfl⟩
    | allocated | exhausted | publish | bump | unfinished | finished | finish | ret | more | noMore | intrId =>
      refine absurd hb' ?_
      simp [Mem.without,hb]
  | _ =>
    rw [show _ = true from hb] at hb'
    cases hb'

structure Sound (w : World A B) : Prop where
  desc : ∀ i, w.mem.free i = true ∧ (∀ a c, w.chain a = some c → i ∉ c.descs) ∨
    w.mem.free i = false ∧ ∃! a, ∃ c, w.chain a = some c ∧ i ∈ c.descs
  three : ∀ a c, w.chain a = some c → c.descs.Nodup
  two : ∀ a₁ a₂ a₃, (w.chain a₁).isSome → (w.chain a₂).isSome → (w.chain a₃).isSome → a₁ = a₂ ∨ a₁ = a₃ ∨ a₂ = a₃
  /-- the slot that is about to be written holds no entry that the device has not consumed -/
  publish : ∀ a r c, w.pos a = .locked (.publish r c) → ∀ t, w.consumed ≤ t → t < w.sub.length →
    Fin.ofNat NUM t ≠ Mem.slot w.mem.availIdx
  avail : ∀ t s, w.consumed ≤ t → w.sub[t]? = some s → w.mem.availRing (Fin.ofNat NUM t) = s.head
  consumed : ∀ t h, (w.stage t).head = some h → ∃ s, w.sub[t]? = some s ∧ s.head = h
  /-- each submission is answered at most once, and no answer is overwritten before it is handled -/
  answers : (w.posted.map Ent.tag).Nodup
  used : ∀ i e, w.handled ≤ i → w.posted[i]? = some e → w.mem.usedRing (Fin.ofNat NUM i) = e.head
  /-- the loop of the handler ends when it has handled every answer -/
  all : w.mem.usedIdx = w.mem.deviceIdx ↔ w.handled = w.posted.length
  /-- an answer is handled once, in its turn, and clears the buffer of the process that waits for it -/
  clear : ∀ a id, w.pos a = .locked (.intrClear id) → ∃ e s x c, w.posted[w.handled]? = some e ∧
    w.sub[e.tag]? = some s ∧ (w.pos x).point = some (.wait s.req c) ∧ w.serial x = e.tag ∧
    (Point.intrClear id).exec w.mem = .ok (.goto .intr,{ w.mem with
      disk := update w.mem.disk s.req.b false, usedIdx := w.mem.usedIdx + 1 })
  only : ∀ w', Step w w' → ∀ b, w.mem.disk b = true → w'.mem.disk b = false →
    ∃ a id, w.pos a = .locked (.intrClear id) ∧ w'.mem.disk = update w.mem.disk b false ∧
      w'.handled = w.handled + 1
  /-- a request is carried out once, as it was asked for, before `virtio_disk_rw` returns -/
  ret : ∀ a r c, w.pos a = .locked (.finish r c) ∨ w.pos a = .locked (.ret r c) →
    w.sub[w.serial a]? = some ⟨r,c.head⟩ ∧ w.Cleared (w.serial a) ∧ (w.serial a,r) ∈ w.commands
  once : (w.commands.map Prod.fst).Nodup
  no_panic : ∀ a k, w.pos a = .locked k → ∃ o, k.exec w.mem = .ok o

theorem disk_requests_sound (h : Reachable w) : Sound w := by
  have hi := h.inv
  refine ⟨fun i => ?_,hi.descs.nodup,fun a₁ a₂ a₃ h₁ h₂ h₃ => ?_,?_,?_,hi.tags.head,hi.tags.nodup,?_,?_,?_,
    fun w' hs b => hs.disk hi,?_,hi.tags.once.1,?_⟩
  · cases hf : w.mem.free i with
    | false =>
      obtain ⟨a,c,hc,hic⟩ := (hi.descs.free i).mp hf
      exact .inr ⟨rfl,a,⟨c,hc,hic⟩,fun a' ⟨c',hc',hic'⟩ => hi.descs.disjoint a' a c' c i hc' hc hic' hic⟩
    | true =>
      refine .inl ⟨rfl,fun a c hc hic => ?_⟩
      rw [(hi.descs.free i).mpr ⟨a,c,hc,hic⟩] at hf
      cases hf
  · obtain ⟨c₁,h₁⟩ := Option.isSome_iff_exists.mp h₁
    obtain ⟨c₂,h₂⟩ := Option.isSome_iff_exists.mp h₂
    obtain ⟨c₃,h₃⟩ := Option.isSome_iff_exists.mp h₃
    exact hi.descs.at_most_two h₁ h₂ h₃
  · intro a r c _ t ht hlt
    refine hi.avail.free_slot (by decide) hi.avail_not_full ?_ (by rwa [List.length_map])
    rw [List.length_take]
    omega
  · intro t s ht hs
    refine hi.avail.slots t _ ?_ ?_
    · rw [List.length_take]
      omega
    · rw [List.getElem?_map,hs]
      rfl
  · intro i e hle he
    refine hi.used.slots i _ ?_ ?_
    · rw [List.length_take]
      omega
    · rw [List.getElem?_map,he]
      rfl
  · have hle := hi.bounds.2
    rw [hi.used.empty_iff (by decide),List.take_eq_self_iff,List.length_map]
    omega
  · intro a id hp
    obtain ⟨e,s,x,c,he,hs,hid,-,hstatus,hb,hx,hserial⟩ := hi.answer hp
    refine ⟨e,s,x,c,he,hs,hx,hserial,?_⟩
    subst hid
    simp [Point.exec,hstatus,hb]
  · intro a r c hp
    have hsent : w.sub[w.serial a]? = some ⟨r,c.head⟩ ∧ w.Cleared (w.serial a) := by
      rcases hp with hp | hp
      · exact (hi.fits a (.finish r c) (by rw [hp]; rfl)).2
      · exact hi.fits a (.ret r c) (by rw [hp]; rfl)
    refine ⟨hsent.1,hsent.2,hi.tags.commands _ _ ?_ hsent.1⟩
    rw [hi.tags.cleared_posted hsent.2]
    trivial
  · intro a k hp
    obtain ⟨n,m,he,-⟩ := (hi.safe hp).exec
    exact ⟨_,he⟩

end Runs

end Invariant

section Sample

def boot : World (Fin 2) (Fin 1) where
  mem := {
    desc := fun _ => .zero, availRing := fun _ => 0, availIdx := 0, usedRing := fun _ => 0, deviceIdx := 0
    free := fun _ => true, usedIdx := 0, info := fun _ => ⟨none,0⟩, ops := fun _ => ⟨0,0,0⟩, disk := fun _ => false }
  lock := none
  holder := fun _ => none
  pos := fun _ => .idle
  seen := 0
  stage := fun _ => .unseen
  sub := []
  serial := fun _ => 0
  consumed := 0
  commands := []
  posted := []
  handled := 0

theorem boot_initial : Initial boot := by
  constructor <;> intros <;> rfl

theorem exec_intrClear {B : Type} [DecidableEq B] {m : Mem B} {b : B} {id : ℕ} (h : id < NUM)
    (hs : (m.info ⟨id,h⟩).status = 0) (hb : (m.info ⟨id,h⟩).b = some b) :
    (Point.intrClear id : Point B).exec m =
      .ok (.goto .intr,{ m with disk := update m.disk b false, usedIdx := m.usedIdx + 1 }) := by
  simp [Point.exec,h,hs,hb]

theorem read_returns : ∃ w : World (Fin 2) (Fin 1), Reachable w ∧ w.pos 0 = .locked (.ret (.of 0 1 false) ⟨0,1,2⟩) := by
  have h₁ := (Reachable.init boot_initial).step (.acquiresleep 0 (b := 0) rfl)
  have h₂ := h₁.step (.call (a := 0) (b := 0) 1 false rfl rfl)
  have h₃ := h₂.step (.acquire (a := 0) rfl rfl)
  have h₄ := h₃.step (.exec (a := 0) rfl rfl)
  have h₅ := h₄.step (.exec (a := 0) rfl rfl)
  have h₆ := h₅.step (.exec (a := 0) rfl rfl)
  have h₇ := h₆.step (.exec (a := 0) rfl rfl)
  have h₈ := h₇.step (.exec (a := 0) rfl rfl)
  -- the device takes the request, performs it and posts its answer
  have h₉ := h₈.step (.consume (by decide))
  have h₁₀ := h₉.step (@Step.perform _ _ _ _ _ 0 0 (.of 0 1 false) 0 rfl (by with_unfolding_all rfl))
  have h₁₁ := h₁₀.step (@Step.post _ _ _ _ _ 0 0 rfl (fun t k hk => by
    change update (update _ 0 _) 0 _ t = _ at hk
    by_cases ht : t = 0 <;> simp [ht,boot] at hk))
  have h₁₂ := h₁₁.step (@Step.posted _ _ _ _ _ 0 0 rfl)
  -- the other process is interrupted
  have h₁₃ := h₁₂.step (.intr (a := 1) rfl)
  have h₁₄ := h₁₃.step (.acquire (a := 1) rfl rfl)
  have h₁₅ := h₁₄.step (.exec (a := 1) rfl rfl)
  have h₁₆ := h₁₅.step (.exec (a := 1) rfl rfl)
  have h₁₇ := h₁₆.step (.exec (a := 1) rfl (exec_intrClear (b := 0) (by decide) rfl rfl))
  have h₁₈ := h₁₇.step (.exec (a := 1) rfl rfl)
  have h₁₉ := h₁₈.step (.acquire (a := 0) rfl rfl)
  have h₂₀ := h₁₉.step (.exec (a := 0) rfl rfl)
  have h₂₁ := h₂₀.step (.exec (a := 0) rfl rfl)
  exact ⟨_,h₂₁,rfl⟩

theorem disk_requests_sound_read : ∃ w : World (Fin 2) (Fin 1), Reachable w ∧
    w.pos 0 = .locked (.ret (.of 0 1 false) ⟨0,1,2⟩) ∧ (w.serial 0,.of 0 1 false) ∈ w.commands ∧ Sound w := by
  obtain ⟨w,h,hpos⟩ := read_returns
  have hs := disk_requests_sound h
  exact ⟨w,h,hpos,(hs.ret 0 _ _ (.inr hpos)).2.2,hs⟩

end Sample

end Xv6.Virtio
