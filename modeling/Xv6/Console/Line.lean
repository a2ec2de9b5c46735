import Xv6.Console.Code
import Xv6.Library.Fifo

/-! # The line discipline

The abstract console holds a queue of committed bytes and the line that is being edited.
The ring of `console.c` holds the two one behind the other, between its three indices.
-/
namespace Xv6.Console
open Library

/-! ## The abstract console -/

structure Line where
  queue : List Byte
  edit : List Byte
  deriving DecidableEq

def Line.input (l : Line) (c : Byte) : Line :=
  if c = ctrl 'P' ∨ c = 0 then l
  else if c = ctrl 'U' then { l with edit := [] }
  else if c = ctrl 'H' ∨ c = delete then { l with edit := l.edit.dropLast }
  else if l.queue.length + l.edit.length < INPUT_BUF_SIZE then
    let c := if c = carriage then newline else c
    let edit := l.edit ++ [c]
    if c = newline ∨ c = ctrl 'D' ∨ l.queue.length + edit.length = INPUT_BUF_SIZE then ⟨l.queue ++ edit,[]⟩
    else ⟨l.queue,edit⟩
  else l

/-- A read of at most `n` bytes to `dst`, and the bytes it has got. -/
structure Piece where
  dst : ℕ
  n : ℕ
  out : List Byte
  deriving DecidableEq

/-- A read takes bytes off the queue; the result says whether it has come to its end. -/
def Piece.fetch (p : Piece) : List Byte → Piece × List Byte × Bool
  | [] => (p,[],false)
  | c :: queue =>
    if c = ctrl 'D' then (p,if p.out.isEmpty then queue else c :: queue,true)
    else
      let p := { p with out := p.out ++ [c] }
      if c = newline ∨ p.out.length = p.n then (p,queue,true) else p.fetch queue

/-- The discipline with all that has been committed and all that has been read. -/
structure Disc where
  line : Line
  committed : List Byte
  reading : Option Piece
  returned : List Piece
  deriving DecidableEq

def Disc.start : Disc := ⟨⟨[],[]⟩,[],none,[]⟩

def Disc.step (d : Disc) : Event → Disc
  | .intr c =>
    { d with line := d.line.input c, committed := d.committed ++ (d.line.input c).queue.drop d.line.queue.length }
  | .read dst n => { d with reading := some ⟨dst,n,[]⟩ }
  | .run =>
    match d.reading with
    | none => d
    | some p =>
      match p.fetch d.line.queue with
      | (p,queue,true) => { d with line := { d.line with queue := queue }, reading := none, returned := d.returned ++ [p] }
      | (p,queue,false) => { d with line := { d.line with queue := queue }, reading := some p }

def Disc.run (es : List Event) : Disc := es.foldl Disc.step Disc.start

def Plain (p : List Byte) : Prop := newline ∉ p ∧ ctrl 'D' ∉ p

/-- A read of `n` bytes from the stream `s` returns `out` and leaves the rest. -/
inductive Reads (n : ℕ) : List Byte → List Byte → List Byte → Prop
  /-- `n` bytes -/
  | full {p s : List Byte} (hp : Plain p) (hlen : p.length = n) : Reads n (p ++ s) p s
  | line {p s : List Byte} (hp : Plain p) (hlen : p.length < n) : Reads n (p ++ newline :: s) (p ++ [newline]) s
  /-- what stands before a control-D, which is left in the stream -/
  | before {p s : List Byte} (hp : Plain p) (hlen : p.length < n) (hne : p ≠ []) : Reads n (p ++ ctrl 'D' :: s) p (ctrl 'D' :: s)
  /-- end of file: a control-D that comes first is taken -/
  | eof {s : List Byte} (hpos : 0 < n) : Reads n (ctrl 'D' :: s) [] s

inductive Pieces (s : List Byte) : List Piece → List Byte → Prop
  | nil : Pieces s [] s
  | snoc {l : List Piece} {p : Piece} {s₁ s₂ : List Byte} (h : Pieces s l s₁) (hp : Reads p.n s₁ p.out s₂) :
    Pieces s (l ++ [p]) s₂

theorem Reads.append {n : ℕ} {s out rest : List Byte} (h : Reads n s out rest) (x : List Byte) :
    Reads n (s ++ x) out (rest ++ x) := by
  cases h with
  | full hp hlen =>
    rw [List.append_assoc]
    exact .full hp hlen
  | line hp hlen =>
    rw [List.append_assoc]
    exact .line hp hlen
  | before hp hlen hne =>
    rw [List.append_assoc]
    exact .before hp hlen hne
  | eof hpos => exact .eof hpos

theorem Pieces.append {s rest : List Byte} {l : List Piece} (h : Pieces s l rest) (x : List Byte) :
    Pieces (s ++ x) l (rest ++ x) := by
  induction h with
  | nil => exact .nil
  | snoc _ hp ih => exact .snoc ih (hp.append x)

/-! ## The abstract console keeps the stream -/

theorem Plain.concat {p : List Byte} {c : Byte} (h : Plain p) (hn : c ≠ newline) (hd : c ≠ ctrl 'D') : Plain (p ++ [c]) := by
  constructor
  · simp only [List.mem_append,List.mem_singleton,not_or]
    exact ⟨h.1,hn.symm⟩
  · simp only [List.mem_append,List.mem_singleton,not_or]
    exact ⟨h.2,hd.symm⟩

theorem Line.input_spec {l : Line} (h : Plain l.edit) (c : Byte) :
    l.queue <+: (l.input c).queue ∧ Plain (l.input c).edit := by
  have hnil : Plain [] := ⟨List.not_mem_nil,List.not_mem_nil⟩
  unfold Line.input
  split
  · exact ⟨List.prefix_rfl,h⟩
  split
  · exact ⟨List.prefix_rfl,hnil⟩
  split
  · refine ⟨List.prefix_rfl,fun hm => h.1 (List.dropLast_subset _ hm),fun hm => h.2 (List.dropLast_subset _ hm)⟩
  split
  · dsimp only
    generalize (if c = carriage then newline else c) = c
    split
    · exact ⟨List.prefix_append _ _,hnil⟩
    · rename_i hc
      rw [not_or,not_or] at hc
      exact ⟨List.prefix_rfl,h.concat hc.1 hc.2.1⟩
  · exact ⟨List.prefix_rfl,h⟩

theorem Piece.fetch_spec {p : Piece} (queue : List Byte) (hp : Plain p.out) (hlen : p.out.length < p.n) :
    match p.fetch queue with
    | (q,rest,true) => q.dst = p.dst ∧ q.n = p.n ∧ Reads p.n (p.out ++ queue) q.out rest
    | (q,rest,false) => q.dst = p.dst ∧ q.n = p.n ∧ rest = [] ∧ q.out = p.out ++ queue ∧ Plain q.out ∧ q.out.length < p.n := by
  induction queue generalizing p with
  | nil => exact ⟨rfl,rfl,rfl,(List.append_nil _).symm,hp,hlen⟩
  | cons c queue ih =>
    rw [Piece.fetch]
    by_cases hd : c = ctrl 'D'
    · subst hd
      rw [if_pos rfl]
      refine ⟨rfl,rfl,?_⟩
      cases hout : p.out with
      | nil => exact .eof (Nat.zero_lt_of_lt hlen)
      | cons x xs => exact .before (hout ▸ hp) (hout ▸ hlen) (List.cons_ne_nil _ _)
    · rw [if_neg hd]
      dsimp only
      by_cases hn : c = newline
      · subst hn
        rw [if_pos (.inl rfl)]
        exact ⟨rfl,rfl,.line hp hlen⟩
      · have hsplit : p.out ++ c :: queue = (p.out ++ [c]) ++ queue := by simp
        have hout := hp.concat hn hd
        rw [hsplit]
        by_cases hfull : (p.out ++ [c]).length = p.n
        · rw [if_pos (.inr hfull)]
          exact ⟨rfl,rfl,.full hout hfull⟩
        · have hlen' : (p.out ++ [c]).length < p.n := by
            rw [List.length_append,List.length_singleton] at *
            omega
          rw [if_neg (not_or.mpr ⟨hn,hfull⟩)]
          exact ih (p := ⟨p.dst,p.n,p.out ++ [c]⟩) hout hlen'

/-- What a run of the abstract console keeps: the queue and the bytes of an unfinished read are what the
pieces have left of the stream. -/
structure Disc.Ok (d : Disc) : Prop where
  edit : Plain d.line.edit
  reading : ∀ p ∈ d.reading, Plain p.out ∧ p.out.length < p.n
  pieces : Pieces d.committed d.returned ((d.reading.elim [] Piece.out) ++ d.line.queue)

/-- No read is begun while another one is going on, and none of no bytes. -/
def Disc.Allows (d : Disc) : Event → Prop
  | .read _ n => d.reading = none ∧ 0 < n
  | _ => True

theorem Disc.step_ok {d : Disc} {e : Event} (h : d.Ok) (he : d.Allows e) : (d.step e).Ok := by
  cases e with
  | intr c =>
    obtain ⟨⟨x,hx⟩,hedit⟩ := Line.input_spec h.edit c
    refine ⟨hedit,h.reading,?_⟩
    have := h.pieces.append x
    rw [List.append_assoc] at this
    simp only [Disc.step,← hx,List.drop_left]
    exact this
  | read dst n =>
    obtain ⟨hnone,hpos⟩ := he
    have hpieces := h.pieces
    rw [hnone] at hpieces
    refine ⟨h.edit,?_,hpieces⟩
    rintro p ⟨⟩
    exact ⟨⟨List.not_mem_nil,List.not_mem_nil⟩,hpos⟩
  | run =>
    rw [Disc.step]
    split
    · exact h
    · rename_i p hp
      obtain ⟨hplain,hlen⟩ := h.reading p hp
      have hfetch := Piece.fetch_spec d.line.queue hplain hlen
      have hpieces := h.pieces
      rw [hp] at hpieces
      split
      · rename_i q queue hq
        rw [hq] at hfetch
        obtain ⟨-,hn,hreads⟩ := hfetch
        refine ⟨h.edit,fun _ hm => absurd hm (by simp),.snoc hpieces ?_⟩
        rw [hn]
        exact hreads
      · rename_i q queue hq
        rw [hq] at hfetch
        obtain ⟨-,hn,rfl,hout,hplain',hlen'⟩ := hfetch
        refine ⟨h.edit,?_,?_⟩
        · rintro _ ⟨⟩
          exact ⟨hplain',hn ▸ hlen'⟩
        · simpa [hout] using hpieces

theorem Disc.committed_step (d : Disc) (e : Event) : d.committed <+: (d.step e).committed := by
  cases e with
  | intr c => exact List.prefix_append _ _
  | read dst n => exact List.prefix_rfl
  | run =>
    rw [Disc.step]
    split
    · exact List.prefix_rfl
    · split <;> exact List.prefix_rfl

theorem Disc.run_concat (es : List Event) (e : Event) : Disc.run (es ++ [e]) = (Disc.run es).step e :=
  List.foldl_concat ..

theorem Disc.committed_run (pre es : List Event) : (Disc.run pre).committed <+: (Disc.run (pre ++ es)).committed := by
  induction es using List.reverseRecOn with
  | nil =>
    rw [List.append_nil]
  | append_singleton es e ih =>
    rw [← List.append_assoc,Disc.run_concat]
    exact ih.trans (Disc.committed_step _ e)

/-! ## The ring holds the queue and the line -/

/-- `taken` has gone through the ring; the queue and the line are in it. -/
structure Cons.Holds (s : Cons) (taken : List Byte) (l : Line) : Prop where
  ring : Fifo s.buf s.r s.e (taken ++ l.queue ++ l.edit) taken
  w : s.w = BitVec.ofNat 32 (taken ++ l.queue).length

def Cons.line (s : Cons) : Line where
  queue := (List.range (s.w - s.r).toNat).map fun k => s.get (s.r + BitVec.ofNat 32 k)
  edit := (List.range (s.e - s.w).toNat).map fun k => s.get (s.w + BitVec.ofNat 32 k)

namespace Cons.Holds
variable {s : Cons} {taken : List Byte} {l : Line}

theorem room (h : s.Holds taken l) : l.queue.length + l.edit.length ≤ INPUT_BUF_SIZE := by
  have := h.ring.room
  simp only [List.length_append] at this
  omega

theorem count (h : s.Holds taken l) : (s.e - s.r).toNat = l.queue.length + l.edit.length := by
  rw [h.ring.count (by decide)]
  simp only [List.length_append]
  omega

theorem queue_count (h : s.Holds taken l) : (s.w - s.r).toNat = l.queue.length := by
  have := h.room
  rw [h.w,h.ring.rd,List.length_append,BitVec.ofNat_add,BitVec.add_comm,BitVec.add_sub_cancel,BitVec.toNat_ofNat]
  exact Nat.mod_eq_of_lt (by simp only [INPUT_BUF_SIZE] at this; omega)

theorem edit_count (h : s.Holds taken l) : (s.e - s.w).toNat = l.edit.length := by
  have := h.room
  have hwr := h.ring.wr
  rw [List.length_append,BitVec.ofNat_add] at hwr
  rw [h.w,hwr,BitVec.add_comm,BitVec.add_sub_cancel,BitVec.toNat_ofNat]
  exact Nat.mod_eq_of_lt (by simp only [INPUT_BUF_SIZE] at this; omega)

theorem edit_empty (h : s.Holds taken l) : s.e = s.w ↔ l.edit = [] := by
  have hcount := h.edit_count
  constructor
  · intro he
    rw [he,BitVec.sub_self] at hcount
    exact List.eq_nil_of_length_eq_zero hcount.symm
  · intro he
    rw [he] at hcount
    exact sub_eq_zero.mp (BitVec.eq_of_toNat_eq hcount)

theorem queue_empty (h : s.Holds taken l) : s.r = s.w ↔ l.queue = [] := by
  have hcount := h.queue_count
  constructor
  · intro he
    rw [he,BitVec.sub_self] at hcount
    exact List.eq_nil_of_length_eq_zero hcount.symm
  · intro he
    rw [he] at hcount
    exact (sub_eq_zero.mp (BitVec.eq_of_toNat_eq hcount)).symm

theorem line_eq (h : s.Holds taken l) : s.line = l := by
  have hq := h.ring.items (by decide) taken l.queue l.edit rfl (Nat.le_refl _)
  have he := h.ring.items (by decide) (taken ++ l.queue) l.edit [] (List.append_nil _).symm (by simp)
  rw [← h.ring.rd] at hq
  rw [← h.w] at he
  rw [Cons.line,h.queue_count,h.edit_count]
  congr 1

end Cons.Holds

section
variable {s : Cons} {taken queue edit : List Byte} {c : Byte}

theorem Cons.Holds.erase (h : s.Holds taken ⟨queue,edit ++ [c]⟩) : Cons.Holds { s with e := s.e - 1 } taken ⟨queue,edit⟩ := by
  refine ⟨?_,h.w⟩
  have hring := h.ring
  dsimp only at hring
  rw [← List.append_assoc] at hring
  refine hring.erase ?_
  simp only [List.length_append]
  omega

theorem Cons.Holds.last (h : s.Holds taken ⟨queue,edit ++ [c]⟩) : s.get (s.e - 1) = c := by
  have hring := h.ring
  dsimp only at hring
  have he : s.e - 1 = BitVec.ofNat 32 (taken ++ queue ++ edit).length := by
    have hwr := hring.wr
    rw [← List.append_assoc,List.length_append,BitVec.ofNat_add] at hwr
    rw [hwr]
    exact BitVec.add_sub_cancel _ _
  rw [Cons.get,he]
  refine hring.item (by decide) ?_ ?_
  · simp only [List.length_append]
    omega
  · rw [← List.append_assoc,List.getElem?_append_right (Nat.le_refl _),Nat.sub_self]
    rfl

theorem Cons.Holds.kill (h : s.Holds taken ⟨queue,edit⟩) (hn : newline ∉ edit) :
    (s.kill edit.length).Holds taken ⟨queue,[]⟩ := by
  induction edit using List.reverseRecOn generalizing s with
  | nil => exact h
  | append_singleton edit c ih =>
    simp only [List.mem_append,List.mem_singleton,not_or] at hn
    rw [List.length_append,List.length_singleton,Cons.kill,if_pos]
    · exact ih h.erase hn.1
    · refine ⟨fun he => ?_,?_⟩
      · have := h.edit_empty.mp he
        simp at this
      · rw [h.last]
        exact Ne.symm hn.2

theorem Cons.Holds.store (h : s.Holds taken ⟨queue,edit⟩) (hroom : queue.length + edit.length < INPUT_BUF_SIZE) :
    Cons.Holds { s with buf := Function.update s.buf (Fin.ofNat INPUT_BUF_SIZE s.e.toNat) c, e := s.e + 1 } taken
      ⟨queue,edit ++ [c]⟩ := by
  refine ⟨?_,h.w⟩
  have hfull : (taken ++ queue ++ edit).length < taken.length + INPUT_BUF_SIZE := by
    simp only [List.length_append]
    omega
  have := h.ring.store (by decide) hfull c
  rwa [List.append_assoc] at this

theorem Cons.Holds.commit (h : s.Holds taken ⟨queue,edit⟩) : Cons.Holds { s with w := s.e } taken ⟨queue ++ edit,[]⟩ := by
  refine ⟨?_,?_⟩
  · have := h.ring
    simpa using this
  · have := h.ring.wr
    simpa using this

theorem Cons.Holds.take (h : s.Holds taken ⟨c :: queue,edit⟩) :
    s.get s.r = c ∧ Cons.Holds { s with r := s.r + 1 } (taken ++ [c]) ⟨queue,edit⟩ := by
  have hne : taken.length < (taken ++ (c :: queue) ++ edit).length := by
    simp only [List.length_append,List.length_cons]
    omega
  have hnext := h.ring.next (by decide) hne
  have hget : s.get s.r = c := by
    dsimp only at hnext
    rw [List.append_assoc,List.getElem?_append_right (Nat.le_refl _),Nat.sub_self] at hnext
    exact (Option.some.inj hnext).symm
  have htake := h.ring.take (by decide) hne
  change Fifo s.buf (s.r + 1) s.e _ (taken ++ [s.get s.r]) at htake
  rw [hget] at htake
  refine ⟨hget,?_,?_⟩
  · simpa using htake
  · have := h.w
    simpa using this

theorem consoleintr_holds {l : Line} (h : s.Holds taken l) (hl : Plain l.edit) (c : Byte) :
    (consoleintr c s).1.Holds taken (l.input c) ∧ ((consoleintr c s).2 = false → (l.input c).queue = l.queue) := by
  obtain ⟨queue,edit⟩ := l
  rw [consoleintr,Line.input]
  by_cases hP : c = ctrl 'P'
  · rw [if_pos hP,if_pos (.inl hP)]
    exact ⟨h,fun _ => rfl⟩
  rw [if_neg hP]
  by_cases h0 : c = 0
  · subst h0
    rw [if_neg (by decide),if_neg (by decide),if_neg (by simp),if_pos (.inr rfl)]
    exact ⟨h,fun _ => rfl⟩
  rw [if_neg (c := c = ctrl 'P' ∨ c = 0) (not_or.mpr ⟨hP,h0⟩)]
  by_cases hU : c = ctrl 'U'
  · rw [if_pos hU,if_pos hU,h.edit_count]
    exact ⟨h.kill hl.1,fun _ => rfl⟩
  rw [if_neg hU,if_neg hU]
  by_cases hH : c = ctrl 'H' ∨ c = delete
  · rw [if_pos hH,if_pos hH]
    rcases List.eq_nil_or_concat' edit with rfl | ⟨edit,x,rfl⟩
    · rw [if_neg (not_not.mpr (h.edit_empty.mpr rfl))]
      exact ⟨h,fun _ => rfl⟩
    · rw [if_pos fun he => by simpa using h.edit_empty.mp he,List.dropLast_concat]
      exact ⟨h.erase,fun _ => rfl⟩
  rw [if_neg hH,if_neg hH,h.count]
  by_cases hroom : queue.length + edit.length < INPUT_BUF_SIZE
  · rw [if_pos ⟨h0,hroom⟩,if_pos hroom]
    dsimp only
    generalize (if c = carriage then newline else c) = c
    have hstore := h.store (c := c) hroom
    have hcount := hstore.count
    dsimp only at hcount
    rw [hcount]
    split
    · exact ⟨hstore.commit,fun hf => by cases hf⟩
    · exact ⟨hstore,fun _ => rfl⟩
  · rw [if_neg fun hc => hroom hc.2,if_neg hroom]
    exact ⟨h,fun _ => rfl⟩

/-- A section of `consoleread` takes from the queue what the abstract read takes, and has put it to its
place in memory. -/
theorem consoleread_holds {p q : Piece} {n dst : ℕ} {rest : List Byte} {done : Bool} {u : UserMem} (mem : UserMem)
    (h : s.Holds taken ⟨queue,edit⟩) (hfetch : p.fetch queue = (q,rest,done)) (hpos : 0 < n)
    (hn : p.out.length + n = p.n) (hdst : dst = p.dst + p.out.length) (hu : u = mem.put p.dst p.out)
    (hmem : UserMem.Accessible mem.writable p.dst p.n) :
    ∃ s' taken', consoleread false p.n n dst s u =
        (if done then .ret q.out.length else .sleep (p.dst + q.out.length) (p.n - q.out.length),s',mem.put p.dst q.out) ∧
      s'.Holds taken' ⟨rest,edit⟩ := by
  induction queue generalizing s taken p n dst u with
  | nil =>
    obtain ⟨n,rfl⟩ := Nat.exists_eq_succ_of_ne_zero (Nat.ne_of_gt hpos)
    cases hfetch
    refine ⟨s,taken,?_,h⟩
    rw [consoleread,if_pos (h.queue_empty.mpr rfl),if_neg (by simp),if_neg (by simp),hdst,hu,← hn,Nat.add_sub_cancel_left]
  | cons c queue ih =>
    obtain ⟨n,rfl⟩ := Nat.exists_eq_succ_of_ne_zero (Nat.ne_of_gt hpos)
    obtain ⟨hget,htake⟩ := h.take
    rw [Piece.fetch] at hfetch
    rw [consoleread,if_neg fun he => List.cons_ne_nil _ _ (h.queue_empty.mp he),hget]
    dsimp only at hfetch ⊢
    have hrest : (p.n : ℤ) - (n + 1) = p.out.length := by omega
    by_cases hd : c = ctrl 'D'
    · rw [if_pos hd] at hfetch
      cases hfetch
      rw [if_pos hd,if_pos rfl,hrest,hu]
      cases hout : q.out with
      | nil =>
        rw [hout] at hn
        rw [if_neg (by simp only [List.length_nil] at hn; omega)]
        exact ⟨_,_,rfl,htake⟩
      | cons x xs =>
        rw [hout] at hn
        rw [if_pos (by simp only [List.length_cons] at hn; omega)]
        refine ⟨_,taken,rfl,?_⟩
        have : s.r + 1 - 1 = s.r := BitVec.add_sub_cancel _ _
        rw [this]
        exact h
    · rw [if_neg hd] at hfetch
      rw [if_neg hd]
      have hacc : UserMem.Accessible u.writable dst 1 := by
        rw [hu,hdst]
        exact hmem.sub (Nat.le_add_right _ _) (by omega)
      have hlt : dst < MAXVA := (hacc dst (Nat.le_refl _) (by omega)).1
      have hcopy : u.copyout dst [c] = (mem.put p.dst (p.out ++ [c]),true) := by
        rw [UserMem.copyout,UserMem.copyoutFrom_eq _ _ _ _ (Nat.le_refl _) hacc,hu,hdst,UserMem.put_append]
      have hlen : (p.out ++ [c]).length = p.out.length + 1 := by simp
      rw [hcopy,if_neg (by simp)]
      by_cases hnl : c = newline
      · rw [if_pos (.inl hnl)] at hfetch
        cases hfetch
        rw [if_pos hnl,if_pos rfl]
        refine ⟨_,_,?_,htake⟩
        congr 2
        dsimp only
        omega
      · rw [if_neg hnl]
        by_cases hfull : (p.out ++ [c]).length = p.n
        · rw [if_pos (.inr hfull)] at hfetch
          cases hfetch
          obtain rfl : n = 0 := by omega
          rw [if_pos rfl,consoleread]
          refine ⟨_,_,?_,htake⟩
          dsimp only
          rw [hfull]
        · rw [if_neg (not_or.mpr ⟨hnl,hfull⟩)] at hfetch
          have hmod : (dst + 1) % 2 ^ 64 = dst + 1 := Nat.mod_eq_of_lt (by simp only [MAXVA] at hlt; omega)
          rw [hmod]
          exact ih (p := ⟨p.dst,p.n,p.out ++ [c]⟩) htake hfetch (by omega) (by dsimp only; omega) (by dsimp only; omega) rfl
            hmem

end

/-! ## The console refines the line discipline -/

def deliver (mem : UserMem) (l : List Piece) : UserMem := l.foldl (fun u p => u.put p.dst p.out) mem

theorem deliver_concat (mem : UserMem) (l : List Piece) (p : Piece) :
    deliver mem (l ++ [p]) = (deliver mem l).put p.dst p.out := List.foldl_concat ..

def Piece.frame (p : Piece) : Frame := ⟨p.dst,p.n,p.dst + p.out.length,p.n - p.out.length⟩

structure Tracks (mem : UserMem) (d : Disc) (s : World) : Prop where
  cons : ∃ taken, s.cons.Holds taken d.line
  returned : s.returned = d.returned.map fun p => (p.dst,p.n,(p.out.length : ℤ))
  mem : s.mem = deliver mem (d.returned ++ d.reading.toList)
  idle : d.reading = none → s.reader = .idle
  reader : ∀ p, d.reading = some p → UserMem.Accessible s.mem.writable p.dst p.n ∧
    (s.reader = .ready p.frame ∨ s.reader = .asleep p.frame ∧ d.line.queue = [])

section
variable {mem : UserMem} {d : Disc} {s t : World} {e : Event}

theorem Tracks.start (mem : UserMem) : Tracks mem Disc.start (World.start mem) where
  cons := ⟨[],⟨⟨rfl,rfl,List.prefix_rfl,Nat.zero_le _,fun k x _ hx => by simp [Disc.start] at hx⟩,rfl⟩⟩
  returned := rfl
  mem := rfl
  idle := fun _ => rfl
  reader := fun p hp => by cases hp

theorem Tracks.intr (h : Tracks mem d s) (hd : d.Ok) (c : Byte) : Tracks mem (d.step (.intr c)) (s.intr c) := by
  obtain ⟨taken,hcons⟩ := h.cons
  obtain ⟨hcons',hsame⟩ := consoleintr_holds hcons hd.edit c
  refine ⟨⟨taken,hcons'⟩,h.returned,h.mem,fun hnone => ?_,fun p hp => ?_⟩
  · simp only [World.intr,h.idle hnone]
    split <;> rfl
  · obtain ⟨hacc,hreader⟩ := h.reader p hp
    refine ⟨hacc,?_⟩
    simp only [World.intr]
    rcases hreader with hr | ⟨hr,hq⟩
    · rw [hr]
      left
      split <;> rfl
    · rw [hr]
      cases hw : (consoleintr c s.cons).2 with
      | true => exact .inl rfl
      | false => exact .inr ⟨rfl,(hsame hw).trans hq⟩

theorem Tracks.read {dst n : ℕ} (h : Tracks mem d s) (hidle : s.reader = .idle)
    (hmem : UserMem.Accessible s.mem.writable dst n) :
    d.reading = none ∧ Tracks mem (d.step (.read dst n)) { s with reader := .ready ⟨dst,n,dst,n⟩ } := by
  have hnone : d.reading = none := by
    cases hr : d.reading with
    | none => rfl
    | some p =>
      rcases (h.reader p hr).2 with hp | ⟨hp,-⟩
      · rw [hidle] at hp
        cases hp
      · rw [hidle] at hp
        cases hp
  refine ⟨hnone,h.cons,h.returned,?_,fun hn => (by cases hn),?_⟩
  · rw [h.mem,hnone,Option.toList_none,List.append_nil]
    exact ((deliver_concat _ _ _).trans (UserMem.put_nil _ _)).symm
  · rintro p ⟨⟩
    exact ⟨hmem,.inl rfl⟩

theorem Tracks.run {f : Frame} (h : Tracks mem d s) (hd : d.Ok) (hready : s.reader = .ready f) :
    Tracks mem (d.step .run) (s.run f) := by
  cases hr : d.reading with
  | none =>
    rw [h.idle hr] at hready
    cases hready
  | some p =>
    obtain ⟨hacc,hreader⟩ := h.reader p hr
    obtain rfl : f = p.frame := by
      rcases hreader with hp | ⟨hp,-⟩
      · rw [hready] at hp
        exact Reader.ready.inj hp
      · rw [hready] at hp
        cases hp
    obtain ⟨hplain,hlen⟩ := hd.reading p hr
    obtain ⟨taken,hcons⟩ := h.cons
    have hmem : s.mem = (deliver mem d.returned).put p.dst p.out := by
      rw [h.mem,hr]
      exact deliver_concat _ _ _
    have hacc' : UserMem.Accessible (deliver mem d.returned).writable p.dst p.n := by
      rw [hmem] at hacc
      exact hacc
    have hspec := Piece.fetch_spec d.line.queue hplain hlen
    rw [Disc.step,hr]
    dsimp only
    obtain ⟨⟨q,rest,done⟩,hfetch⟩ : ∃ o, p.fetch d.line.queue = o := ⟨_,rfl⟩
    obtain ⟨s',taken',hsec,hholds⟩ := consoleread_holds (n := p.n - p.out.length) (deliver mem d.returned) hcons hfetch
      (by omega) (by omega) rfl hmem hacc'
    change consoleread false p.frame.target p.frame.n p.frame.dst s.cons s.mem = _ at hsec
    rw [hfetch] at hspec ⊢
    cases done with
    | true =>
      obtain ⟨hdst,hn,-⟩ := hspec
      rw [World.run,hsec]
      dsimp only
      refine ⟨⟨taken',hholds⟩,?_,?_,fun _ => rfl,fun p hp => by cases hp⟩
      · change s.returned ++ [(p.dst,p.n,(q.out.length : ℤ))] = _
        rw [h.returned,List.map_append,← hdst,← hn]
        rfl
      · change (deliver mem d.returned).put p.dst q.out = _
        rw [Option.toList_none,List.append_nil,deliver_concat,hdst]
    | false =>
      obtain ⟨hdst,hn,rfl,-⟩ := hspec
      rw [World.run,hsec]
      dsimp only
      refine ⟨⟨taken',hholds⟩,h.returned,?_,fun hn => (by cases hn),?_⟩
      · change (deliver mem d.returned).put p.dst q.out = _
        rw [Option.toList_some,deliver_concat,hdst]
      · rintro _ ⟨⟩
        refine ⟨?_,.inr ⟨?_,rfl⟩⟩
        · rw [hdst,hn]
          exact hacc'
        · change Reader.asleep ⟨p.dst,p.n,p.dst + q.out.length,p.n - q.out.length⟩ = _
          rw [Piece.frame,hdst,hn]

theorem Tracks.step (h : Tracks mem d s) (hd : d.Ok) (hstep : Step s e t) : (d.step e).Ok ∧ Tracks mem (d.step e) t := by
  cases hstep with
  | intr c => exact ⟨Disc.step_ok hd trivial,h.intr hd c⟩
  | read dst n hidle hpos _ hmem =>
    obtain ⟨hnone,ht⟩ := h.read hidle hmem
    exact ⟨Disc.step_ok hd ⟨hnone,hpos⟩,ht⟩
  | run f hready => exact ⟨Disc.step_ok hd trivial,h.run hd hready⟩

theorem Run.tracks {es : List Event} (h : Run mem es s) : (Disc.run es).Ok ∧ Tracks mem (Disc.run es) s := by
  induction h with
  | start => exact ⟨⟨⟨List.not_mem_nil,List.not_mem_nil⟩,fun p hp => absurd hp (Option.not_mem_none p),Pieces.nil⟩,.start mem⟩
  | step _ hstep ih =>
    rw [Disc.run_concat]
    exact ih.2.step ih.1 hstep

end

/-- The console is the line discipline: the same queue and line, the same pieces returned and put to memory,
and nobody asleep while there is something to read. -/
theorem console_line_discipline (mem : UserMem) (es : List Event) (s : World) (h : Run mem es s) :
    (s.cons.w - s.cons.r).toNat ≤ (s.cons.e - s.cons.r).toNat ∧ (s.cons.e - s.cons.r).toNat ≤ INPUT_BUF_SIZE ∧
    s.cons.line = (Disc.run es).line ∧
    s.returned = (Disc.run es).returned.map (fun p => (p.dst,p.n,(p.out.length : ℤ))) ∧
    s.mem = deliver mem ((Disc.run es).returned ++ (Disc.run es).reading.toList) ∧
    Pieces (Disc.run es).committed (Disc.run es).returned
      (((Disc.run es).reading.elim [] Piece.out) ++ (Disc.run es).line.queue) ∧
    (∀ pre, pre <+: es → (Disc.run pre).committed <+: (Disc.run es).committed) ∧
    (∀ f, s.reader = .asleep f → s.cons.line.queue = []) := by
  obtain ⟨hd,ht⟩ := h.tracks
  obtain ⟨taken,hcons⟩ := ht.cons
  refine ⟨?_,?_,hcons.line_eq,ht.returned,ht.mem,hd.pieces,?_,?_⟩
  · rw [hcons.queue_count,hcons.count]
    exact Nat.le_add_right _ _
  · rw [hcons.count]
    exact hcons.room
  · rintro pre ⟨post,rfl⟩
    exact Disc.committed_run pre post
  · intro f hf
    rw [hcons.line_eq]
    cases hr : (Disc.run es).reading with
    | none =>
      rw [ht.idle hr] at hf
      cases hf
    | some p =>
      rcases (ht.reader p hr).2 with hp | ⟨-,hq⟩
      · rw [hf] at hp
        cases hp
      · exact hq

theorem World.intr_idle {s : World} (h : s.reader = .idle) (c : Byte) : (s.intr c).reader = .idle := by
  simp only [World.intr,h]
  split <;> rfl

theorem Run.type_and_read (mem : UserMem) (cs : List Byte) {dst n : ℕ} (hpos : 0 < n) (hint : n < 2 ^ 31)
    (hacc : UserMem.Accessible mem.writable dst n) : ∃ s, Run mem (cs.map .intr ++ [.read dst n] ++ [.run]) s := by
  have htyped : ∃ s, Run mem (cs.map .intr) s ∧ s.reader = .idle ∧ s.mem = mem := by
    induction cs using List.reverseRecOn with
    | nil => exact ⟨_,.start,rfl,rfl⟩
    | append_singleton cs c ih =>
      obtain ⟨s,hs,hidle,hmem⟩ := ih
      rw [List.map_append]
      exact ⟨_,hs.step (.intr s c),World.intr_idle hidle c,hmem⟩
  obtain ⟨s,hs,hidle,hmem⟩ := htyped
  exact ⟨_,(hs.step (.read s dst n hidle hpos hint (hmem ▸ hacc))).step (.run _ ⟨dst,n,dst,n⟩ rfl)⟩

/-- `a`, `b`, backspace and return are typed, and a read of ten bytes returns the line. -/
theorem console_line_discipline_erase : ∃ mem s, Run mem ([97,98,8,13].map .intr ++ [.read 0 10] ++ [.run]) s ∧
    s.returned = [(0,10,2)] ∧ s.mem.byte 0 = 97 ∧ s.mem.byte 1 = 10 := by
  have hacc : UserMem.Accessible (fun _ => true) 0 10 := fun a _ ha => ⟨by simp only [MAXVA]; omega,rfl⟩
  obtain ⟨s,hrun⟩ := Run.type_and_read ⟨fun _ => 0,fun _ => true,fun _ => true⟩ [97,98,8,13] (by decide) (by decide) hacc
  obtain ⟨-,-,-,hret,hmem,-⟩ := console_line_discipline _ _ _ hrun
  refine ⟨_,s,hrun,hret.trans (by decide +kernel),?_,?_⟩
  · rw [hmem]
    decide +kernel
  · rw [hmem]
    decide +kernel

end Xv6.Console
