import Xv6.User.Grep

/-! # The lines that `grep` prints

`grep` assembles lines in a buffer of 1024 bytes. What `read` returns is at most what is asked for
and at least one byte while there is input: `chunk` picks the number.
-/
namespace Xv6.Grep
open Library

abbrev BUFSZ : ℕ := 1024

/-! ## `grep.c` -/

/-- `strchr(p, c)` in the buffer; `n` bytes are left in it. -/
def strchr (buf : Bytes BUFSZ) (c : Byte) : ℕ → ℕ → Option ℕ
  | 0, _ => none
  | n + 1, p =>
    if buf.get p = 0 then none
    else if buf.get p = c then some p
    else strchr buf c n (p + 1)

def strAt (buf : Bytes BUFSZ) (p : ℕ) : Str := (buf.slice p (BUFSZ - p)).takeWhile (· != 0)

structure State where
  buf : Bytes BUFSZ
  /-- `p` in the inner loop, `m` in the outer one -/
  pos : ℕ
  out : List Byte

variable (pattern : Str)

/-- The inner loop. Each round is for one newline, so `BUFSZ` rounds are enough. -/
def lineLoop : ℕ → State → State
  | 0, s => s
  | n + 1, s =>
    match strchr s.buf newline (BUFSZ - s.pos) s.pos with
    | none => s
    | some q =>
      let buf := s.buf.splice q [0]
      if matchRe pattern (strAt buf s.pos) then
        let buf := buf.splice q [newline]
        lineLoop n ⟨buf,q + 1,s.out ++ buf.slice s.pos (q + 1 - s.pos)⟩
      else lineLoop n ⟨buf,q + 1,s.out⟩

/-- The body of the outer loop, when `read` has returned `bytes`. -/
def afterRead (s : State) (bytes : List Byte) : State :=
  let buf := s.buf.splice s.pos bytes
  let m := s.pos + bytes.length
  let buf := buf.splice m [0]
  let t := lineLoop pattern BUFSZ ⟨buf,0,s.out⟩
  if m > 0 then ⟨t.buf.splice 0 (t.buf.slice t.pos (m - t.pos)),m - t.pos,t.out⟩ else ⟨t.buf,m,t.out⟩

def grepLoop (chunk : ℕ → ℕ) : ℕ → ℕ → State → List Byte → Option (List Byte)
  | 0, _, _, _ => none
  | fuel + 1, i, s, input =>
    let n := min (BUFSZ - s.pos - 1) input.length
    if n = 0 then some s.out
    else
      let k := chunk i % n + 1
      grepLoop chunk fuel (i + 1) (afterRead pattern s (input.take k)) (input.drop k)

/-- `grep(pattern, fd)` with `buf` in the buffer and `input` to read from `fd`. -/
def grep (chunk : ℕ → ℕ) (fuel : ℕ) (buf : Bytes BUFSZ) (input : List Byte) : Option (List Byte) :=
  grepLoop pattern chunk fuel 0 ⟨buf,0,[]⟩ input

/-! ## Lines -/

def lines (text : Str) : List Str := (text.splitOnP (· == newline)).dropLast

def rest (text : Str) : Str := (text.splitOnP (· == newline)).getLastD []

def printed (text : Str) : List Byte := ((lines text).filter (matchRe pattern)).flatMap fun line => line ++ [newline]

variable {text w : Str}

theorem newline_free (h : newline ∉ w) : ∀ x ∈ w, (x == newline) = false := fun _ hx =>
  beq_eq_false_iff_ne.mpr fun he => h (he ▸ hx)

theorem lines_of_free (h : newline ∉ w) : lines w = [] := by
  rw [lines,List.splitOnP_eq_singleton (newline_free h)]
  rfl

theorem rest_of_free (h : newline ∉ w) : rest w = w := by
  rw [rest,List.splitOnP_eq_singleton (newline_free h)]
  rfl

theorem lines_cons (h : newline ∉ w) (text : Str) : lines (w ++ newline :: text) = w :: lines text := by
  rw [lines,List.splitOnP_append_cons_of_forall_mem (newline_free h) newline (beq_self_eq_true newline),lines,
    List.dropLast_cons_of_ne_nil (List.splitOnP_ne_nil _ _)]

theorem rest_cons (h : newline ∉ w) (text : Str) : rest (w ++ newline :: text) = rest text := by
  obtain ⟨a,l,hal⟩ := List.exists_cons_of_ne_nil (List.splitOnP_ne_nil (· == newline) text)
  rw [rest,List.splitOnP_append_cons_of_forall_mem (newline_free h) newline (beq_self_eq_true newline),rest,hal,
    List.getLastD_cons,List.getLastD_cons,List.getLastD_cons]

theorem line_cases (text : Str) : newline ∉ text ∨ ∃ w t, text = w ++ newline :: t ∧ newline ∉ w := by
  by_cases h : newline ∈ text
  · exact .inr (List.eq_append_cons_of_mem h)
  · exact .inl h

theorem line_induction {P : Str → Prop} (free : ∀ w, newline ∉ w → P w)
    (line : ∀ w t, newline ∉ w → P t → P (w ++ newline :: t)) (text : Str) : P text := by
  induction hn : text.length using Nat.strong_induction_on generalizing text with
  | _ n ih =>
    rcases line_cases text with h | ⟨w,t,rfl,hw⟩
    · exact free text h
    · have hlt : t.length < n := by
        rw [← hn,List.length_append,List.length_cons]
        omega
      exact line w t hw (ih t.length hlt t rfl)

theorem lines_append (x y : Str) : lines (x ++ y) = lines x ++ lines (rest x ++ y) := by
  induction x using line_induction with
  | free w h => rw [lines_of_free h,rest_of_free h,List.nil_append]
  | line w t hw ih =>
    rw [List.append_assoc,List.cons_append,lines_cons hw,lines_cons hw,rest_cons hw,ih,List.cons_append]

theorem rest_free (text : Str) : newline ∉ rest text := by
  induction text using line_induction with
  | free w h => rwa [rest_of_free h]
  | line w t hw ih => rwa [rest_cons hw]

theorem rest_subset (text : Str) : rest text ⊆ text := by
  induction text using line_induction with
  | free w h =>
    rw [rest_of_free h]
    exact fun _ hx => hx
  | line w t hw ih =>
    rw [rest_cons hw]
    exact fun x hx => List.mem_append_right _ (List.mem_cons_of_mem _ (ih hx))

theorem printed_append (x y : Str) : printed pattern (x ++ y) = printed pattern x ++ printed pattern (rest x ++ y) := by
  rw [printed,lines_append,List.filter_append,List.flatMap_append,← printed,← printed]

/-! ## The buffer -/

section At
variable {buf : Bytes BUFSZ} {p : ℕ} {c : Byte}

abbrev At (buf : Bytes BUFSZ) (p : ℕ) (text : Str) : Prop := CStr BUFSZ buf.get p text

theorem strchr_none {n : ℕ} (h : At buf p w) (hw : newline ∉ w) : strchr buf newline n p = none := by
  induction n generalizing p w with
  | zero => rfl
  | succ n ih =>
    rw [strchr]
    cases w with
    | nil =>
      have hnul : buf.get p = 0 := h.nul
      rw [if_pos hnul]
    | cons x w =>
      rw [h.head,if_neg h.head_ne,if_neg fun he : x = newline => hw (he ▸ List.mem_cons_self),
        ih h.tail fun hm => hw (List.mem_cons_of_mem x hm)]

theorem strchr_some {n : ℕ} {t : Str} (h : At buf p (w ++ newline :: t)) (hw : newline ∉ w) (hn : w.length < n) :
    strchr buf newline n p = some (p + w.length) := by
  induction w generalizing n p with
  | nil =>
    obtain ⟨n,rfl⟩ := Nat.exists_eq_succ_of_ne_zero (Nat.ne_of_gt hn)
    rw [strchr,h.head,if_neg (by decide),if_pos rfl]
    rfl
  | cons x w ih =>
    obtain ⟨n,rfl⟩ := Nat.exists_eq_succ_of_ne_zero (Nat.ne_of_gt (Nat.zero_lt_of_lt hn))
    rw [List.length_cons] at hn
    have hxn : x ≠ newline := fun he => hw (he ▸ List.mem_cons_self)
    rw [strchr,h.head,if_neg h.head_ne,if_neg hxn,ih h.tail (fun hm => hw (List.mem_cons_of_mem x hm)) (by omega),List.length_cons]
    congr 1
    omega

theorem strAt_eq (h : At buf p w) : strAt buf p = w := by
  have hslice : buf.slice p (BUFSZ - p) = (List.range' p (BUFSZ - p)).map buf.get := by
    rw [Bytes.slice,List.range'_eq_map_range,List.map_map]
    rfl
  rw [strAt,hslice,h.takeWhile_eq]

theorem At.cut {t : Str} (h : At buf p (w ++ c :: t)) : At (buf.splice (p + w.length) [0]) p w := by
  refine h.first (fun q hq => Bytes.get_splice_outside _ (.inl hq)) ?_
  have := h.bound
  rw [List.length_append,List.length_cons] at this
  rw [Bytes.get_splice _ _ _ (by omega),if_pos (by rw [List.length_singleton]; omega),Nat.sub_self]
  rfl

theorem At.splice {q : ℕ} {bs : List Byte} (h : At buf p text) (hq : q + bs.length ≤ p) : At (buf.splice q bs) p text :=
  h.congr fun _ hp _ => Bytes.get_splice_outside _ (.inr (hq.trans hp))

end At

/-! ## The loops -/

section Loops
variable {pattern}

theorem printed_of_free (h : newline ∉ w) : printed pattern w = [] := by
  rw [printed,lines_of_free h]
  rfl

theorem printed_cons (h : newline ∉ w) (t : Str) :
    printed pattern (w ++ newline :: t) = (if matchRe pattern w then w ++ [newline] else []) ++ printed pattern t := by
  rw [printed,lines_cons h,List.filter_cons]
  split
  · rw [List.flatMap_cons,← printed]
  · rw [List.nil_append,← printed]

theorem lineLoop_eq (pattern : Str) {n : ℕ} {s : State} (h : At s.buf s.pos text) (hn : text.count newline ≤ n) :
    (lineLoop pattern n s).out = s.out ++ printed pattern text ∧
      (lineLoop pattern n s).pos + (rest text).length = s.pos + text.length ∧
      At (lineLoop pattern n s).buf (lineLoop pattern n s).pos (rest text) := by
  induction n generalizing s text with
  | zero =>
    have hfree : newline ∉ text := List.count_eq_zero.mp (Nat.le_zero.mp hn)
    rw [rest_of_free hfree,printed_of_free hfree,List.append_nil]
    exact ⟨rfl,rfl,h⟩
  | succ n ih =>
    rcases line_cases text with hfree | ⟨w,t,rfl,hw⟩
    · rw [lineLoop,strchr_none h hfree,rest_of_free hfree,printed_of_free hfree,List.append_nil]
      exact ⟨rfl,rfl,h⟩
    · have hfits := h.bound
      rw [List.length_append,List.length_cons] at hfits
      rw [List.count_append,List.count_cons_self] at hn
      have hrest : At s.buf (s.pos + w.length + 1) t := h.drop.tail
      have hcut := h.cut
      have hstop : (s.pos + w.length) + ([0] : Str).length ≤ s.pos + w.length + 1 := le_rfl
      rw [rest_cons hw,printed_cons hw,List.length_append,List.length_cons,lineLoop,strchr_some h hw (by omega)]
      dsimp only
      rw [strAt_eq hcut]
      by_cases hm : matchRe pattern w = true
      · rw [if_pos hm,if_pos hm]
        have hline : ((s.buf.splice (s.pos + w.length) [0]).splice (s.pos + w.length) [newline]).slice s.pos
            (s.pos + w.length + 1 - s.pos) = w ++ [newline] := by
          have hlast := Bytes.slice_splice_same (s.buf.splice (s.pos + w.length) [0])
            (show s.pos + w.length + ([newline] : Str).length ≤ BUFSZ by rw [List.length_singleton]; omega)
          rw [show s.pos + w.length + 1 - s.pos = w.length + 1 by omega,Bytes.slice_add,Bytes.slice_splice_disjoint _ (.inl le_rfl),
            hcut.slice_eq]
          exact congrArg (w ++ ·) hlast
        obtain ⟨hout,hpos,hat⟩ := ih (s := ⟨(s.buf.splice (s.pos + w.length) [0]).splice (s.pos + w.length) [newline],
          s.pos + w.length + 1,s.out ++ (w ++ [newline])⟩) ((hrest.splice hstop).splice hstop) (by omega)
        rw [hline]
        exact ⟨by rw [hout,List.append_assoc],hpos.trans (by dsimp only; omega),hat⟩
      · rw [if_neg hm,if_neg hm,List.nil_append]
        obtain ⟨hout,hpos,hat⟩ := ih (s := ⟨s.buf.splice (s.pos + w.length) [0],s.pos + w.length + 1,s.out⟩)
          (hrest.splice hstop) (by omega)
        exact ⟨hout,hpos.trans (by dsimp only; omega),hat⟩

/-- The state at the head of the outer loop: the buffer starts with the rest of the lines so far. -/
structure Holds (s : State) (cur : Str) : Prop where
  pos : s.pos = cur.length
  chars : s.buf.slice 0 cur.length = cur
  free : newline ∉ cur
  nul : 0 ∉ cur

theorem Holds.afterRead (pattern : Str) {s : State} {cur bytes : Str} (h : Holds s cur) (h0 : 0 ∉ bytes) (hne : bytes ≠ [])
    (hlen : s.pos + bytes.length < BUFSZ) : Holds (afterRead pattern s bytes) (rest (cur ++ bytes)) ∧
      (afterRead pattern s bytes).out = s.out ++ printed pattern (cur ++ bytes) := by
  have hpos : 0 < s.pos + bytes.length := Nat.add_pos_right _ (List.length_pos_iff.mpr hne)
  have hnul : 0 ∉ cur ++ bytes := fun hm => (List.mem_append.mp hm).elim h.nul h0
  have hat : At ((s.buf.splice s.pos bytes).splice (s.pos + bytes.length) [0]) 0 (cur ++ bytes) := by
    have hend : 0 + (cur ++ bytes).length = s.pos + bytes.length := by rw [Nat.zero_add,List.length_append,h.pos]
    have hslice : ((s.buf.splice s.pos bytes).splice (s.pos + bytes.length) [0]).slice 0 (cur ++ bytes).length =
        cur ++ bytes := by
      rw [Bytes.slice_splice_disjoint _ (.inl hend.le),List.length_append,Bytes.slice_add,h.pos,Nat.zero_add,
        Bytes.slice_splice_disjoint _ (.inl (Nat.zero_add _).le),h.chars,Bytes.slice_splice_same _ (by rw [← h.pos]; omega)]
    refine ⟨fun i b hi => ?_,?_,hnul,by rwa [hend]⟩
    · have hlt := (List.getElem?_eq_some_iff.mp hi).1
      rw [← Bytes.slice_getD _ _ _ hlt,hslice,List.getD_eq_getElem?_getD,hi]
      rfl
    · rw [hend,Bytes.get_splice _ _ _ hlen,if_pos (by rw [List.length_singleton]; omega),Nat.sub_self]
      rfl
  have hcount : (cur ++ bytes).count newline ≤ BUFSZ := by
    have := List.count_le_length (a := newline) (l := cur ++ bytes)
    rw [List.length_append,← h.pos] at this
    omega
  simp only [Grep.afterRead,if_pos hpos]
  generalize (s.buf.splice s.pos bytes).splice (s.pos + bytes.length) [0] = buf at hat ⊢
  obtain ⟨hout,hend,hrest⟩ := lineLoop_eq pattern (s := ⟨buf,0,s.out⟩) hat hcount
  generalize lineLoop pattern BUFSZ ⟨buf,0,s.out⟩ = t at hout hend hrest ⊢
  have hm : s.pos + bytes.length - t.pos = (rest (cur ++ bytes)).length := by
    rw [List.length_append,← h.pos,Nat.zero_add] at hend
    omega
  rw [hm,hrest.slice_eq]
  refine ⟨⟨rfl,?_,rest_free _,fun hz => hnul (rest_subset _ hz)⟩,hout⟩
  exact Bytes.slice_splice_same _ (by have := hrest.bound; omega)

theorem chunk_le (chunk : ℕ → ℕ) (i : ℕ) {m n : ℕ} (hn : min (BUFSZ - m - 1) n ≠ 0) :
    m + (chunk i % min (BUFSZ - m - 1) n + 1) < BUFSZ ∧ chunk i % min (BUFSZ - m - 1) n + 1 ≤ n := by
  have hlt : chunk i % min (BUFSZ - m - 1) n < min (BUFSZ - m - 1) n := Nat.mod_lt _ (Nat.pos_of_ne_zero hn)
  generalize chunk i % min (BUFSZ - m - 1) n = j at hlt ⊢
  simp only [BUFSZ] at hlt ⊢
  omega

def Short (line : Str) : Bool := line.length + 1 < BUFSZ

theorem length_lt_of_mem_lines {line : Str} (h : line ∈ lines text) : line.length < text.length := by
  induction text using line_induction with
  | free w hw => exact absurd (lines_of_free hw ▸ h) List.not_mem_nil
  | line w t hw ih =>
    rw [lines_cons hw] at h
    rw [List.length_append,List.length_cons]
    rcases List.mem_cons.mp h with rfl | h
    · omega
    · have := ih h
      omega

theorem takeWhile_short (x y : Str) (hx : x.length < BUFSZ) :
    (lines (x ++ y)).takeWhile Short = lines x ++ (lines (rest x ++ y)).takeWhile Short := by
  rw [lines_append,List.takeWhile_append_of_pos fun line hl => ?_]
  have := length_lt_of_mem_lines hl
  exact decide_eq_true (by omega)

theorem takeWhile_short_full {cur input : Str} (hcur : newline ∉ cur) (hfull : BUFSZ - 1 ≤ cur.length ∨ input = []) :
    (lines (cur ++ input)).takeWhile Short = [] := by
  rcases line_cases input with hin | ⟨w,t,rfl,hw⟩
  · rw [lines_of_free fun hm => (List.mem_append.mp hm).elim hcur hin,List.takeWhile_nil]
  · have hlong := hfull.resolve_right (by simp)
    rw [← List.append_assoc,lines_cons fun hm => (List.mem_append.mp hm).elim hcur hw,List.takeWhile_cons_of_neg]
    rw [Short,decide_eq_true_eq,List.length_append]
    omega

/-- `grep` prints the matching lines up to the first one that does not fit in the buffer. -/
theorem grepLoop_eq {chunk : ℕ → ℕ} {fuel i : ℕ} {s : State} {cur input : Str} (h : Holds s cur) (h0 : 0 ∉ input)
    (hfuel : input.length < fuel) : grepLoop pattern chunk fuel i s input =
      some (s.out ++ ((((lines (cur ++ input)).takeWhile Short).filter (matchRe pattern)).flatMap
        fun line => line ++ [newline])) := by
  induction fuel generalizing i s cur input with
  | zero => exact absurd hfuel (Nat.not_lt_zero _)
  | succ fuel ih =>
    rw [grepLoop]
    dsimp only
    by_cases hn : min (BUFSZ - s.pos - 1) input.length = 0
    · have hfull : BUFSZ - 1 ≤ cur.length ∨ input = [] := by
        rw [← List.length_eq_zero_iff,← h.pos]
        omega
      rw [if_pos hn,takeWhile_short_full h.free hfull]
      exact congrArg some (List.append_nil _).symm
    · rw [if_neg hn]
      obtain ⟨hroom,hk⟩ := chunk_le chunk i hn
      generalize chunk i % min (BUFSZ - s.pos - 1) input.length = j at hroom hk ⊢
      have hlen : (input.take (j + 1)).length = j + 1 := by
        rw [List.length_take]
        omega
      have h0' : 0 ∉ input.take (j + 1) := fun hm => h0 (List.mem_of_mem_take hm)
      have hsplit : cur ++ input = (cur ++ input.take (j + 1)) ++ input.drop (j + 1) := by
        rw [List.append_assoc,List.take_append_drop]
      have hbuf : (cur ++ input.take (j + 1)).length < BUFSZ := by
        rw [List.length_append,hlen,← h.pos]
        exact hroom
      obtain ⟨hnext,hout⟩ := h.afterRead pattern h0' (by rw [← List.length_pos_iff]; omega) (by omega)
      rw [ih hnext (fun hm => h0 (List.mem_of_mem_drop hm)) (by rw [List.length_drop]; omega),hout,hsplit,
        takeWhile_short _ _ hbuf,List.filter_append,List.flatMap_append,List.append_assoc,printed]

end Loops

theorem grep_eq (chunk : ℕ → ℕ) (buf : Bytes BUFSZ) {input : List Byte} (h0 : 0 ∉ input) {fuel : ℕ} (hfuel : input.length < fuel) :
    grep pattern chunk fuel buf input =
      some ((((lines input).takeWhile Short).filter (matchRe pattern)).flatMap fun line => line ++ [newline]) := by
  have hstart : Holds ⟨buf,0,[]⟩ [] := ⟨rfl,rfl,List.not_mem_nil,List.not_mem_nil⟩
  rw [grep,grepLoop_eq hstart h0 hfuel,List.nil_append,List.nil_append]

/-- However the input is read, `grep` prints the matching lines, in order, if and only if no line matches from the
first one on that does not fit in the buffer with its newline and a NUL. -/
theorem grep_prints_matching_lines (chunk : ℕ → ℕ) (buf : Bytes BUFSZ) (input : List Byte) (h0 : 0 ∉ input) (fuel : ℕ)
    (hfuel : input.length < fuel) :
    grep pattern chunk fuel buf input = some (((lines input).filter (matchRe pattern)).flatMap fun line => line ++ [newline]) ↔
      ∀ line ∈ (lines input).dropWhile (fun line => line.length + 1 < BUFSZ), matchRe pattern line = false := by
  have hsplit := List.takeWhile_append_dropWhile (p := Short) (l := lines input)
  change _ ↔ ∀ line ∈ (lines input).dropWhile Short, _
  rw [grep_eq pattern chunk buf h0 hfuel,Option.some_inj]
  generalize (lines input).takeWhile Short = short at hsplit ⊢
  generalize (lines input).dropWhile Short = late at hsplit ⊢
  rw [← hsplit,List.filter_append,List.flatMap_append,List.self_eq_append_right,List.flatMap_eq_nil_iff]
  refine ⟨fun h line hl => ?_,fun h line hl => ?_⟩
  · by_contra hm
    exact absurd (h line (List.mem_filter.mpr ⟨hl,Bool.eq_true_of_not_eq_false hm⟩)) (by simp)
  · obtain ⟨hl,hm⟩ := List.mem_filter.mp hl
    exact absurd hm (by simp [h line hl])

theorem grep_prints_matching_lines_two : grep [97] (fun _ => 0) 5 Bytes.zero [97,10,98,10] = some [97,10] :=
  (grep_prints_matching_lines [97] (fun _ => 0) Bytes.zero [97,10,98,10] (by decide) 5 (by decide)).mpr (by decide)

/-- A line of `BUFSZ - 1` characters is not printed, though every line matches the empty pattern. -/
theorem grep_long_line_lost : ∃ input : List Byte, 0 ∉ input ∧ (lines input).filter (matchRe []) ≠ [] ∧
    ∀ (chunk : ℕ → ℕ) (buf : Bytes BUFSZ) (fuel : ℕ), input.length < fuel → grep [] chunk fuel buf input = some [] := by
  have hmem : ∀ x ∈ List.replicate (BUFSZ - 1) (97 : Byte), x = 97 := fun x => List.eq_of_mem_replicate
  have hlen : (List.replicate (BUFSZ - 1) (97 : Byte)).length = BUFSZ - 1 := List.length_replicate
  revert hmem hlen
  generalize List.replicate (BUFSZ - 1) (97 : Byte) = long
  intro hmem hlen
  have hfree : newline ∉ long := fun hm => absurd (hmem _ hm) (by decide)
  have h0 : 0 ∉ long ++ [newline] := by
    intro hm
    rcases List.mem_append.mp hm with hm | hm
    · exact absurd (hmem _ hm) (by decide)
    · exact absurd (List.mem_singleton.mp hm) (by decide)
  have hmatch : matchRe [] long = true := by cases long <;> rfl
  refine ⟨long ++ [newline],h0,?_,fun chunk buf fuel hfuel => ?_⟩
  · rw [lines_cons hfree,List.filter_cons_of_pos hmatch]
    exact List.cons_ne_nil _ _
  · rw [grep_eq [] chunk buf h0 hfuel,takeWhile_short_full hfree (.inl hlen.ge)]
    rfl

end Xv6.Grep
