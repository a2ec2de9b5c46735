import Xv6.User.GrepLines

/-! # `xargs.c`

Stores are checked against the bounds of `argv_new` and `line`, whose first contents are arbitrary. The
loops that split a line stand twice in the source, for a line that a newline ends and for the end of the
file; they are the same, and are one definition here.
-/
namespace Xv6.Xargs
open Library
open Grep (line_induction lines_of_free rest_of_free lines_cons rest_cons)
open Function (update update_of_ne update_self)

def MAXLINE : ℕ := 512
def MAXARG : ℕ := 32

def space : Byte := 32

/-- An entry of `argv_new`: null, an argument of `xargs` itself, or a place in `line`. -/
inductive Ptr where
  | null
  | arg (i : ℕ)
  | line (p : ℕ)
deriving DecidableEq

/-- A store outside an array, a walk along `line` beyond its end, or a loop that does not end. -/
inductive Fault where
  | argvNew
  | line
  | fuel
deriving DecidableEq

abbrev Line := ℕ → Byte
abbrev Argv := ℕ → Ptr

def Argv.store (argv : Argv) (i : ℕ) (p : Ptr) : Except Fault Argv :=
  if i < MAXARG then .ok (update argv i p) else .error .argvNew

def Line.store (line : Line) (i : ℕ) (b : Byte) : Except Fault Line :=
  if i < MAXLINE then .ok (update line i b) else .error .line

/-! ## Splitting a line -/

/-- `while (*p == ' ') *p++ = '\0'`, with `left` bytes of the array from `p` on. -/
def skipSpaces : (left p : ℕ) → Line → Except Fault (ℕ × Line)
  | 0, _, _ => .error .line
  | left + 1, p, line =>
    if line p = space then skipSpaces left (p + 1) (update line p 0) else .ok (p,line)

/-- `while (*p && *p != ' ') p++` -/
def skipWord : (left p : ℕ) → Line → Except Fault ℕ
  | 0, _, _ => .error .line
  | left + 1, p, line => if line p ≠ 0 ∧ line p ≠ space then skipWord left (p + 1) line else .ok p

def split : (fuel p argCnt : ℕ) → Argv → Line → Except Fault (ℕ × Argv × Line)
  | 0, _, _, _, _ => .error .fuel
  | fuel + 1, p, argCnt, argv, line =>
    if line p = 0 then .ok (argCnt,argv,line)
    else (skipSpaces (MAXLINE - p) p line).bind fun (p,line) =>
      if line p = 0 then .ok (argCnt,argv,line)
      else (argv.store argCnt (.line p)).bind fun argv =>
        (skipWord (MAXLINE - p) p line).bind fun p => split fuel p (argCnt + 1) argv line

/-! ## The program -/

structure State where
  argvNew : Argv
  line : Line
  pos : ℕ
  /-- how often `fork` was called -/
  forks : ℕ
  /-- the argument vectors of the calls of `exec` -/
  execs : List (List (List Byte))

section
variable (fixed : List (List Byte))

def Line.string (line : Line) (p : ℕ) : List Byte := ((List.range' p (MAXLINE - p)).map line).takeWhile (· != 0)

def Ptr.string (line : Line) : Ptr → Option (List Byte)
  | .null => none
  | .arg k => some (fixed.getD k [])
  | .line p => some (line.string p)

/-- The strings that `exec` finds at `argv_new` from the entry `i` on. -/
def strings (argv : Argv) (line : Line) : (left i : ℕ) → Except Fault (List (List Byte))
  | 0, _ => .error .argvNew
  | left + 1, i =>
    match (argv i).string fixed line with
    | none => .ok []
    | some v => (strings argv line left (i + 1)).map (v :: ·)

/-- A line is complete: it is split, and a child executes the command unless `fork` fails. -/
def finish (fork : ℕ → Bool) (s : State) : Except Fault State :=
  (s.line.store s.pos 0).bind fun line =>
    (split MAXLINE 0 fixed.length s.argvNew line).bind fun (argCnt,argv,line) =>
      (argv.store argCnt .null).bind fun argv =>
        if fork s.forks then
          (strings fixed argv line MAXARG 0).map fun v => ⟨argv,line,s.pos,s.forks + 1,s.execs ++ [v]⟩
        else .ok ⟨argv,line,s.pos,s.forks + 1,s.execs⟩

/-- The loop over the characters read from descriptor 0, and what follows it. -/
def readLoop (fork : ℕ → Bool) : List Byte → State → Except Fault State
  | [], s => if 0 < s.pos then finish fixed fork s else .ok s
  | ch :: input, s =>
    if ch = newline then (finish fixed fork s).bind fun s => readLoop fork input { s with pos := 0 }
    else if s.pos < MAXLINE - 1 then
      (s.line.store s.pos ch).bind fun line => readLoop fork input { s with line := line, pos := s.pos + 1 }
    else readLoop fork input s

/-- The loop that copies `k` fixed arguments from the `i`th on. -/
def copyArgs : (k i : ℕ) → Argv → Except Fault Argv
  | 0, _, argv => .ok argv
  | k + 1, i, argv => (argv.store i (.arg i)).bind fun argv => copyArgs k (i + 1) argv

/-- `main`, with `fixed` for the arguments after the name of the program; the vectors passed to `exec`. -/
def main (fork : ℕ → Bool) (argv : Argv) (line : Line) (input : List Byte) : Except Fault (List (List (List Byte))) :=
  if fixed = [] then .ok []
  else (copyArgs fixed.length 0 argv).bind fun argv =>
    (readLoop fixed fork input ⟨argv,line,0,0,[]⟩).map State.execs

end

/-! ## Words -/

def words (l : List Byte) : List (List Byte) := (l.splitOnP (· == space)).filter (· ≠ [])

theorem words_space (l : List Byte) : words (space :: l) = words l := by
  rw [words,List.splitOnP_cons_eq_if_modifyHead,if_pos (beq_self_eq_true space)]
  simp [words]

theorem words_dropWhile (l : List Byte) : words (l.dropWhile (· == space)) = words l := by
  induction l with
  | nil => rfl
  | cons b l ih =>
    by_cases hb : b = space
    · rw [List.dropWhile_cons_of_pos (by simp [hb]),ih,hb,words_space]
    · rw [List.dropWhile_cons_of_neg (by simp [hb])]

theorem words_word {w r : List Byte} (hw : space ∉ w) (hne : w ≠ []) (hr : ∀ b ∈ r.head?, b = space) :
    words (w ++ r) = w :: words r := by
  have hfree : ∀ x ∈ w, (x == space) = false := fun x hx => beq_eq_false_iff_ne.mpr fun he => hw (he ▸ hx)
  cases r with
  | nil =>
    rw [List.append_nil,words,List.splitOnP_eq_singleton hfree]
    simp [words,hne]
  | cons b r =>
    obtain rfl := hr b rfl
    rw [words_space,words,List.splitOnP_append_cons_of_forall_mem hfree space (beq_self_eq_true space)]
    simp [words,hne]

theorem words_nil : words [] = [] := by decide

/-! ## Strings in the buffer -/

/-- The NUL-terminated string `w` stands at `p` within the array. -/
abbrev Str (line : Line) (p : ℕ) (w : List Byte) : Prop := CStr MAXLINE line p w

/-! ## The loops -/

section
variable {line : Line} {p : ℕ} {l : List Byte}

theorem skipSpaces_eq (h : Str line p l) :
    ∃ line', skipSpaces (MAXLINE - p) p line = .ok (p + (l.takeWhile (· == space)).length,line') ∧
      Str line' (p + (l.takeWhile (· == space)).length) (l.dropWhile (· == space)) ∧
      (∀ q, q < p → line' q = line q) ∧ ((∀ b ∈ l.head?, b = space) → line' p = 0) := by
  induction l generalizing p line with
  | nil =>
    have hz : line p = 0 := h.nul
    refine ⟨line,?_,h,fun _ _ => rfl,fun _ => hz⟩
    rw [h.room,skipSpaces,hz,if_neg (by decide)]
    rfl
  | cons b l ih =>
    rw [h.room,skipSpaces,h.head]
    by_cases hsp : b = space
    · have hcut : Str (update line p 0) (p + 1) l :=
        h.tail.congr fun q hq _ => update_of_ne (by omega) _ _
      obtain ⟨line',hrun,hstr,hsame,-⟩ := ih hcut
      rw [if_pos hsp,hrun,List.takeWhile_cons_of_pos (by simp [hsp]),List.dropWhile_cons_of_pos (by simp [hsp]),
        List.length_cons,Nat.add_comm (List.length _) 1,← Nat.add_assoc]
      refine ⟨line',rfl,hstr,fun q hq => ?_,fun _ => ?_⟩
      · rw [hsame q (by omega),update_of_ne (by omega)]
      · rw [hsame p (by omega),update_self]
    · rw [if_neg hsp,List.takeWhile_cons_of_neg (by simp [hsp]),List.dropWhile_cons_of_neg (by simp [hsp])]
      exact ⟨line,rfl,h,fun _ _ => rfl,fun hall => absurd (hall b rfl) hsp⟩

theorem skipWord_eq (h : Str line p l) :
    skipWord (MAXLINE - p) p line = .ok (p + (l.takeWhile (· != space)).length) := by
  induction l generalizing p with
  | nil =>
    have hz : line p = 0 := h.nul
    rw [h.room,skipWord,hz,if_neg (by simp)]
    rfl
  | cons b l ih =>
    rw [h.room,skipWord,h.head]
    by_cases hsp : b = space
    · rw [if_neg (fun hne => hne.2 hsp),List.takeWhile_cons_of_neg (by simp [hsp])]
      rfl
    · rw [if_pos ⟨h.head_ne,hsp⟩,ih h.tail,List.takeWhile_cons_of_pos (by simp [hsp]),List.length_cons,
        Nat.add_comm (List.length _) 1,← Nat.add_assoc]

theorem split_step (h : Str line p l) (fuel argCnt : ℕ) (argv : Argv) :
    (words l = [] ∧ ∃ line₁, split (fuel + 1) p argCnt argv line = .ok (argCnt,argv,line₁) ∧
      (∀ q, q < p → line₁ q = line q) ∧ ((∀ b ∈ l.head?, b = space) → line₁ p = 0)) ∨
    ∃ w r p₁ line₁, words l = w :: words r ∧ r.length < l.length ∧ p < p₁ + w.length ∧ Str line₁ p₁ (w ++ r) ∧
      (∀ b ∈ r.head?, b = space) ∧ (∀ q, q < p → line₁ q = line q) ∧
      ((∀ b ∈ l.head?, b = space) → line₁ p = 0) ∧
      split (fuel + 1) p argCnt argv line =
        (argv.store argCnt (.line p₁)).bind fun argv => split fuel (p₁ + w.length) (argCnt + 1) argv line₁ := by
  rw [split]
  by_cases hl : l = []
  · subst hl
    have hz : line p = 0 := h.nul
    rw [if_pos hz]
    exact .inl ⟨words_nil,line,rfl,fun _ _ => rfl,fun _ => hz⟩
  obtain ⟨line₁,hskip,hstr,hsame,hzero⟩ := skipSpaces_eq h
  have hwords := words_dropWhile l
  have hlen := congrArg List.length (List.takeWhile_append_dropWhile (p := (· == space)) (l := l))
  have hhead := List.head?_dropWhile_not (· == space) l
  rw [if_neg (mt h.nil_iff.mp hl),hskip]
  rw [List.length_append] at hlen
  generalize hp₁ : p + (l.takeWhile (· == space)).length = p₁ at *
  generalize l.dropWhile (· == space) = l₁ at *
  simp only [Except.bind]
  by_cases hnil : l₁ = []
  · subst hnil
    rw [if_pos (hstr.nil_iff.mpr rfl)]
    exact .inl ⟨by rw [← hwords,words_nil],line₁,rfl,hsame,hzero⟩
  -- the word at `p₁`, and what follows it
  have hword := skipWord_eq hstr
  have hsplit := List.takeWhile_append_dropWhile (p := (· != space)) (l := l₁)
  have hspace : ∀ x ∈ l₁.takeWhile (· != space), x ≠ space := fun x hx => by
    simpa using List.mem_takeWhile_imp hx
  have hrest : ∀ b ∈ (l₁.dropWhile (· != space)).head?, b = space := fun b hb => by
    have hnot := List.head?_dropWhile_not (· != space) l₁
    rw [hb] at hnot
    simpa using hnot
  have hne : l₁.takeWhile (· != space) ≠ [] := by
    obtain ⟨b,t,rfl⟩ := List.exists_cons_of_ne_nil hnil
    have hb : b ≠ space := by simpa using hhead
    rw [List.takeWhile_cons_of_pos (by simp [hb])]
    exact List.cons_ne_nil _ _
  generalize l₁.takeWhile (· != space) = w at *
  generalize l₁.dropWhile (· != space) = r at *
  subst hsplit
  have hpos := List.length_pos_iff.mpr hne
  rw [words_word (fun hm => hspace space hm rfl) hne hrest] at hwords
  rw [List.length_append] at hlen
  rw [if_neg (mt hstr.nil_iff.mp hnil),hword]
  exact .inr ⟨w,r,p₁,line₁,hwords.symm,by omega,by omega,hstr,hrest,hsame,hzero,rfl⟩

theorem split_eq {fuel : ℕ} (hfuel : l.length < fuel) (h : Str line p l) {argCnt : ℕ} (argv : Argv)
    (hroom : argCnt + (words l).length ≤ MAXARG) :
    ∃ argv' line', split fuel p argCnt argv line = .ok (argCnt + (words l).length,argv',line') ∧
      (∀ i, i < argCnt → argv' i = argv i) ∧
      (∀ i w, (words l)[i]? = some w → ∃ q, argv' (argCnt + i) = .line q ∧ Str line' q w) ∧
      (∀ q, q < p → line' q = line q) ∧ ((∀ b ∈ l.head?, b = space) → line' p = 0) := by
  induction fuel generalizing l p argCnt argv line with
  | zero => omega
  | succ fuel ih =>
    rcases split_step h fuel argCnt argv with ⟨hnone,line₁,hrun,hsame,hzero⟩ |
      ⟨w,r,p₁,line₁,hwords,hlen,hp₁,hstr,hrest,hsame,hzero,hrun⟩
    · rw [hrun,hnone]
      exact ⟨argv,line₁,rfl,fun _ _ => rfl,fun i w hw => by simp at hw,hsame,hzero⟩
    · rw [hwords,List.length_cons] at hroom ⊢
      have hroom' : argCnt + 1 + (words r).length ≤ MAXARG := by omega
      obtain ⟨argv',line',hrun',hargs,hptrs,hframe,hend⟩ :=
        ih (by omega) hstr.drop (update argv argCnt (.line p₁)) hroom'
      rw [hrun,Argv.store,if_pos (by omega)]
      refine ⟨argv',line',?_,fun i hi => ?_,fun i v hv => ?_,fun q hq => ?_,fun hsp => ?_⟩
      · rw [← Nat.add_assoc,Nat.add_right_comm]
        exact hrun'
      · rw [hargs i (by omega),update_of_ne (by omega)]
      · cases i with
        | zero =>
          obtain rfl : w = v := by simpa using hv
          refine ⟨p₁,?_,hstr.first hframe (hend hrest)⟩
          rw [Nat.add_zero,hargs argCnt (by omega),update_self]
        | succ i =>
          rw [List.getElem?_cons_succ] at hv
          obtain ⟨q,hq,hs⟩ := hptrs i v hv
          exact ⟨q,by rwa [Nat.add_right_comm,Nat.add_assoc] at hq,hs⟩
      · rw [hframe q (by omega),hsame q hq]
      · rw [hframe p hp₁,hzero hsp]

theorem split_overrun {fuel : ℕ} (hfuel : l.length < fuel) (h : Str line p l) {argCnt : ℕ} (argv : Argv)
    (hroom : MAXARG < argCnt + (words l).length) (hcnt : argCnt ≤ MAXARG) :
    split fuel p argCnt argv line = .error .argvNew := by
  induction fuel generalizing l p argCnt argv line with
  | zero => omega
  | succ fuel ih =>
    rcases split_step h fuel argCnt argv with ⟨hnone,-⟩ | ⟨w,r,p₁,line₁,hwords,hlen,-,hstr,-,-,-,hrun⟩
    · rw [hnone,List.length_nil] at hroom
      omega
    · rw [hwords,List.length_cons] at hroom
      rw [hrun,Argv.store]
      split
      · exact ih (by omega) hstr.drop _ (by omega) (by omega)
      · rfl

end

/-! ## One line -/

section
variable {fixed : List (List Byte)} {l : List Byte} {s : State}

theorem strings_eq {argv : Argv} {line : Line} {vs : List (List Byte)} {i left : ℕ}
    (hvs : ∀ j v, vs[j]? = some v → (argv (i + j)).string fixed line = some v)
    (hnull : argv (i + vs.length) = .null) (hleft : vs.length < left) : strings fixed argv line left i = .ok vs := by
  induction vs generalizing i left with
  | nil =>
    obtain ⟨k,rfl⟩ := Nat.exists_eq_succ_of_ne_zero (Nat.ne_of_gt hleft)
    have hi : argv i = .null := hnull
    rw [strings,hi]
    rfl
  | cons v vs ih =>
    obtain ⟨k,rfl⟩ := Nat.exists_eq_succ_of_ne_zero (Nat.ne_of_gt (Nat.zero_lt_of_lt hleft))
    have hrun : strings fixed argv line k (i + 1) = .ok vs := by
      refine ih (fun j v hj => ?_) ?_ (by simpa using hleft)
      · rw [Nat.add_assoc,Nat.add_comm 1]
        exact hvs (j + 1) v hj
      · rw [Nat.add_assoc,Nat.add_comm 1]
        exact hnull
    have hv : (argv i).string fixed line = some v := hvs 0 v rfl
    rw [strings,hv,hrun]
    rfl

def cut (l : List Byte) : List Byte := (l.take (MAXLINE - 1)).takeWhile (· != 0)

/-- The fixed arguments, the words of a line and the null pointer fit in `argv_new`. -/
def Fits (fixed : List (List Byte)) (l : List Byte) : Prop := fixed.length + (words (cut l)).length < MAXARG

instance (fixed : List (List Byte)) (l : List Byte) : Decidable (Fits fixed l) := inferInstanceAs (Decidable (_ < _))

structure Holds (s : State) (l : List Byte) : Prop where
  pos : s.pos = min l.length (MAXLINE - 1)
  bytes : ∀ i b, (l.take (MAXLINE - 1))[i]? = some b → s.line i = b

def Fixed (fixed : List (List Byte)) (s : State) : Prop := ∀ i, i < fixed.length → s.argvNew i = .arg i

theorem Holds.str (h : Holds s l) : Str (update s.line s.pos 0) 0 (cut l) := by
  have hpos := h.pos
  have hcut : cut l ++ (l.take (MAXLINE - 1)).dropWhile (· != 0) = l.take (MAXLINE - 1) :=
    List.takeWhile_append_dropWhile
  have hlen := congrArg List.length hcut
  rw [List.length_append,List.length_take] at hlen
  refine ⟨fun i b hi => ?_,?_,fun hm => ?_,?_⟩
  · have hlt := (List.getElem?_eq_some_iff.mp hi).1
    rw [Nat.zero_add,update_of_ne (by omega)]
    refine h.bytes i b ?_
    rw [← hcut,List.getElem?_append_left hlt]
    exact hi
  · rw [Nat.zero_add]
    by_cases hend : (cut l).length = s.pos
    · rw [hend,update_self]
    · -- the line has a NUL of its own
      have hhead := List.head?_dropWhile_not (· != 0) (l.take (MAXLINE - 1))
      rw [update_of_ne hend]
      cases hd : (l.take (MAXLINE - 1)).dropWhile (· != 0) with
      | nil =>
        rw [hd,List.length_nil] at hlen
        omega
      | cons b t =>
        rw [hd] at hhead
        have hb : b = 0 := by simpa using hhead
        refine h.bytes _ 0 ?_
        rw [← hcut,hd,List.getElem?_append_right le_rfl,hb,Nat.sub_self]
        rfl
  · simpa using List.mem_takeWhile_imp hm
  · rw [MAXLINE] at *
    omega

theorem Holds.pos_lt (h : Holds s l) : s.pos < MAXLINE := by
  rw [h.pos,MAXLINE]
  omega

theorem Holds.length_lt (h : Holds s l) : (cut l).length < MAXLINE := by
  simpa using h.str.bound

theorem finish_overrun (fork : ℕ → Bool) (h : Holds s l) (hlen : fixed.length < MAXARG)
    (hroom : ¬Fits fixed l) : finish fixed fork s = .error .argvNew := by
  have hge : MAXARG ≤ fixed.length + (words (cut l)).length := not_lt.mp hroom
  rw [finish,Line.store,if_pos h.pos_lt]
  by_cases hmore : MAXARG < fixed.length + (words (cut l)).length
  · simp only [Except.bind,split_overrun h.length_lt h.str s.argvNew hmore hlen.le]
  · -- the words fit, the null pointer does not
    obtain ⟨argv,line,hrun,-⟩ := split_eq h.length_lt h.str s.argvNew (not_lt.mp hmore)
    simp only [Except.bind,hrun,Argv.store]
    rw [if_neg (by omega)]

theorem finish_eq (fork : ℕ → Bool) (h : Holds s l) (hfixed : Fixed fixed s)
    (hroom : Fits fixed l) :
    ∃ s', finish fixed fork s = .ok s' ∧ Fixed fixed s' ∧ s'.forks = s.forks + 1 ∧
      s'.execs = s.execs ++ (if fork s.forks then [fixed ++ words (cut l)] else []) := by
  obtain ⟨argv,line,hrun,hargs,hptrs,-⟩ := split_eq h.length_lt h.str s.argvNew (Nat.le_of_lt hroom)
  have hroom' : fixed.length + (words (cut l)).length < MAXARG := hroom
  have hkeep : ∀ i, i < fixed.length + (words (cut l)).length →
      update argv (fixed.length + (words (cut l)).length) .null i = argv i := fun i hi =>
    update_of_ne (by omega) _ _
  have hplaces : ∀ i, i < fixed.length →
      update argv (fixed.length + (words (cut l)).length) .null i = .arg i := fun i hi => by
    rw [hkeep i (by omega),hargs i hi,hfixed i hi]
  have hstrings : strings fixed (update argv (fixed.length + (words (cut l)).length) .null) line MAXARG 0 =
      .ok (fixed ++ words (cut l)) := by
    apply strings_eq
    · intro j v hv
      rw [Nat.zero_add]
      by_cases hj : j < fixed.length
      · rw [List.getElem?_append_left hj] at hv
        rw [hplaces j hj,Ptr.string,List.getD_eq_getElem?_getD,hv,Option.getD_some]
      · rw [List.getElem?_append_right (by omega)] at hv
        have hlt := (List.getElem?_eq_some_iff.mp hv).1
        obtain ⟨q,hq,hs⟩ := hptrs _ v hv
        rw [Nat.add_sub_cancel' (by omega)] at hq
        rw [hkeep j (by omega),hq,Ptr.string,Line.string,hs.takeWhile_eq]
    · rw [Nat.zero_add,List.length_append,update_self]
    · rwa [List.length_append]
  rw [finish,Line.store,if_pos h.pos_lt]
  simp only [Except.bind,hrun,Argv.store,if_pos hroom']
  by_cases hf : fork s.forks
  · rw [if_pos hf,if_pos hf,hstrings]
    exact ⟨_,rfl,hplaces,rfl,rfl⟩
  · rw [if_neg hf,if_neg hf,List.append_nil]
    exact ⟨_,rfl,hplaces,rfl,rfl⟩

/-! ## The whole input -/

def linesOf (input : List Byte) : List (List Byte) :=
  Grep.lines input ++ if Grep.rest input = [] then [] else [Grep.rest input]

/-- The lines whose call of `fork`, from the `k`th on, succeeds. -/
def forked (fork : ℕ → Bool) : ℕ → List (List Byte) → List (List Byte)
  | _, [] => []
  | k, l :: ls => (if fork k then [l] else []) ++ forked fork (k + 1) ls

theorem forked_all (k : ℕ) (ls : List (List Byte)) : forked (fun _ => true) k ls = ls := by
  induction ls generalizing k with
  | nil => rfl
  | cons l ls ih => rw [forked,ih,if_pos rfl,List.singleton_append]

theorem Holds.snoc (h : Holds s l) (b : Byte) :
    Holds (if s.pos < MAXLINE - 1 then { s with line := update s.line s.pos b, pos := s.pos + 1 } else s)
      (l ++ [b]) := by
  have hpos := h.pos
  split
  · rename_i hlt
    refine ⟨?_,fun i x hi => ?_⟩
    · rw [List.length_append,List.length_singleton]
      change s.pos + 1 = _
      omega
    · have hl : l.length = s.pos := by omega
      rw [List.take_of_length_le (by rw [List.length_append,List.length_singleton]; omega)] at hi
      by_cases hil : i < l.length
      · rw [List.getElem?_append_left hil] at hi
        refine (update_of_ne (by omega) _ _).trans (h.bytes i x ?_)
        rw [List.take_of_length_le (by omega),hi]
      · rw [List.getElem?_append_right (by omega)] at hi
        obtain ⟨hz,rfl⟩ := List.getElem?_eq_some_iff.mp hi
        have hi' : i = s.pos := by
          rw [List.length_singleton] at hz
          omega
        subst hi'
        simp
  · rename_i hge
    have hl : MAXLINE - 1 ≤ l.length := by omega
    refine ⟨?_,fun i x hi => h.bytes i x ?_⟩
    · rw [List.length_append]
      omega
    · rwa [List.take_append_of_le_length hl] at hi

theorem readLoop_chars (fork : ℕ → Bool) {w : List Byte} (hw : newline ∉ w) (t : List Byte)
    (h : Holds s l) (hfixed : Fixed fixed s) :
    ∃ s', readLoop fixed fork (w ++ t) s = readLoop fixed fork t s' ∧ Holds s' (l ++ w) ∧ Fixed fixed s' ∧
      s'.forks = s.forks ∧ s'.execs = s.execs := by
  induction w generalizing s l with
  | nil => exact ⟨s,rfl,by rwa [List.append_nil],hfixed,rfl,rfl⟩
  | cons b w ih =>
    have hb : b ≠ newline := fun he => hw (by simp [he])
    have hstep := h.snoc b
    rw [List.cons_append,readLoop,if_neg hb]
    split at hstep
    · rename_i hlt
      obtain ⟨s',hrun,hholds,hfix,hforks,hexecs⟩ := ih (fun hm => hw (List.mem_cons_of_mem b hm)) hstep hfixed
      refine ⟨s',?_,by simpa using hholds,hfix,hforks,hexecs⟩
      rw [if_pos hlt,Line.store,if_pos (by omega)]
      exact hrun
    · rename_i hge
      obtain ⟨s',hrun,hholds,hfix,hforks,hexecs⟩ := ih (fun hm => hw (List.mem_cons_of_mem b hm)) hstep hfixed
      rw [if_neg hge]
      exact ⟨s',hrun,by simpa using hholds,hfix,hforks,hexecs⟩

theorem readLoop_eq (hlen : fixed.length < MAXARG) (fork : ℕ → Bool) (input : List Byte) (hs : Holds s [])
    (hfixed : Fixed fixed s) :
    if ∀ l ∈ linesOf input, Fits fixed l then
      ∃ s', readLoop fixed fork input s = .ok s' ∧
        s'.execs = s.execs ++ (forked fork s.forks (linesOf input)).map fun l => fixed ++ words (cut l)
    else readLoop fixed fork input s = .error .argvNew := by
  induction input using line_induction generalizing s with
  | free w hw =>
    obtain ⟨s',hrun,hholds,hfix,hforks,hexecs⟩ := readLoop_chars fork hw [] hs hfixed
    have hpos := hholds.pos
    rw [List.append_nil] at hrun
    rw [List.nil_append] at hholds hpos
    rw [linesOf,lines_of_free hw,rest_of_free hw,List.nil_append,hrun,readLoop]
    by_cases hnil : w = []
    · subst hnil
      have hzero : ¬0 < s'.pos := by simp [hpos]
      rw [if_pos (rfl : ([] : List Byte) = []),if_pos (by simp),if_neg hzero]
      exact ⟨s',rfl,by simp [forked,hexecs]⟩
    have hsome : 0 < s'.pos := by
      have := List.length_pos_iff.mpr hnil
      rw [hpos,MAXLINE]
      omega
    simp only [if_neg hnil,if_pos hsome,List.mem_singleton,forall_eq]
    split
    · rename_i hroom
      obtain ⟨s'',hfinish,-,-,hout⟩ := finish_eq fork hholds hfix hroom
      refine ⟨s'',hfinish,?_⟩
      rw [hout,hexecs,hforks,forked,forked,List.append_nil]
      split <;> rfl
    · rename_i hroom
      exact finish_overrun fork hholds hlen hroom
  | line w t hw ih =>
    have hlines : linesOf (w ++ newline :: t) = w :: linesOf t := by
      rw [linesOf,lines_cons hw,rest_cons hw,linesOf,List.cons_append]
    obtain ⟨s₁,hrun,hholds,hfix,hforks,hexecs⟩ := readLoop_chars fork hw (newline :: t) hs hfixed
    rw [List.nil_append] at hholds
    rw [hlines,hrun,readLoop,if_pos rfl]
    simp only [List.forall_mem_cons]
    by_cases hroom : Fits fixed w
    · obtain ⟨s₂,hfinish,hfix₂,hforks₂,hout⟩ := finish_eq fork hholds hfix hroom
      have hrest := ih (s := { s₂ with pos := 0 }) ⟨by simp,fun i b hi => by simp at hi⟩ hfix₂
      rw [hfinish]
      simp only [hroom,true_and,Except.bind]
      split at hrest
      · rename_i hall
        obtain ⟨s₃,hrun₃,hout₃⟩ := hrest
        rw [if_pos hall]
        refine ⟨s₃,hrun₃,?_⟩
        rw [hout₃,forked,List.map_append,← List.append_assoc]
        change s₂.execs ++ List.map _ (forked fork s₂.forks _) = _
        rw [hout,hexecs,hforks₂,hforks]
        congr 2
        split <;> rfl
      · rename_i hall
        rw [if_neg hall]
        exact hrest
    · rw [if_neg (fun h => hroom h.1),finish_overrun fork hholds hlen hroom]
      rfl

theorem copyArgs_eq {k i : ℕ} (argv : Argv) (h : i + k ≤ MAXARG) :
    ∃ argv', copyArgs k i argv = .ok argv' ∧ (∀ j, j < i → argv' j = argv j) ∧
      ∀ j, i ≤ j → j < i + k → argv' j = .arg j := by
  induction k generalizing i argv with
  | zero => exact ⟨argv,rfl,fun _ _ => rfl,fun j _ _ => by omega⟩
  | succ k ih =>
    obtain ⟨argv',hrun,hbefore,hafter⟩ := ih (i := i + 1) (update argv i (.arg i)) (by omega)
    rw [copyArgs,Argv.store,if_pos (by omega)]
    refine ⟨argv',hrun,fun j hj => ?_,fun j hj hk => ?_⟩
    · rw [hbefore j (by omega),update_of_ne (by omega)]
    · by_cases he : j = i
      · rw [he,hbefore i (by omega),update_self]
      · exact hafter j (by omega) (by omega)

theorem main_eq (hne : fixed ≠ []) (hlen : fixed.length < MAXARG) (fork : ℕ → Bool) (argv : Argv) (line : Line)
    (input : List Byte) :
    main fixed fork argv line input =
      if ∀ l ∈ linesOf input, Fits fixed l then
        .ok ((forked fork 0 (linesOf input)).map fun l => fixed ++ words (cut l))
      else .error .argvNew := by
  obtain ⟨argv',hcopy,-,hargs⟩ := copyArgs_eq (k := fixed.length) (i := 0) argv (by omega)
  have hrun := readLoop_eq hlen fork input (s := ⟨argv',line,0,0,[]⟩) ⟨by simp,fun i b hi => by simp at hi⟩
    (fun i hi => hargs i (Nat.zero_le i) (by omega))
  rw [main,if_neg hne,hcopy]
  simp only [Except.bind]
  split at hrun
  · rename_i hall
    obtain ⟨s',hloop,hout⟩ := hrun
    rw [if_pos hall,hloop,Except.map,hout,List.nil_append]
  · rename_i hall
    rw [if_neg hall,hrun]
    rfl

theorem mem_linesOf {input l : List Byte} (hl : l ∈ linesOf input) {b : Byte} (hb : b ∈ l) : b ∈ input := by
  induction input using line_induction with
  | free w hw =>
    rw [linesOf,lines_of_free hw,rest_of_free hw,List.nil_append] at hl
    split at hl
    · cases hl
    · rwa [List.mem_singleton.mp hl] at hb
  | line w t hw ih =>
    rw [linesOf,lines_cons hw,rest_cons hw,List.cons_append] at hl
    rcases List.mem_cons.mp hl with rfl | hl
    · exact List.mem_append_left _ hb
    · exact List.mem_append_right _ (List.mem_cons_of_mem _ (ih hl))

theorem cut_eq_self (hlen : l.length ≤ MAXLINE - 1) (hnul : 0 ∉ l) : cut l = l := by
  rw [cut,List.take_of_length_le hlen,List.takeWhile_eq_self_iff]
  intro b hb
  exact bne_iff_ne.mpr fun he => hnul (he ▸ hb)

theorem mem_forked {fork : ℕ → Bool} {k : ℕ} {ls : List (List Byte)} (h : l ∈ forked fork k ls) :
    l ∈ ls := by
  induction ls generalizing k with
  | nil => cases h
  | cons a ls ih =>
    rcases List.mem_append.mp h with h | h
    · split at h
      · rw [List.mem_singleton.mp h]
        exact List.mem_cons_self
      · cases h
    · exact List.mem_cons_of_mem a (ih h)

end

/-- One `exec` for each line, with the fixed arguments and the words of that line; a line whose `fork` fails is left out. -/
theorem main_execs (fixed : List (List Byte)) (hne : fixed ≠ []) (hlen : fixed.length < MAXARG) (argv : Argv) (line : Line)
    (input : List Byte) (hnul : 0 ∉ input)
    (hlines : ∀ l ∈ linesOf input, l.length ≤ MAXLINE - 1 ∧ fixed.length + (words l).length ≤ MAXARG - 1) :
    main fixed (fun _ => true) argv line input = .ok ((linesOf input).map fun l => fixed ++ words l) ∧
      ∀ fork, main fixed fork argv line input = .ok ((forked fork 0 (linesOf input)).map fun l => fixed ++ words l) := by
  have hcut : ∀ l ∈ linesOf input, cut l = l := fun l hl =>
    cut_eq_self (hlines l hl).1 fun hm => hnul (mem_linesOf hl hm)
  have hfits : ∀ l ∈ linesOf input, Fits fixed l := fun l hl => by
    have := (hlines l hl).2
    rw [Fits,hcut l hl]
    rw [MAXARG] at *
    omega
  have hall : ∀ fork, main fixed fork argv line input =
      .ok ((forked fork 0 (linesOf input)).map fun l => fixed ++ words l) := fun fork => by
    rw [main_eq hne hlen,if_pos hfits]
    refine congrArg Except.ok (List.map_congr_left fun l hl => ?_)
    rw [hcut l (mem_forked hl)]
  refine ⟨?_,hall⟩
  rw [hall,forked_all]

/-- Spaces before, between and after words, an empty line and a last line without a newline. -/
theorem main_execs_lines :
    main [[101]] (fun _ => true) (fun _ => .null) (fun _ => 0) [32,97,98,32,32,99,32,10,10,100] =
      .ok [[[101],[97,98],[99]],[[101]],[[101],[100]]] :=
  (main_execs [[101]] (by decide) (by decide) (fun _ => .null) (fun _ => 0) [32,97,98,32,32,99,32,10,10,100] (by decide)
    (by decide)).1.trans (by decide +kernel)

/-- No store leaves `line`, and none leaves `argv_new` exactly if every line has few enough words. -/
theorem main_in_bounds (fixed : List (List Byte)) (hne : fixed ≠ []) (hlen : fixed.length + 1 ≤ MAXARG) (fork : ℕ → Bool)
    (argv : Argv) (line : Line) (input : List Byte) :
    ((∃ v, main fixed fork argv line input = .ok v) ↔ ∀ l ∈ linesOf input, Fits fixed l) ∧
      ∀ e, main fixed fork argv line input = .error e → e = .argvNew := by
  rw [main_eq hne hlen]
  split
  · rename_i h
    refine ⟨⟨fun _ => h,fun _ => ⟨_,rfl⟩⟩,fun e he => ?_⟩
    cases he
  · rename_i h
    refine ⟨⟨?_,fun h' => absurd h' h⟩,fun e he => (Except.error.inj he).symm⟩
    rintro ⟨v,hv⟩
    cases hv

theorem main_in_bounds_long_line :
    ∃ v, main [[101]] (fun _ => true) (fun _ => .null) (fun _ => 0) (List.replicate 600 97 ++ [32,97,10]) = .ok v :=
  (main_in_bounds [[101]] (by decide) (by decide) (fun _ => true) (fun _ => .null) (fun _ => 0)
    (List.replicate 600 97 ++ [32,97,10])).1.mpr (by decide +kernel)

/-- One fixed argument and a line of thirty-one words leave no entry for the null pointer. -/
theorem main_overruns_argvNew :
    main [[101]] (fun _ => true) (fun _ => .null) (fun _ => 0) ((List.replicate 31 [97,32]).flatten ++ [10]) =
      .error .argvNew := by
  rw [main_eq (by decide) (by decide)]
  decide +kernel

end Xv6.Xargs
