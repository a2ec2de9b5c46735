import Xv6.Fs.Lookup

/-! # `find.c`

The kernel is what `find` sees of it: a tree of directories that nobody changes, and the
descriptors of the process. A string is the list of its characters without the NUL that ends it;
arrays are accessed with their bounds checked, and their first contents are arbitrary.
-/
namespace Xv6.Find
open Library
open Function (update update_of_ne update_self)

/-! ## System calls -/

/-- The file system, the current directory, whether the system's file table has a free entry for the `k`th call
of `open`, and what the stack holds then. -/
structure World where
  image : Image
  cwd : ℕ
  room : ℕ → Bool
  stack : ℕ → Bytes 512

/-- The descriptors with the inode and the offset of each, how often `open` was called and how often it
failed, and what has been written to descriptors 1 and 2. -/
structure State where
  ofile : Fin NOFILE → Option (ℕ × ℕ)
  opens : ℕ
  refused : ℕ
  out : List Byte
  err : List Byte

namespace State

def print (s : State) (bs : List Byte) : State := { s with out := s.out ++ bs }

def eprint (s : State) (bs : List Byte) : State := { s with err := s.err ++ bs }

def refuse (s : State) : State := { s with opens := s.opens + 1, refused := s.refused + 1 }

def close (s : State) (fd : Fin NOFILE) : State := { s with ofile := update s.ofile fd none }

end State

namespace World
variable (w : World)

def namei (path : List Byte) : Option ℕ :=
  w.image.walk (if path.head? = some slash then ROOTINO else w.cwd) (pathElems path)

def openRd (path : List Byte) (s : State) : Option (Fin NOFILE) × State :=
  match (argstr (some path)).bind w.namei with
  | none => (none,s.refuse)
  | some i =>
    if (w.image.ino i).type = T_DEVICE ∧ badMajor (w.image.ino i).major then (none,s.refuse)
    else if w.room s.opens then
      match (List.finRange NOFILE).find? fun fd => decide (s.ofile fd = none) with
      | none => (none,s.refuse)
      | some fd => (some fd,{ s with opens := s.opens + 1, ofile := update s.ofile fd (some (i,0)) })
    else (none,s.refuse)

def fstat (fd : Fin NOFILE) (s : State) : Option (BitVec 16) := (s.ofile fd).map fun f => (w.image.ino f.1).type

def read (fd : Fin NOFILE) (n : ℕ) (s : State) : List Byte × State :=
  match s.ofile fd with
  | none => ([],s)
  | some (i,off) =>
    let bytes := w.image.readBytes i off n
    (bytes,{ s with ofile := update s.ofile fd (some (i,off + bytes.length)) })

end World

/-! ## Arrays and strings -/

/-- An array is accessed outside its bounds; the recursion is deeper than the model follows it. -/
inductive Fault
  | overrun
  | depth
  deriving DecidableEq

def store (buf : Bytes 512) (off : ℕ) (src : List Byte) : Except Fault (Bytes 512) :=
  if off + src.length ≤ 512 then .ok (buf.splice off src) else .error .overrun

def strcpy (buf : Bytes 512) (t : List Byte) : Except Fault (Bytes 512) := store buf 0 (t ++ [0])

def cstr (buf : Bytes 512) : Except Fault (List Byte) :=
  let s := (buf.slice 0 512).takeWhile (· != 0)
  if s.length < 512 then .ok s else .error .overrun

/-- `strcmp(p, q)` of an array and a string. -/
def strcmp : List Byte → List Byte → Except Fault ℤ
  | [], _ => .error .overrun
  | c :: p, q =>
    if c ≠ 0 ∧ c = q.headD 0 then strcmp p q.tail else .ok ((c.toNat : ℤ) - (q.headD 0).toNat)

/-! ## The program -/

/-- The loop of `fmtname`, with `p` one less than the argument. -/
def fmtnameFrom (path : List Byte) : ℕ → ℕ
  | 0 => 0
  | p + 1 => if path.getD p 0 ≠ slash then fmtnameFrom path p else p + 1

def fmtname (path : List Byte) : List Byte := path.drop (fmtnameFrom path (path.length + 1))

def equalPrint (path findname : List Byte) (s : State) : Except Fault State := do
  if (← strcmp (fmtname path ++ [0]) findname) = 0 then pure (s.print (path ++ [newline])) else pure s

def passes (de : Dirent) : Except Fault Bool := do
  if de.inum = 0 then pure true
  else if (← strcmp de.name dot) = 0 then pure true
  else if (← strcmp de.name dotdot) = 0 then pure true
  else pure false

/-- The loop of `find`; `call` is `find(_, file_name)`, and `p` is where the names go. -/
def scan (w : World) (call : List Byte → State → Except Fault State) (fd : Fin NOFILE) (p : ℕ) :
    ℕ → Bytes 512 → State → Except Fault State
  | 0, _, _ => .error .depth
  | rounds + 1, buf, s => do
    let r := w.read fd 16 s
    if r.1.length = 16 then
      let de := Dirent.ofBytes r.1
      if ← passes de then scan w call fd p rounds buf r.2
      else
        let buf ← store buf p de.name
        let buf ← store buf (p + DIRSIZ) [0]
        let s ← call (← cstr buf) r.2
        scan w call fd p rounds buf s
    else pure r.2

def find (w : World) (file_name : List Byte) : ℕ → List Byte → State → Except Fault State
  | 0, _, _ => .error .depth
  | fuel + 1, dir_name, s =>
    match w.openRd dir_name s with
    | (none,s) => .ok (s.eprint (text "find: cannot open " ++ dir_name ++ [newline]))
    | (some fd,s) =>
      match w.fstat fd s with
      | none => .ok ((s.eprint (text "find: cannot stat " ++ dir_name ++ [newline])).close fd)
      | some type =>
        if type = T_FILE then do
          let s ← equalPrint dir_name file_name s
          pure (s.close fd)
        else if type = T_DIR then do
          -- the function goes on after the message
          let s := if 512 < dir_name.length + 1 + DIRSIZ + 1 then s.print (text "find: path too long\n") else s
          let buf ← strcpy (w.stack s.opens) dir_name
          let n := (← cstr buf).length
          let buf ← store buf n [slash]
          let s ← scan w (find w file_name fuel) fd (n + 1) fuel buf s
          pure (s.close fd)
        else .ok (s.close fd)

/-! ## Strings -/

theorem strcmp_ok {p q : List Byte} (hq : 0 ∉ q) (h : 0 ∈ p ∨ q.length < p.length) :
    ∃ r, strcmp p q = .ok r ∧ (r = 0 ↔ p.takeWhile (· != 0) = q) := by
  induction p generalizing q with
  | nil =>
    rcases h with h | h
    · cases h
    · exact absurd h (Nat.not_lt_zero _)
  | cons c p ih =>
    rw [strcmp,List.takeWhile_cons]
    split
    · rename_i hc
      cases q with
      | nil => exact absurd hc.2 hc.1
      | cons d q =>
        obtain ⟨hc,rfl⟩ : c ≠ 0 ∧ c = d := hc
        obtain ⟨r,hr,hiff⟩ := ih (List.not_mem_of_not_mem_cons hq)
          (h.imp (fun h => (List.mem_cons.mp h).resolve_left hc.symm) Nat.lt_of_succ_lt_succ)
        refine ⟨r,hr,?_⟩
        rw [hiff,if_pos (by simpa using hc),List.cons_inj_right]
    · rename_i hc
      refine ⟨_,rfl,?_⟩
      rw [Int.sub_eq_zero,Int.natCast_inj,BitVec.toNat_inj]
      by_cases h0 : c = 0
      · rw [if_neg (by simp [h0]),h0]
        cases q with
        | nil => simp
        | cons d q =>
          have hd : ¬0 = d := fun hd => hq (hd ▸ List.mem_cons_self)
          rw [List.headD_cons,iff_false_left hd]
          exact List.cons_ne_nil d q ∘ Eq.symm
      · rw [if_pos (by simpa using h0)]
        constructor
        · exact fun he => absurd ⟨h0,he⟩ hc
        · rintro rfl
          rfl

theorem fmtnameFrom_eq (path : List Byte) (p : ℕ) (hp : p ≤ path.length) :
    path.take (fmtnameFrom path p) ++ ((path.take p).reverse.takeWhile (· != slash)).reverse = path.take p := by
  induction p with
  | zero => simp [fmtnameFrom]
  | succ p ih =>
    rw [fmtnameFrom,List.take_succ_eq_append_getElem hp,List.getD_eq_getElem _ _ hp,List.reverse_append]
    split
    · rename_i h
      rw [List.reverse_singleton,List.singleton_append,List.takeWhile_cons_of_pos (by simpa using h),List.reverse_cons,
        ← List.append_assoc,ih (by omega)]
    · rename_i h
      rw [List.reverse_singleton,List.singleton_append,List.takeWhile_cons_of_neg (by simpa using h),List.reverse_nil,
        List.append_nil,List.take_succ_eq_append_getElem hp]

theorem fmtname_eq (path : List Byte) : fmtname path = (path.reverse.takeWhile (· != slash)).reverse := by
  have h := fmtnameFrom_eq path path.length (Nat.le_refl _)
  rw [List.take_length] at h
  have hend : fmtnameFrom path (path.length + 1) = fmtnameFrom path path.length := by
    rw [fmtnameFrom,if_pos]
    rw [List.getD_eq_default _ _ (Nat.le_refl _)]
    decide
  rw [fmtname,hend]
  exact List.append_cancel_left ((List.take_append_drop _ path).trans h.symm)

/-! ## The path buffer -/

def hidden (de : Dirent) : Bool := decide (de.inum = 0 ∨ nameOf de.name = dot ∨ nameOf de.name = dotdot)

theorem nameOf_eq {name : List Byte} (h : name.length = DIRSIZ) : nameOf name = name.takeWhile (· != 0) := by
  rw [nameOf,List.take_of_length_le h.le]

theorem passes_eq {de : Dirent} (h : de.name.length = DIRSIZ) : passes de = .ok (hidden de) := by
  obtain ⟨r,hr,hdot⟩ := strcmp_ok (p := de.name) (q := dot) (by decide) (.inr (by rw [h]; decide))
  obtain ⟨r',hr',hdotdot⟩ := strcmp_ok (p := de.name) (q := dotdot) (by decide) (.inr (by rw [h]; decide))
  rw [← nameOf_eq h] at hdot hdotdot
  rw [passes,hr,hr',hidden]
  by_cases h₀ : de.inum = 0
  · rw [if_pos h₀,decide_eq_true (.inl h₀)]
    rfl
  · rw [if_neg h₀]
    change (if r = 0 then .ok true else if r' = 0 then .ok true else .ok false : Except Fault Bool) = _
    by_cases h₁ : r = 0
    · rw [if_pos h₁,decide_eq_true (.inr (.inl (hdot.mp h₁)))]
    · by_cases h₂ : r' = 0
      · rw [if_neg h₁,if_pos h₂,decide_eq_true (.inr (.inr (hdotdot.mp h₂)))]
      · rw [if_neg h₁,if_neg h₂,decide_eq_false]
        rintro (h | h | h)
        · exact h₀ h
        · exact h₁ (hdot.mpr h)
        · exact h₂ (hdotdot.mpr h)

theorem cstr_eq {buf : Bytes 512} {n : ℕ} {s : List Byte} (hn : n ≤ 512) (hs : buf.slice 0 n = s) (h0 : 0 ∈ s) :
    cstr buf = .ok (s.takeWhile (· != 0)) := by
  have hlt : (s.takeWhile (· != 0)).length < s.length := by
    refine lt_of_le_of_ne (List.takeWhile_sublist _).length_le fun he => ?_
    have := (List.takeWhile_sublist _).eq_of_length he
    exact nul_not_mem_takeWhile (this.symm ▸ h0)
  have hall : (buf.slice 0 512).takeWhile (· != 0) = s.takeWhile (· != 0) := by
    have hslice := Bytes.slice_add buf 0 n (512 - n)
    rw [Nat.add_sub_cancel' hn] at hslice
    rw [hslice,hs,List.takeWhile_append,if_neg (Nat.ne_of_lt hlt)]
  have hlen : s.length = n := by rw [← hs,Bytes.length_slice]
  rw [cstr,hall,if_pos (by omega)]

def entered (buf : Bytes 512) (p : ℕ) (name : List Byte) : Bytes 512 := (buf.splice p name).splice (p + DIRSIZ) [0]

section Entered
variable {buf : Bytes 512} {p : ℕ} {name : List Byte}

theorem entered_slice (hname : name.length = DIRSIZ) (hp : p + DIRSIZ + 1 ≤ 512) :
    (entered buf p name).slice 0 (p + DIRSIZ + 1) = buf.slice 0 p ++ name ++ [0] := by
  rw [entered]
  have h := Bytes.slice_splice_end (buf.splice p name) (p + DIRSIZ) [0] hp
  rw [List.length_singleton] at h
  rw [h,← hname,Bytes.slice_splice_end buf p name (by omega)]

theorem entered_front : (entered buf p name).slice 0 p = buf.slice 0 p := by
  rw [entered,Bytes.slice_splice_disjoint _ (.inl (by omega)),Bytes.slice_splice_disjoint _ (.inl (by omega))]

theorem cstr_entered (hname : name.length = DIRSIZ) (hp : p + DIRSIZ + 1 ≤ 512) (hbuf : 0 ∉ buf.slice 0 p) :
    cstr (entered buf p name) = .ok (buf.slice 0 p ++ nameOf name) := by
  rw [cstr_eq hp (entered_slice hname hp) (by simp),nameOf_eq hname,List.append_assoc,takeWhile_append_nul hbuf,
    List.takeWhile_append]
  split
  · rename_i h
    rw [(List.takeWhile_sublist (· != 0)).eq_of_length h]
    simp
  · rfl

end Entered

section
variable {w : World} {call : List Byte → State → Except Fault State} {fd : Fin NOFILE} {p n : ℕ} {buf : Bytes 512} {s t : State}
variable {file_name dir_name : List Byte}

theorem ok_bind {α β : Type} (a : α) (f : α → Except Fault β) : (Except.ok a >>= f) = f a := rfl

theorem scan_succ (hp : p + DIRSIZ + 1 ≤ 512) (hbuf : 0 ∉ buf.slice 0 p) :
    scan w call fd p (n + 1) buf s =
      if (w.read fd 16 s).1.length = 16 then
        if hidden (Dirent.ofBytes (w.read fd 16 s).1) then scan w call fd p n buf (w.read fd 16 s).2
        else (call (buf.slice 0 p ++ nameOf (Dirent.ofBytes (w.read fd 16 s).1).name) (w.read fd 16 s).2).bind
          (scan w call fd p n (entered buf p (Dirent.ofBytes (w.read fd 16 s).1).name))
      else .ok (w.read fd 16 s).2 := by
  rw [scan]
  dsimp only
  generalize w.read fd 16 s = r
  split
  · rename_i hr
    have hname : (Dirent.ofBytes r.1).name.length = DIRSIZ := by
      rw [Dirent.ofBytes,List.length_drop,hr]
    rw [passes_eq hname,ok_bind]
    split
    · rfl
    · have h₁ : store buf p (Dirent.ofBytes r.1).name = .ok (buf.splice p (Dirent.ofBytes r.1).name) := if_pos (by omega)
      have h₂ : store (buf.splice p (Dirent.ofBytes r.1).name) (p + DIRSIZ) [0] =
          .ok (entered buf p (Dirent.ofBytes r.1).name) := if_pos hp
      rw [h₁,ok_bind,h₂,ok_bind,cstr_entered hname hp hbuf,ok_bind]
      rfl
  · rfl

/-! ## One call -/

theorem openRd_none (h : w.openRd dir_name s = (none,t)) : t = s.refuse := by
  unfold World.openRd at h
  split at h
  · exact (congrArg Prod.snd h).symm
  · split at h
    · exact (congrArg Prod.snd h).symm
    · split at h
      · split at h
        · exact (congrArg Prod.snd h).symm
        · cases congrArg Prod.fst h
      · exact (congrArg Prod.snd h).symm

theorem openRd_some (hnul : 0 ∉ dir_name) (h : w.openRd dir_name s = (some fd,t)) :
    dir_name.length < MAXPATH ∧ ∃ i, w.namei dir_name = some i ∧ s.ofile fd = none ∧
      t = { s with opens := s.opens + 1, ofile := update s.ofile fd (some (i,0)) } := by
  unfold World.openRd at h
  rw [argstr,takeWhile_string hnul] at h
  split at h
  · cases congrArg Prod.fst h
  rename_i i hi
  obtain ⟨path,hpath,hi⟩ := Option.bind_eq_some_iff.mp hi
  split at h
  · cases congrArg Prod.fst h
  split at h
  swap
  · cases congrArg Prod.fst h
  split at h
  · cases congrArg Prod.fst h
  rename_i fd' hfd
  obtain ⟨hfst,hsnd⟩ := Prod.mk.inj h
  obtain rfl := Option.some.inj hfst
  split at hpath
  · obtain rfl := Option.some.inj hpath
    have hfree := List.find?_some hfd
    exact ⟨‹_›,i,hi,of_decide_eq_true hfree,hsnd.symm⟩
  · cases hpath

theorem equalPrint_eq (hnul : 0 ∉ dir_name) (hfile : 0 ∉ file_name) :
    equalPrint dir_name file_name s = .ok (if fmtname dir_name = file_name then s.print (dir_name ++ [newline]) else s) := by
  obtain ⟨r,hr,hiff⟩ := strcmp_ok (p := fmtname dir_name ++ [0]) hfile (.inl (by simp))
  have hchars : (fmtname dir_name ++ [0]).takeWhile (· != 0) = fmtname dir_name := by
    have hnul : 0 ∉ fmtname dir_name := fun h => hnul (List.mem_of_mem_drop h)
    rw [takeWhile_append_nul hnul]
    simp
  rw [hchars] at hiff
  rw [equalPrint,hr,ok_bind]
  by_cases h : r = 0
  · rw [if_pos h,if_pos (hiff.mp h)]
    rfl
  · rw [if_neg h,if_neg (mt hiff.mpr h)]
    rfl

section Call
variable {fuel i : ℕ}

theorem find_refused (h : w.openRd dir_name s = (none,t)) : find w file_name (fuel + 1) dir_name s =
    .ok (s.refuse.eprint (text "find: cannot open " ++ dir_name ++ [newline])) := by
  rw [find,h,openRd_none h]

theorem fstat_open (ht : t = { s with opens := s.opens + 1, ofile := update s.ofile fd (some (i,0)) }) :
    w.fstat fd t = some (w.image.ino i).type := by
  rw [ht,World.fstat]
  simp

theorem find_file (hnul : 0 ∉ dir_name) (hfile : 0 ∉ file_name) (h : w.openRd dir_name s = (some fd,t))
    (ht : w.fstat fd t = some T_FILE) : find w file_name (fuel + 1) dir_name s =
    .ok ((if fmtname dir_name = file_name then t.print (dir_name ++ [newline]) else t).close fd) := by
  rw [find,h]
  dsimp only
  rw [ht]
  dsimp only
  rw [if_pos rfl,equalPrint_eq hnul hfile]
  rfl

theorem find_other {type : BitVec 16} (h : w.openRd dir_name s = (some fd,t)) (ht : w.fstat fd t = some type)
    (h₁ : type ≠ T_FILE) (h₂ : type ≠ T_DIR) : find w file_name (fuel + 1) dir_name s = .ok (t.close fd) := by
  rw [find,h]
  dsimp only
  rw [ht]
  dsimp only
  rw [if_neg h₁,if_neg h₂]

theorem find_dir (file_name : List Byte) (fuel : ℕ) (hnul : 0 ∉ dir_name) (hlen : dir_name.length < MAXPATH)
    (h : w.openRd dir_name s = (some fd,t))
    (ht : w.fstat fd t = some T_DIR) : ∃ buf : Bytes 512, buf.slice 0 (dir_name.length + 1) = dir_name ++ [slash] ∧
      find w file_name (fuel + 1) dir_name s =
        (scan w (find w file_name fuel) fd (dir_name.length + 1) fuel buf t).bind fun u => .ok (u.close fd) := by
  simp only [MAXPATH] at hlen
  have hcopy : strcpy (w.stack t.opens) dir_name = .ok ((w.stack t.opens).splice 0 (dir_name ++ [0])) := by
    refine if_pos ?_
    rw [List.length_append,List.length_singleton]
    omega
  have hslice := Bytes.slice_splice_end (w.stack t.opens) 0 (dir_name ++ [0]) (by
    rw [List.length_append,List.length_singleton]
    omega)
  rw [Nat.zero_add,List.length_append,List.length_singleton] at hslice
  have hcstr := cstr_eq (by omega) hslice (by simp)
  have hchars : ((w.stack t.opens).slice 0 0 ++ (dir_name ++ [0])).takeWhile (· != 0) = dir_name := by
    change (dir_name ++ [0]).takeWhile (· != 0) = dir_name
    rw [takeWhile_append_nul hnul]
    simp
  rw [hchars] at hcstr
  have hstore : store ((w.stack t.opens).splice 0 (dir_name ++ [0])) dir_name.length [slash] =
      .ok (((w.stack t.opens).splice 0 (dir_name ++ [0])).splice dir_name.length [slash]) := by
    refine if_pos ?_
    rw [List.length_singleton]
    omega
  refine ⟨((w.stack t.opens).splice 0 (dir_name ++ [0])).splice dir_name.length [slash],?_,?_⟩
  · have hend := Bytes.slice_splice_end ((w.stack t.opens).splice 0 (dir_name ++ [0])) dir_name.length [slash]
      (by rw [List.length_singleton]; omega)
    rw [List.length_singleton] at hend
    rw [hend]
    have hfront : ((w.stack t.opens).splice 0 (dir_name ++ [0])).slice (0 + 0) dir_name.length =
        ((dir_name ++ [0]).drop 0).take dir_name.length := Bytes.slice_splice_sub (w.stack t.opens)
      (by rw [List.length_append]; omega) (by rw [List.length_append,List.length_singleton]; omega)
    rw [Nat.add_zero,List.drop_zero,List.take_left' rfl] at hfront
    rw [hfront]
  · rw [find,h]
    dsimp only
    rw [ht]
    dsimp only
    rw [if_neg (by decide),if_pos rfl,if_neg (by simp only [DIRSIZ]; omega),hcopy,ok_bind,hcstr,ok_bind,hstore,ok_bind]
    rfl

end Call

/-! ## Bounds and descriptors -/

/-- A call ends with the descriptors it found, unless the model stops following it. -/
def Settles (s : State) (r : Except Fault State) : Prop := r = .error .depth ∨ ∃ t, r = .ok t ∧ t.ofile = s.ofile

theorem read_ofile {fd' : Fin NOFILE} (h : fd' ≠ fd) : (w.read fd n s).2.ofile fd' = s.ofile fd' := by
  unfold World.read
  split
  · rfl
  · exact update_of_ne h _ _

theorem close_ofile {u : State} {i : ℕ} (hfree : s.ofile fd = none)
    (ht : t = { s with opens := s.opens + 1, ofile := update s.ofile fd (some (i,0)) })
    (hu : ∀ fd', fd' ≠ fd → u.ofile fd' = t.ofile fd') : (u.close fd).ofile = s.ofile := by
  funext fd'
  by_cases hfd : fd' = fd
  · subst hfd
    exact (update_self _ _ _).trans hfree.symm
  · refine (update_of_ne hfd _ _).trans ((hu fd' hfd).trans ?_)
    rw [ht]
    exact update_of_ne hfd _ _

theorem scan_settles (fd : Fin NOFILE) (n : ℕ) (s : State) (hcall : ∀ dir s, 0 ∉ dir → Settles s (call dir s))
    (hp : p + DIRSIZ + 1 ≤ 512)
    (hbuf : 0 ∉ buf.slice 0 p) : scan w call fd p n buf s = .error .depth ∨
      ∃ t, scan w call fd p n buf s = .ok t ∧ ∀ fd', fd' ≠ fd → t.ofile fd' = s.ofile fd' := by
  induction n generalizing buf s with
  | zero => exact .inl rfl
  | succ n ih =>
    have hread : ∀ fd', fd' ≠ fd → (w.read fd 16 s).2.ofile fd' = s.ofile fd' := fun _ => read_ofile
    rw [scan_succ hp hbuf]
    generalize w.read fd 16 s = r at hread ⊢
    split
    · split
      · obtain h | ⟨t,ht,hsame⟩ := ih r.2 hbuf
        · exact .inl h
        · exact .inr ⟨t,ht,fun fd' h => (hsame fd' h).trans (hread fd' h)⟩
      · have hpath : 0 ∉ buf.slice 0 p ++ nameOf (Dirent.ofBytes r.1).name := by
          rw [List.mem_append]
          rintro (h | h)
          · exact hbuf h
          · exact nul_not_mem_takeWhile h
        obtain h | ⟨t,ht,hofile⟩ := hcall _ r.2 hpath
        · rw [h]
          exact .inl rfl
        · rw [ht]
          change scan w call fd p n _ t = _ ∨ ∃ u, scan w call fd p n _ t = _ ∧ _
          obtain h | ⟨u,hu,hsame⟩ := ih t (entered_front ▸ hbuf)
          · exact .inl h
          · exact .inr ⟨u,hu,fun fd' h => by rw [hsame fd' h,hofile,hread fd' h]⟩
    · exact .inr ⟨r.2,rfl,hread⟩

theorem find_settles (hfile : 0 ∉ file_name) (fuel : ℕ) (dir_name : List Byte) (s : State) (hnul : 0 ∉ dir_name) :
    Settles s (find w file_name fuel dir_name s) := by
  induction fuel generalizing dir_name s with
  | zero => exact .inl rfl
  | succ fuel ih =>
    cases hopen : w.openRd dir_name s with
    | mk o t =>
    cases o with
    | none =>
      rw [find_refused hopen]
      exact .inr ⟨_,rfl,rfl⟩
    | some fd =>
    obtain ⟨hlen,i,-,hfree,ht⟩ := openRd_some hnul hopen
    have hstat := fstat_open (w := w) ht
    by_cases h₁ : (w.image.ino i).type = T_FILE
    · rw [find_file hnul hfile hopen (h₁ ▸ hstat)]
      refine .inr ⟨_,rfl,close_ofile hfree ht fun fd' _ => ?_⟩
      split <;> rfl
    by_cases h₂ : (w.image.ino i).type = T_DIR
    · obtain ⟨buf,hbuf,hrun⟩ := find_dir file_name fuel hnul hlen hopen (h₂ ▸ hstat)
      have h0 : 0 ∉ buf.slice 0 (dir_name.length + 1) := by
        rw [hbuf,List.mem_append]
        rintro (h | h)
        · exact hnul h
        · exact absurd h (by decide)
      rw [hrun]
      obtain h | ⟨u,hu,hsame⟩ := scan_settles (w := w) fd fuel t ih
        (by simp only [MAXPATH,DIRSIZ] at *; omega) h0
      · rw [h]
        exact .inl rfl
      · rw [hu]
        exact .inr ⟨_,rfl,close_ofile hfree ht hsame⟩
    · rw [find_other hopen hstat h₁ h₂]
      exact .inr ⟨_,rfl,close_ofile hfree ht fun _ _ => rfl⟩

end

end Xv6.Find
