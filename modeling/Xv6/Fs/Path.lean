import Xv6.Fs.Code

/-! # Path elements

`skipelem` yields the words of a path between slashes, cut to the length of a directory
entry's name. In the kernel it copies each of them into a buffer of that length, over
whatever the buffer held, and leaves no NUL behind a name that fills it; the second half
shows that nothing the code does with the buffer depends on more than the word.
-/
namespace Xv6
open Library
variable {β : Type} (sb : Superblock) {path s : List Byte}

def components (path : List Byte) : List (List Byte) :=
  (path.splitOnP (· == slash)).filter (!·.isEmpty)

@[simp] theorem components_nil : components [] = [] := rfl

theorem components_slash (path : List Byte) : components (slash :: path) = components path := by
  simp [components,List.splitOnP_cons_eq_if_modifyHead]

theorem components_dropWhile (path : List Byte) : components (path.dropWhile (· == slash)) = components path := by
  induction path with
  | nil => rfl
  | cons c path ih =>
    rw [List.dropWhile_cons]
    split
    · rename_i hc
      rw [ih,eq_of_beq hc,components_slash]
    · rfl

theorem components_word {w rest : List Byte} (hw : ∀ c ∈ w, c ≠ slash) (hne : w ≠ [])
    (hrest : rest = [] ∨ rest.head? = some slash) : components (w ++ rest) = w :: components rest := by
  have hw' : ∀ c ∈ w, (c == slash) = false := fun c hc => by simpa using hw c hc
  have hemp : (!w.isEmpty) = true := by simpa using hne
  rcases hrest with rfl | hrest
  · rw [List.append_nil,components,List.splitOnP_eq_singleton hw',List.filter_cons,if_pos hemp]
    rfl
  · cases rest with
    | nil => cases hrest
    | cons c rest =>
      cases hrest
      rw [components,List.splitOnP_append_cons_of_forall_mem hw' slash (by simp),List.filter_cons,if_pos hemp,components_slash]
      rfl

theorem takeWhile_ne_slash : ∀ c ∈ s.takeWhile (· != slash), c ≠ slash := by
  intro c hc
  have := List.mem_takeWhile_imp hc
  simpa using this

theorem dropWhile_ne_slash (s : List Byte) :
    s.dropWhile (· != slash) = [] ∨ (s.dropWhile (· != slash)).head? = some slash := by
  induction s with
  | nil => exact .inl rfl
  | cons c s ih =>
    rw [List.dropWhile_cons]
    split
    · exact ih
    · rename_i hc
      right
      simpa using hc

theorem takeWhile_ne_nil (hs : s ≠ []) (hhead : s.head? ≠ some slash) :
    s.takeWhile (· != slash) ≠ [] := by
  cases s with
  | nil => exact absurd rfl hs
  | cons c s =>
    have hc : c ≠ slash := by simpa using hhead
    simp [hc]

theorem head_dropWhile_slash (path : List Byte) : (path.dropWhile (· == slash)).head? ≠ some slash := by
  induction path with
  | nil => simp
  | cons c path ih =>
    rw [List.dropWhile_cons]
    split
    · exact ih
    · rename_i hc
      simpa using hc

theorem skipelem_eq_none (h : skipelem path = none) : components path = [] := by
  unfold skipelem at h
  dsimp only at h
  split at h
  · rename_i hs
    rw [← components_dropWhile,List.isEmpty_iff.mp hs]
    rfl
  · cases h

theorem skipelem_eq_some {path name rest : List Byte} (h : skipelem path = some (name,rest)) :
    ∃ w, components path = w :: components rest ∧ name = w.take DIRSIZ ∧ w ≠ [] ∧ (∀ c ∈ w, c ∈ path) ∧
      rest.length < path.length ∧ rest.head? ≠ some slash ∧ ∀ c ∈ rest, c ∈ path := by
  unfold skipelem at h
  dsimp only at h
  split at h
  · cases h
  · rename_i hs
    generalize hp : path.dropWhile (· == slash) = s at h hs
    have hsub : s.Sublist path := hp ▸ List.dropWhile_sublist _
    have hne : s ≠ [] := fun he => hs (by rw [he]; rfl)
    have hword := takeWhile_ne_nil hne (hp ▸ head_dropWhile_slash path)
    cases h
    refine ⟨s.takeWhile (· != slash),?_,rfl,hword,?_,?_,head_dropWhile_slash _,?_⟩
    · rw [← components_dropWhile path,hp,components_dropWhile,
        ← components_word takeWhile_ne_slash hword (dropWhile_ne_slash s),List.takeWhile_append_dropWhile]
    · exact fun c hc => hsub.subset ((List.takeWhile_sublist _).subset hc)
    · have h₁ := (List.dropWhile_sublist (l := s.dropWhile (· != slash)) (· == slash)).length_le
      have h₂ := congrArg List.length (List.takeWhile_append_dropWhile (p := (· != slash)) (l := s))
      have h₃ := List.length_pos_iff.mpr hword
      have h₄ := hsub.length_le
      rw [List.length_append] at h₂
      omega
    · exact fun c hc => hsub.subset ((List.dropWhile_sublist _).subset ((List.dropWhile_sublist _).subset hc))

theorem pathElemsFrom_eq {fuel : ℕ} (hfuel : path.length ≤ fuel) :
    pathElemsFrom fuel path = (components path).map (·.take DIRSIZ) := by
  induction fuel generalizing path with
  | zero =>
    have hnil : path = [] := List.eq_nil_of_length_eq_zero (by omega)
    subst hnil
    rfl
  | succ fuel ih =>
    rw [pathElemsFrom]
    cases hs : skipelem path with
    | none =>
      rw [skipelem_eq_none hs]
      rfl
    | some r =>
      obtain ⟨name,rest⟩ := r
      obtain ⟨w,hc,hname,-,-,hlt,-⟩ := skipelem_eq_some hs
      dsimp only
      rw [ih (by omega),hc,hname,List.map_cons]

theorem pathElems_eq (path : List Byte) : pathElems path = (components path).map (·.take DIRSIZ) :=
  pathElemsFrom_eq (Nat.le_refl _)

theorem pathElems_none (h : skipelem path = none) : pathElems path = [] := by
  rw [pathElems_eq,skipelem_eq_none h]
  rfl

theorem pathElems_some {path name rest : List Byte} (h : skipelem path = some (name,rest)) :
    pathElems path = name :: pathElems rest := by
  obtain ⟨w,hc,hname,-⟩ := skipelem_eq_some h
  rw [pathElems_eq,pathElems_eq,hc,hname,List.map_cons]

theorem pathElems_isEmpty (h : path.head? ≠ some slash) :
    (pathElems path).isEmpty = path.isEmpty := by
  cases path with
  | nil => rfl
  | cons c path =>
    have hc : c ≠ slash := by simpa using h
    have hs : ∃ r, skipelem (c :: path) = some r := by
      simp [skipelem,hc]
    obtain ⟨⟨name,rest⟩,hs⟩ := hs
    rw [pathElems_some hs]
    rfl

/-! ## Names -/

/-- The name in a field of `DIRSIZ` characters: it ends at a NUL or with the field. -/
def nameOf (s : List Byte) : List Byte := (s.take DIRSIZ).takeWhile (· != 0)

theorem takeWhile_take_succ (n : ℕ) (p : List Byte) : (p.take (n + 1)).takeWhile (· != 0) =
    if p.headD 0 = 0 then [] else p.headD 0 :: (p.tail.take n).takeWhile (· != 0) := by
  cases p with
  | nil => rfl
  | cons c p =>
    rw [List.take_succ_cons,List.takeWhile_cons,List.headD_cons,List.tail_cons]
    by_cases hc : c = 0
    · rw [if_neg (by simp [hc]),if_pos hc]
    · rw [if_pos (by simpa using hc),if_neg hc]

theorem strncmp_eq_zero_iff {n : ℕ} {p q : List Byte} :
    strncmp n p q = 0 ↔ (p.take n).takeWhile (· != 0) = (q.take n).takeWhile (· != 0) := by
  induction n generalizing p q with
  | zero => simp [strncmp]
  | succ n ih =>
    rw [strncmp,takeWhile_take_succ,takeWhile_take_succ]
    split
    · rename_i h
      rw [ih,if_neg h.1,if_neg (h.2 ▸ h.1),h.2,List.cons_inj_right]
    · rename_i h
      rw [Int.sub_eq_zero,Int.natCast_inj,BitVec.toNat_inj]
      by_cases hp : p.headD 0 = 0
      · rw [if_pos hp,hp,eq_comm]
        simp
      · rw [if_neg hp]
        constructor
        · exact fun he => absurd ⟨hp,he⟩ h
        · intro he
          split at he
          · cases he
          · exact (List.cons.inj he).1

theorem namecmp_eq_zero_iff {p q : List Byte} : namecmp p q = 0 ↔ nameOf p = nameOf q := strncmp_eq_zero_iff

theorem takeWhile_append_nul (hnul : 0 ∉ s) (r : List Byte) :
    (s ++ r).takeWhile (· != 0) = s ++ r.takeWhile (· != 0) := by
  refine List.takeWhile_append_of_pos fun c hc => ?_
  simp only [bne_iff_ne,ne_eq]
  rintro rfl
  exact hnul hc

theorem takeWhile_string (hnul : 0 ∉ s) : s.takeWhile (· != 0) = s := by
  simpa using takeWhile_append_nul hnul []

theorem nameOf_eq_self (hlen : s.length ≤ DIRSIZ) (hnul : 0 ∉ s) : nameOf s = s := by
  rw [nameOf,List.take_of_length_le hlen,takeWhile_string hnul]

theorem nameOf_length (s : List Byte) : (nameOf s).length ≤ DIRSIZ :=
  (List.takeWhile_sublist _).length_le.trans (List.length_take_le _ _)

theorem nul_not_mem_takeWhile : 0 ∉ s.takeWhile (· != 0) := fun h => by
  have := List.mem_takeWhile_imp h
  simp at this

/-! ## The name in a buffer -/

theorem strncmp_append_nul (n : ℕ) (p r q : List Byte) : strncmp n (p ++ 0 :: r) q = strncmp n p q := by
  induction n generalizing p q with
  | zero => rfl
  | succ n ih =>
    cases p with
    | nil => simp [strncmp]
    | cons c p =>
      rw [List.cons_append,strncmp,strncmp,List.tail_cons,List.tail_cons,ih]
      rfl

namespace Buf

abbrev Name := Bytes DIRSIZ

def Name.chars (name : Name) : List Byte := name.slice 0 DIRSIZ

def Name.string (name : Name) : List Byte := name.chars.takeWhile (· != 0)

def skipelem (path : List Byte) (name : Name) : Option (List Byte × Name) :=
  let s := path.dropWhile (· == slash)
  if s.isEmpty then none
  else
    let len := (s.takeWhile (· != slash)).length
    let name := if DIRSIZ ≤ len then name.splice 0 (s.take DIRSIZ)
      else (name.splice 0 (s.take len)).splice len [0]
    some ((s.drop len).dropWhile (· == slash),name)

/-- The loop of `namex`. Every round takes at least one byte off the path. -/
def namexLoop (nameiparent : Bool) : ℕ → Fin NINODE → List Byte → Name → Code β (Option (Fin NINODE) × Name)
  | 0, _, _, name => pure (none,name)
  | fuel + 1, ip, path, name =>
    match skipelem path name with
    | none => do
      if nameiparent then
        iput sb ip
        pure (none,name)
      else pure (some ip,name)
    | some (path,name) => do
      ilock sb ip
      let i : Inode ← env (.inode ip)
      if i.din.type ≠ T_DIR then
        iunlockput sb ip
        pure (none,name)
      else if nameiparent ∧ path.isEmpty then
        -- stop one level early
        iunlock ip
        pure (some ip,name)
      else
        let next ← dirlookup sb ip name.chars
        match next with
        | none =>
          iunlockput sb ip
          pure (none,name)
        | some (next,_) =>
          iunlockput sb ip
          namexLoop nameiparent fuel next path name

def namex (path : List Byte) (nameiparent : Bool) (name : Name) : Code β (Option (Fin NINODE) × Name) := do
  if path.head? = some slash then
    let ip : Fin NINODE ← env (.iget ROOTDEV ROOTINO)
    namexLoop sb nameiparent (path.length + 1) ip path name
  else
    let p : Proc ← env .proc
    match p.cwd with
    | none => panic .kerneltrap
    | some cwd =>
      env (.idup cwd)
      namexLoop sb nameiparent (path.length + 1) cwd path name

/-- `name` is a local array: it holds whatever the stack held. -/
def namei (path : List Byte) (name : Name) : Code β (Option (Fin NINODE)) := do
  let r ← namex sb path false name
  pure r.1

def nameiparent (path : List Byte) (name : Name) : Code β (Option (Fin NINODE) × Name) :=
  namex sb path true name

/-! ## The buffer holds the element -/

/-- The buffer after the element `e` has been copied into it. -/
def put (name : Name) (e : List Byte) : Name :=
  if DIRSIZ ≤ e.length then name.splice 0 e else (name.splice 0 e).splice e.length [0]

theorem skipelem_eq (path : List Byte) (name : Name) :
    skipelem path name = (Xv6.skipelem path).map fun r => (r.2,put name r.1) := by
  unfold skipelem Xv6.skipelem
  generalize path.dropWhile (· == slash) = s
  dsimp only
  split
  · rfl
  · have htake : s.take (s.takeWhile (· != slash)).length = s.takeWhile (· != slash) :=
      (List.prefix_iff_eq_take.mp (List.takeWhile_prefix _)).symm
    have hdrop : s.drop (s.takeWhile (· != slash)).length = s.dropWhile (· != slash) := by
      have h := List.takeWhile_append_dropWhile (p := (· != slash)) (l := s)
      nth_rewrite 2 [← h]
      exact List.drop_left
    rw [Option.map_some,hdrop]
    congr 2
    unfold put
    rw [List.length_take]
    split
    · rename_i hlen
      have hmin : min DIRSIZ (s.takeWhile (· != slash)).length = DIRSIZ := Nat.min_eq_left hlen
      rw [if_pos (by omega)]
      congr 1
      rw [← htake,List.take_take,hmin]
    · rename_i hlen
      have hmin : min DIRSIZ (s.takeWhile (· != slash)).length = (s.takeWhile (· != slash)).length :=
        Nat.min_eq_right (by omega)
      rw [if_neg (by omega),hmin,htake,List.take_of_length_le (by omega)]

theorem chars_put_full {e : List Byte} (name : Name) (he : e.length = DIRSIZ) : (put name e).chars = e := by
  have h := Bytes.slice_splice_same name (show 0 + e.length ≤ DIRSIZ by omega)
  rw [he] at h
  rwa [put,if_pos (by omega)]

theorem chars_put_short {e : List Byte} (name : Name) (he : e.length < DIRSIZ) :
    ∃ stale, (put name e).chars = e ++ 0 :: stale := by
  refine ⟨name.slice (e.length + 1) (DIRSIZ - (e.length + 1)),?_⟩
  rw [put,if_neg (by omega),Name.chars]
  apply List.ext_getElem
  · simp only [Bytes.length_slice,List.length_append,List.length_cons]
    omega
  · intro k h₁ h₂
    have hk : k < DIRSIZ := by simpa using h₁
    simp only [Bytes.slice,List.getElem_map,List.getElem_range,Nat.zero_add]
    rw [Bytes.get_splice _ _ _ hk]
    by_cases hke : k < e.length
    · rw [if_neg (by simp; omega),Bytes.get_splice _ _ _ hk,if_pos (by omega),List.getElem_append_left hke]
      exact List.getD_eq_getElem _ _ _
    · rw [List.getElem_append_right (by omega)]
      by_cases heq : k = e.length
      · subst heq
        simp
      · rw [if_neg (by simp; omega),Bytes.get_splice _ _ _ hk,if_neg (by omega),List.getElem_cons,dif_neg (by omega)]
        simp only [List.getElem_map,List.getElem_range]
        congr 1
        omega

theorem namecmp_put {e : List Byte} (name : Name) (he : e.length ≤ DIRSIZ) (q : List Byte) :
    namecmp (put name e).chars q = namecmp e q := by
  rcases Nat.lt_or_ge e.length DIRSIZ with hlt | hge
  · obtain ⟨stale,h⟩ := chars_put_short name hlt
    rw [h,namecmp,strncmp_append_nul]
    rfl
  · rw [chars_put_full name (by omega)]

theorem string_put {e : List Byte} (name : Name) (he : e.length ≤ DIRSIZ) (hnul : 0 ∉ e) :
    (put name e).string = e := by
  have hall : ∀ c ∈ e, (c != 0) = true := by
    intro c hc
    simp only [bne_iff_ne,ne_eq]
    rintro rfl
    exact hnul hc
  rw [Name.string]
  rcases Nat.lt_or_ge e.length DIRSIZ with hlt | hge
  · obtain ⟨stale,h⟩ := chars_put_short name hlt
    rw [h,List.takeWhile_append_of_pos hall]
    simp
  · rw [chars_put_full name (by omega)]
    exact List.takeWhile_eq_self_iff.mpr hall

/-! ## The two programs are the same -/

theorem dirlookupFrom_congr {dp : Fin NINODE} {a b : List Byte} (h : ∀ q, namecmp a q = namecmp b q) (fuel off : ℕ) :
    (dirlookupFrom sb dp a fuel off : Code β _) = dirlookupFrom sb dp b fuel off := by
  induction fuel generalizing off with
  | zero => rfl
  | succ fuel ih => simp only [dirlookupFrom,h,ih]

theorem dirlookup_congr {dp : Fin NINODE} {a b : List Byte} (h : ∀ q, namecmp a q = namecmp b q) :
    (dirlookup sb dp a : Code β _) = dirlookup sb dp b := by
  simp only [dirlookup,dirlookupFrom_congr sb h]

/-- What `namex` returns beside the inode: the last element if it looks for a parent. -/
def result (nameiparent : Bool) (r : Option (Fin NINODE) × Name) : Option (Fin NINODE × List Byte) :=
  r.1.map fun ip => (ip,if nameiparent then r.2.string else [])

theorem namexLoop_eq {flag : Bool} {fuel : ℕ} {ip : Fin NINODE} {path : List Byte} {name : Name}
    (hfuel : path.length < fuel) (hnul : 0 ∉ path) :
    (namexLoop sb flag fuel ip path name : Code β _).bind (fun r => pure (result flag r)) =
      Xv6.namexLoop sb flag ip (pathElems path) := by
  induction fuel generalizing ip path name with
  | zero => omega
  | succ fuel ih =>
    rw [namexLoop,skipelem_eq]
    cases hs : Xv6.skipelem path with
    | none =>
      rw [pathElems_none hs,Option.map_none,Xv6.namexLoop]
      cases flag with
      | true =>
        simp only [if_true,Prog.bind_eq,Prog.bind_assoc]
        rfl
      | false => rfl
    | some r =>
      obtain ⟨e,rest⟩ := r
      obtain ⟨w,-,hname,-,hmem,hlt,hhead,hrest⟩ := skipelem_eq_some hs
      have he : e.length ≤ DIRSIZ := by
        rw [hname,List.length_take]
        exact Nat.min_le_left _ _
      have hnul' : 0 ∉ e := fun h0 => hnul (hmem 0 (List.mem_of_mem_take (hname ▸ h0)))
      rw [pathElems_some hs,Option.map_some,Xv6.namexLoop]
      simp only [Prog.bind_eq,Prog.bind_assoc,pathElems_isEmpty hhead,dirlookup_congr sb (namecmp_put name he)]
      congr 1
      funext u
      congr 1
      funext i
      split
      · rw [Prog.bind_assoc]
        rfl
      · split
        · rename_i hflag
          rw [Prog.bind_assoc]
          congr 1
          funext u
          simp [result,hflag.1,string_put name he hnul']
        · rw [Prog.bind_assoc]
          congr 1
          funext next
          match next with
          | none =>
            rw [Prog.bind_assoc]
            rfl
          | some (next,off) =>
            rw [Prog.bind_assoc]
            congr 1
            funext u
            exact ih (by omega) fun h0 => hnul (hrest 0 h0)

theorem namex_eq {flag : Bool} {path : List Byte} (name : Name) (hnul : 0 ∉ path) :
    (namex sb path flag name : Code β _).bind (fun r => pure (result flag r)) = Xv6.namex sb path flag := by
  rw [namex,Xv6.namex]
  split
  · simp only [Prog.bind_eq,Prog.bind_assoc,namexLoop_eq sb (Nat.lt_succ_self _) hnul]
  · simp only [Prog.bind_eq,Prog.bind_assoc]
    congr 1
    funext p
    cases p.cwd with
    | none =>
      dsimp only [panic]
      rw [Prog.op_bind]
      congr 1
      funext e
      cases e
    | some cwd => simp only [Prog.bind_assoc,namexLoop_eq sb (Nat.lt_succ_self _) hnul]

end Buf

end Xv6
