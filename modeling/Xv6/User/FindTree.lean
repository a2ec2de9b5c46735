import Xv6.User.Find

/-! # What `find` prints

A finite directory tree is listed depth first, each directory in the order of its entries, and
`find` prints the paths of the files whose last component it looks for.
-/
namespace Xv6.Find
open Library
open Function (update update_of_ne update_self)

/-! ## Directory trees -/

mutual
inductive Tree
  | file
  | dir (f : Forest)
  | other

inductive Forest
  | nil
  | cons (name : List Byte) (t : Tree) (rest : Forest)
end

mutual
def Tree.files : Tree → List (List (List Byte))
  | .file => [[]]
  | .dir f => f.files
  | .other => []

def Forest.files : Forest → List (List (List Byte))
  | .nil => []
  | .cons name t rest => t.files.map (name :: ·) ++ rest.files
end

/-- The entries of directory `d` from the `k`th on, without those that are not in use and without `.` and `..`. -/
def entries (m : Image) (d k : ℕ) : List Dirent :=
  ((List.range' k (m.size d / 16 - k)).map (m.entry d)).filter fun e => !hidden e

mutual
def Tree.At (m : Image) : Tree → ℕ → Prop
  | .file, i => (m.ino i).type = T_FILE
  | .dir f, i => m.IsDir i ∧ ((entries m i 0).map fun e => nameOf e.name).Nodup ∧ f.Of m (entries m i 0)
  | .other, i => (m.ino i).type ≠ T_FILE ∧ (m.ino i).type ≠ T_DIR

def Forest.Of (m : Image) : Forest → List Dirent → Prop
  | .nil, es => es = []
  | .cons name t rest, es => ∃ e es', es = e :: es' ∧ name = nameOf e.name ∧ name ≠ [] ∧ slash ∉ name ∧
      t.At m e.inum.toNat ∧ rest.Of m es'
end

def pathOf (dir : List Byte) (names : List (List Byte)) : List Byte := dir ++ names.flatMap (slash :: ·)

/-! ## Names in a directory -/

section
variable {m : Image} {d k : ℕ} {name : List Byte} {e : Dirent}

theorem nameOf_nameOf (s : List Byte) : nameOf (nameOf s) = nameOf s :=
  nameOf_eq_self (nameOf_length s) nul_not_mem_takeWhile

theorem mem_entries : e ∈ entries m d 0 ↔ ∃ k, k < m.size d / 16 ∧ m.entry d k = e ∧ hidden e = false := by
  simp only [entries,List.mem_filter,List.mem_map,List.mem_range'_1,Bool.not_eq_true',Nat.zero_le,true_and,Nat.sub_zero,
    Nat.zero_add]
  constructor
  · rintro ⟨⟨k,hk,rfl⟩,h⟩
    exact ⟨k,hk,rfl,h⟩
  · rintro ⟨k,hk,rfl,h⟩
    exact ⟨⟨k,hk,rfl⟩,h⟩

theorem hidden_eq_false : hidden e = false ↔ e.inum ≠ 0 ∧ nameOf e.name ≠ dot ∧ nameOf e.name ≠ dotdot := by
  simp [hidden]

theorem lookup_mem {x : ℕ} (hname : nameOf name = name) (hdot : name ≠ dot) (hdotdot : name ≠ dotdot)
    (h : m.lookup d name = some x) : ∃ e ∈ entries m d 0, nameOf e.name = name ∧ e.inum.toNat = x := by
  obtain ⟨k,hk,rfl⟩ := Option.map_eq_some_iff.mp h
  obtain ⟨hlt,⟨hlive,hcmp⟩,-⟩ := Image.find_eq_some hk
  have hsame : nameOf (m.entry d k).name = name := by
    rw [← namecmp_eq_zero_iff.mp hcmp,hname]
  refine ⟨_,mem_entries.mpr ⟨k,hlt,rfl,hidden_eq_false.mpr ⟨hlive,?_,?_⟩⟩,hsame,rfl⟩
  · rwa [hsame]
  · rwa [hsame]

theorem lookup_entry (hnodup : ((entries m d 0).map fun e => nameOf e.name).Nodup) (he : e ∈ entries m d 0) :
    m.lookup d (nameOf e.name) = some e.inum.toNat := by
  obtain ⟨k,hk,hke,hvis⟩ := mem_entries.mp he
  obtain ⟨hlive,hdot,hdotdot⟩ := hidden_eq_false.mp hvis
  cases hfind : m.find d (nameOf e.name) with
  | none =>
    refine absurd ⟨?_,?_⟩ (Image.find_eq_none hfind k hk)
    · rwa [hke]
    · rw [hke,namecmp_eq_zero_iff,nameOf_nameOf]
  | some j =>
    have hx : m.lookup d (nameOf e.name) = some (m.entry d j).inum.toNat := by rw [Image.lookup,hfind]; rfl
    obtain ⟨e',he',hname,hinum⟩ := lookup_mem (nameOf_nameOf e.name) hdot hdotdot hx
    rw [hx,← hinum,List.inj_on_of_nodup_map hnodup he' he hname]

theorem walk_append (i : ℕ) (xs ys : List (List Byte)) : m.walk i (xs ++ ys) = (m.walk i xs).bind fun x => m.walk x ys := by
  induction xs generalizing i with
  | nil => rfl
  | cons n xs ih =>
    rw [List.cons_append,Image.walk,Image.walk]
    split
    · rw [Option.bind_assoc]
      exact congrArg _ (funext ih)
    · rfl

theorem pathElems_snoc {dir : List Byte} (hne : name ≠ []) (hslash : slash ∉ name) (hlen : name.length ≤ DIRSIZ) :
    pathElems (dir ++ slash :: name) = pathElems dir ++ [name] := by
  have hword : components name = [name] := by
    have h : components (name ++ []) = name :: components [] :=
      components_word (fun c hc he => hslash (he ▸ hc)) hne (.inl rfl)
    rwa [List.append_nil] at h
  rw [pathElems_eq,pathElems_eq,components,List.splitOnP_append_cons dir name (by simp),List.filter_append]
  change (components dir ++ components name).map _ = _
  rw [hword,List.map_append,List.map_singleton,List.take_of_length_le hlen]

theorem namei_snoc {w : World} {dir : List Byte} (hdir : dir ≠ [] ∨ w.cwd = ROOTINO) (hne : name ≠ []) (hslash : slash ∉ name)
    (hlen : name.length ≤ DIRSIZ) (hd : w.namei dir = some d) (hisdir : w.image.IsDir d) :
    w.namei (dir ++ slash :: name) = w.image.lookup d name := by
  have hstart : (if (dir ++ slash :: name).head? = some slash then ROOTINO else w.cwd) =
      if dir.head? = some slash then ROOTINO else w.cwd := by
    cases dir with
    | nil =>
      have hroot := hdir.resolve_left (fun h => h rfl)
      rw [hroot]
      simp
    | cons c dir => rfl
  rw [World.namei,hstart,pathElems_snoc hne hslash hlen,walk_append]
  rw [World.namei] at hd
  rw [hd]
  change w.image.walk d [name] = _
  rw [Image.walk,if_pos hisdir]
  cases w.image.lookup d name with
  | none => rfl
  | some x => rfl

end

/-! ## The files of a tree -/

def Proper (names : List (List Byte)) : Prop := ∀ n ∈ names, nameOf n = n ∧ n ≠ dot ∧ n ≠ dotdot

section
variable {m : Image}

theorem walk_not_dir {i : ℕ} {names : List (List Byte)} {x : ℕ} (hi : ¬m.IsDir i) (h : m.walk i names = some x) :
    names = [] ∧ x = i := by
  cases names with
  | nil => exact ⟨rfl,(Option.some.inj h).symm⟩
  | cons n names =>
    rw [Image.walk,if_neg hi] at h
    cases h

mutual
theorem Tree.mem_files : ∀ (t : Tree) {i : ℕ} {names : List (List Byte)}, t.At m i →
    (names ∈ t.files ↔ Proper names ∧ ∃ x, m.walk i names = some x ∧ (m.ino x).type = T_FILE)
  | .file, i, names, h => by
    have h : (m.ino i).type = T_FILE := h
    have hi : ¬m.IsDir i := by
      rw [Image.IsDir,h]
      decide
    rw [Tree.files,List.mem_singleton]
    constructor
    · rintro rfl
      exact ⟨fun _ hn => absurd hn List.not_mem_nil,i,rfl,h⟩
    · rintro ⟨-,x,hx,-⟩
      exact (walk_not_dir hi hx).1
  | .other, i, names, h => by
    rw [Tree.files]
    constructor
    · exact fun h => absurd h List.not_mem_nil
    · rintro ⟨-,x,hx,hfile⟩
      obtain ⟨-,rfl⟩ := walk_not_dir h.2 hx
      exact absurd hfile h.1
  | .dir f, i, names, h => by
    obtain ⟨hdir,hnodup,hf⟩ := h
    rw [Tree.files,Forest.mem_files f hf]
    constructor
    · rintro ⟨e,he,names,rfl,hproper,x,hx,hfile⟩
      obtain ⟨-,-,-,hvis⟩ := mem_entries.mp he
      obtain ⟨-,hdot,hdotdot⟩ := hidden_eq_false.mp hvis
      refine ⟨?_,x,?_,hfile⟩
      · rintro n hn
        rcases List.mem_cons.mp hn with rfl | hn
        · exact ⟨nameOf_nameOf _,hdot,hdotdot⟩
        · exact hproper n hn
      · rw [Image.walk,if_pos hdir,lookup_entry hnodup he]
        exact hx
    · rintro ⟨hproper,x,hx,hfile⟩
      cases names with
      | nil =>
        obtain rfl : i = x := Option.some.inj hx
        rw [Image.IsDir,hfile] at hdir
        exact absurd hdir (by decide)
      | cons n names =>
        rw [Image.walk,if_pos hdir] at hx
        obtain ⟨y,hy,hx⟩ := Option.bind_eq_some_iff.mp hx
        obtain ⟨hname,hdot,hdotdot⟩ := hproper n List.mem_cons_self
        obtain ⟨e,he,rfl,rfl⟩ := lookup_mem hname hdot hdotdot hy
        exact ⟨e,he,names,rfl,fun n hn => hproper n (List.mem_cons_of_mem _ hn),x,hx,hfile⟩

theorem Forest.mem_files : ∀ (f : Forest) {es : List Dirent} {names : List (List Byte)}, f.Of m es →
    (names ∈ f.files ↔ ∃ e ∈ es, ∃ rest, names = nameOf e.name :: rest ∧ Proper rest ∧
      ∃ x, m.walk e.inum.toNat rest = some x ∧ (m.ino x).type = T_FILE)
  | .nil, es, names, h => by
    obtain rfl : es = [] := h
    simp [Forest.files]
  | .cons name t rest, es, names, h => by
    obtain ⟨e,es',rfl,rfl,-,-,ht,hrest⟩ := h
    rw [Forest.files,List.mem_append,List.mem_map,Forest.mem_files rest hrest]
    constructor
    · rintro (⟨ns,hns,rfl⟩ | ⟨e',he',h⟩)
      · exact ⟨e,List.mem_cons_self,ns,rfl,(Tree.mem_files t ht).mp hns⟩
      · exact ⟨e',List.mem_cons_of_mem _ he',h⟩
    · rintro ⟨e',he',ns,rfl,h⟩
      rcases List.mem_cons.mp he' with rfl | he'
      · exact .inl ⟨ns,(Tree.mem_files t ht).mpr h,rfl⟩
      · exact .inr ⟨e',he',ns,rfl,h⟩
end

mutual
theorem Tree.files_nodup : ∀ (t : Tree) {i : ℕ}, t.At m i → t.files.Nodup
  | .file, _, _ => List.nodup_singleton _
  | .other, _, _ => List.nodup_nil
  | .dir f, _, h => Forest.files_nodup f h.2.1 h.2.2

theorem Forest.files_nodup : ∀ (f : Forest) {es : List Dirent}, (es.map fun e => nameOf e.name).Nodup → f.Of m es →
    f.files.Nodup
  | .nil, _, _, _ => List.nodup_nil
  | .cons name t rest, es, hnodup, h => by
    obtain ⟨e,es',rfl,rfl,-,-,ht,hrest⟩ := h
    obtain ⟨hnew,hnodup⟩ := List.nodup_cons.mp hnodup
    rw [Forest.files]
    refine List.Nodup.append ((Tree.files_nodup t ht).map fun _ _ => List.tail_eq_of_cons_eq)
      (Forest.files_nodup rest hnodup hrest) ?_
    intro names h₁ h₂
    obtain ⟨ns,-,rfl⟩ := List.mem_map.mp h₁
    obtain ⟨e',he',ns',heq,-⟩ := (Forest.mem_files rest hrest).mp h₂
    exact hnew (List.mem_map.mpr ⟨e',he',(List.cons.inj heq).1.symm⟩)
end

end

/-! ## What is printed -/

mutual
/-- The paths that `find` prints, as it goes through the tree. -/
def Tree.found (file_name : List Byte) : Tree → List Byte → List (List Byte)
  | .file, dir => if fmtname dir = file_name then [dir] else []
  | .dir f, dir => f.found file_name dir
  | .other, _ => []

def Forest.found (file_name : List Byte) : Forest → List Byte → List (List Byte)
  | .nil, _ => []
  | .cons name t rest, dir => t.found file_name (dir ++ slash :: name) ++ rest.found file_name dir
end

theorem pathOf_cons (dir name : List Byte) (names : List (List Byte)) :
    pathOf dir (name :: names) = pathOf (dir ++ slash :: name) names := by
  simp [pathOf]

mutual
theorem Tree.found_eq (file_name : List Byte) : ∀ (t : Tree) (dir : List Byte),
    t.found file_name dir = (t.files.map (pathOf dir)).filter fun path => decide (lastComponent path = file_name)
  | .file, dir => by
    rw [Tree.found,Tree.files,List.map_singleton,List.filter_singleton,pathOf,List.flatMap_nil,List.append_nil,fmtname_eq]
    rw [Bool.cond_decide]
    rfl
  | .dir f, dir => Forest.found_eq file_name f dir
  | .other, dir => rfl

theorem Forest.found_eq (file_name : List Byte) : ∀ (f : Forest) (dir : List Byte),
    f.found file_name dir = (f.files.map (pathOf dir)).filter fun path => decide (lastComponent path = file_name)
  | .nil, dir => rfl
  | .cons name t rest, dir => by
    rw [Forest.found,Forest.files,Tree.found_eq file_name t,Forest.found_eq file_name rest,List.map_append,List.filter_append,
      List.map_map]
    congr 3
    funext names
    exact (pathOf_cons dir name names).symm
end

structure Prints (s t : State) (lines : List (List Byte)) : Prop where
  le : s.refused ≤ t.refused
  out : t.refused = s.refused → t.out = s.out ++ lines.flatMap (· ++ [newline])

section
variable {w : World} {call : List Byte → State → Except Fault State} {fd : Fin NOFILE} {buf : Bytes 512} {s t u : State}
variable {file_name dir : List Byte} {lines lines' : List (List Byte)} {d k n : ℕ}

theorem Prints.refl (s : State) : Prints s s [] := ⟨Nat.le_refl _,fun _ => (List.append_nil _).symm⟩

theorem Prints.trans (h : Prints s t lines) (h' : Prints t u lines') : Prints s u (lines ++ lines') := by
  refine ⟨h.le.trans h'.le,fun he => ?_⟩
  have h₁ := h.le
  have h₂ := h'.le
  rw [h'.out (by omega),h.out (by omega),List.flatMap_append,List.append_assoc]

def Forest.Calls (file_name : List Byte) (call : List Byte → State → Except Fault State) (dir : List Byte) : Forest → Prop
  | .nil => True
  | .cons name t rest => (∀ s, ∃ u, call (dir ++ slash :: name) s = .ok u ∧ u.ofile = s.ofile ∧
      Prints s u (t.found file_name (dir ++ slash :: name))) ∧ rest.Calls file_name call dir

theorem read_entry (hfd : s.ofile fd = some (d,16 * k)) (hk : k < w.image.size d / 16) :
    w.read fd 16 s = (w.image.bytesAt d (16 * k) 16,{ s with ofile := update s.ofile fd (some (d,16 * (k + 1))) }) := by
  have hsize : w.image.size d < 2 ^ 32 := (w.image.ino d).size.isLt
  have hread : w.image.readBytes d (16 * k) 16 = w.image.bytesAt d (16 * k) 16 := by
    rw [Image.readBytes,if_neg (by omega)]
    congr 1
    omega
  unfold World.read
  rw [hfd]
  dsimp only
  rw [hread,Image.bytesAt_length]
  rfl

theorem read_end (hfd : s.ofile fd = some (d,16 * k)) (hk : w.image.size d / 16 ≤ k) :
    (w.read fd 16 s).1.length ≠ 16 ∧ (w.read fd 16 s).2.refused = s.refused ∧ (w.read fd 16 s).2.out = s.out := by
  unfold World.read
  rw [hfd]
  refine ⟨?_,rfl,rfl⟩
  dsimp only
  rw [Image.readBytes]
  split
  · decide
  · rw [Image.bytesAt_length]
    omega

theorem entries_succ {m : Image} (hk : k < m.size d / 16) :
    entries m d k = if hidden (m.entry d k) then entries m d (k + 1) else m.entry d k :: entries m d (k + 1) := by
  obtain ⟨c,hc⟩ : ∃ c, m.size d / 16 - k = c + 1 := ⟨m.size d / 16 - k - 1,by omega⟩
  have hc' : m.size d / 16 - (k + 1) = c := by omega
  rw [entries,entries,hc,hc',List.range'_succ,List.map_cons,List.filter_cons]
  cases hidden (m.entry d k) with
  | true => rfl
  | false => rfl

theorem scan_forest (hnul : 0 ∉ dir) (hp : dir.length + 1 + DIRSIZ + 1 ≤ 512) (c : ℕ) {f : Forest}
    (hcalls : f.Calls file_name call dir) (hc : w.image.size d / 16 - k = c) (hf : f.Of w.image (entries w.image d k))
    (hfd : s.ofile fd = some (d,16 * k)) (hbuf : buf.slice 0 (dir.length + 1) = dir ++ [slash]) (hn : c < n) :
    ∃ u, scan w call fd (dir.length + 1) n buf s = .ok u ∧ (∀ fd', fd' ≠ fd → u.ofile fd' = s.ofile fd') ∧
      Prints s u (f.found file_name dir) := by
  have h0 : 0 ∉ dir ++ [slash] := by
    rw [List.mem_append]
    rintro (h | h)
    · exact hnul h
    · exact absurd h (by decide)
  induction c generalizing k f buf s n with
  | zero =>
    obtain ⟨n,rfl⟩ := Nat.exists_eq_succ_of_ne_zero (Nat.ne_zero_of_lt hn)
    have hnil : entries w.image d k = [] := by
      rw [entries,hc]
      rfl
    rw [hnil] at hf
    obtain rfl : f = .nil := by
      cases f with
      | nil => rfl
      | cons name t rest =>
        obtain ⟨e,es',h,-⟩ := hf
        cases h
    obtain ⟨hlen,hrefused,hout⟩ := read_end (w := w) hfd (by omega)
    refine ⟨_,?_,fun fd' h => read_ofile h,⟨hrefused.ge,fun _ => ?_⟩⟩
    · rw [scan_succ hp (hbuf ▸ h0),if_neg hlen]
    · rw [hout]
      exact (List.append_nil _).symm
  | succ c ih =>
    obtain ⟨n,rfl⟩ := Nat.exists_eq_succ_of_ne_zero (Nat.ne_zero_of_lt hn)
    have hk : k < w.image.size d / 16 := by omega
    have hde : Dirent.ofBytes (w.image.bytesAt d (16 * k) 16) = w.image.entry d k := rfl
    rw [scan_succ hp (hbuf ▸ h0),read_entry hfd hk,if_pos Image.bytesAt_length,hde,hbuf]
    rw [entries_succ hk] at hf
    have hnext : ∀ {f : Forest} {buf : Bytes 512} {v : State}, f.Calls file_name call dir →
        f.Of w.image (entries w.image d (k + 1)) → buf.slice 0 (dir.length + 1) = dir ++ [slash] →
        v.ofile = update s.ofile fd (some (d,16 * (k + 1))) →
        ∃ u, scan w call fd (dir.length + 1) n buf v = .ok u ∧ (∀ fd', fd' ≠ fd → u.ofile fd' = s.ofile fd') ∧
          Prints v u (f.found file_name dir) := by
      intro f buf v hcalls hf hbuf hv
      obtain ⟨u,hu,hsame,hprints⟩ := ih (k := k + 1) (n := n) hcalls (by omega) hf (by rw [hv,update_self]) hbuf (by omega)
      refine ⟨u,hu,fun fd' h => ?_,hprints⟩
      rw [hsame fd' h,hv,update_of_ne h]
    split
    · rename_i hh
      rw [if_pos hh] at hf
      obtain ⟨u,hu,hsame,hprints⟩ :=
        hnext (v := { s with ofile := update s.ofile fd (some (d,16 * (k + 1))) }) hcalls hf hbuf rfl
      exact ⟨u,hu,hsame,hprints.le,hprints.out⟩
    · rename_i hh
      rw [if_neg hh] at hf
      cases f with
      | nil => cases hf
      | cons name t rest =>
        obtain ⟨e,es',he,rfl,-,-,-,hrest⟩ := hf
        obtain ⟨rfl,rfl⟩ := List.cons.inj he
        obtain ⟨hcall,hcalls⟩ := hcalls
        obtain ⟨v,hv,hofile,hprints⟩ := hcall { s with ofile := update s.ofile fd (some (d,16 * (k + 1))) }
        obtain ⟨u,hu,hsame,hprints'⟩ := hnext hcalls hrest (entered_front.trans hbuf) hofile
        refine ⟨u,?_,hsame,Prints.trans (t := v) ⟨hprints.le,hprints.out⟩ hprints'⟩
        rw [List.append_assoc,List.singleton_append,hv]
        exact hu

theorem find_opened {fuel i : ℕ} (hnul : 0 ∉ dir) (hi : w.namei dir = some i)
    (hbody : ∀ fd t, w.openRd dir s = (some fd,t) → dir.length < MAXPATH → w.fstat fd t = some (w.image.ino i).type →
      t.ofile fd = some (i,0) → ∃ u, find w file_name (fuel + 1) dir s = .ok (u.close fd) ∧
        (∀ fd', fd' ≠ fd → u.ofile fd' = t.ofile fd') ∧ Prints t u lines) :
    ∃ u, find w file_name (fuel + 1) dir s = .ok u ∧ u.ofile = s.ofile ∧ Prints s u lines := by
  cases hopen : w.openRd dir s with
  | mk o t =>
    cases o with
    | none =>
      refine ⟨_,find_refused hopen,rfl,⟨Nat.le_succ _,fun h => ?_⟩⟩
      exact absurd h (Nat.succ_ne_self _)
    | some fd =>
      obtain ⟨hlen,j,hj,hfree,ht⟩ := openRd_some hnul hopen
      obtain rfl : i = j := Option.some.inj (hi.symm.trans hj)
      obtain ⟨u,hu,hsame,hprints⟩ := hbody fd t hopen hlen (fstat_open ht) (by rw [ht]; exact update_self _ _ _)
      refine ⟨_,hu,close_ofile hfree ht hsame,?_⟩
      subst ht
      exact ⟨hprints.le,hprints.out⟩

mutual
theorem Tree.visit (hfile : 0 ∉ file_name) : ∀ (t : Tree) {i : ℕ} {dir : List Byte}, t.At w.image i → w.namei dir = some i →
    0 ∉ dir → (dir ≠ [] ∨ w.cwd = ROOTINO) → ∃ N, ∀ fuel, N ≤ fuel → ∀ s, ∃ u, find w file_name fuel dir s = .ok u ∧
      u.ofile = s.ofile ∧ Prints s u (t.found file_name dir)
  | .file, i, dir, h, hi, hnul, _ => by
    refine ⟨1,fun fuel hfuel s => ?_⟩
    obtain ⟨fuel,rfl⟩ := Nat.exists_eq_succ_of_ne_zero (Nat.ne_zero_of_lt hfuel)
    have h : (w.image.ino i).type = T_FILE := h
    refine find_opened hnul hi fun fd t hopen _ hstat _ => ⟨_,find_file hnul hfile hopen (h ▸ hstat),?_,?_⟩
    · intro fd' _
      split <;> rfl
    · rw [Tree.found]
      split
      · exact ⟨Nat.le_refl _,fun _ => by simp [State.print]⟩
      · exact .refl t
  | .other, i, dir, h, hi, hnul, _ => by
    refine ⟨1,fun fuel hfuel s => ?_⟩
    obtain ⟨fuel,rfl⟩ := Nat.exists_eq_succ_of_ne_zero (Nat.ne_zero_of_lt hfuel)
    exact find_opened hnul hi fun fd t hopen _ hstat _ => ⟨t,find_other hopen hstat h.1 h.2,fun _ _ => rfl,.refl t⟩
  | .dir f, i, dir, h, hi, hnul, hne => by
    obtain ⟨hdir,hnodup,hf⟩ := h
    have hnamei : ∀ e ∈ entries w.image i 0, ∀ name, name = nameOf e.name → name ≠ [] → slash ∉ name →
        w.namei (dir ++ slash :: name) = some e.inum.toNat := by
      rintro e he _ rfl hname hslash
      rw [namei_snoc hne hname hslash (nameOf_length _) hi hdir,lookup_entry hnodup he]
    obtain ⟨N,hN⟩ := Forest.visit hfile f hf hnamei hnul
    -- a round for each entry, and one more that finds the end
    refine ⟨max N (w.image.size i / 16 + 1) + 1,fun fuel hfuel s => ?_⟩
    obtain ⟨fuel,rfl⟩ := Nat.exists_eq_succ_of_ne_zero (Nat.ne_zero_of_lt hfuel)
    refine find_opened hnul hi fun fd t hopen hlen hstat hfd => ?_
    obtain ⟨buf,hbuf,hrun⟩ := find_dir file_name fuel hnul hlen hopen (hdir ▸ hstat)
    obtain ⟨u,hu,hsame,hprints⟩ := scan_forest (n := fuel) hnul (by simp only [MAXPATH,DIRSIZ] at *; omega)
      (w.image.size i / 16) (hN fuel (by omega)) rfl hf hfd hbuf (by omega)
    refine ⟨u,?_,hsame,hprints⟩
    rw [hrun,hu]
    rfl

theorem Forest.visit (hfile : 0 ∉ file_name) : ∀ (f : Forest) {es : List Dirent} {dir : List Byte}, f.Of w.image es →
    (∀ e ∈ es, ∀ name, name = nameOf e.name → name ≠ [] → slash ∉ name → w.namei (dir ++ slash :: name) = some e.inum.toNat) →
    0 ∉ dir → ∃ N, ∀ fuel, N ≤ fuel → f.Calls file_name (find w file_name fuel) dir
  | .nil, es, dir, _, _, _ => ⟨0,fun _ _ => trivial⟩
  | .cons name t rest, es, dir, h, hnamei, hnul => by
    obtain ⟨e,es',rfl,rfl,hname,hslash,ht,hrest⟩ := h
    have hnul' : 0 ∉ dir ++ slash :: nameOf e.name := by
      rw [List.mem_append,List.mem_cons]
      rintro (h | h | h)
      · exact hnul h
      · exact absurd h (by decide)
      · exact nul_not_mem_takeWhile h
    obtain ⟨N,hN⟩ := Tree.visit hfile t ht (hnamei e List.mem_cons_self _ rfl hname hslash) hnul' (.inl (by simp))
    obtain ⟨N',hN'⟩ := Forest.visit hfile rest hrest (fun e he => hnamei e (List.mem_cons_of_mem _ he)) hnul
    exact ⟨max N N',fun fuel hfuel => ⟨hN fuel (by omega),hN' fuel (by omega)⟩⟩
end

end

/-- `find` stays within its buffer and closes what it opens. On a finite directory tree it returns, and if no `open`
failed it has printed the paths of the files with the name, depth first and each once. -/
theorem find_prints_tree (w : World) (dir_name file_name : List Byte) (hdir : 0 ∉ dir_name) (hfile : 0 ∉ file_name) :
    (∀ fuel s, find w file_name fuel dir_name s = .error .depth ∨
      ∃ t, find w file_name fuel dir_name s = .ok t ∧ t.ofile = s.ofile) ∧
    ∀ (tree : Tree) (i : ℕ), w.namei dir_name = some i → tree.At w.image i → dir_name ≠ [] ∨ w.cwd = ROOTINO →
      tree.files.Nodup ∧
      (∀ names, names ∈ tree.files ↔ Proper names ∧ ∃ x, w.image.walk i names = some x ∧ (w.image.ino x).type = T_FILE) ∧
      ∃ N, ∀ fuel, N ≤ fuel → ∀ s, ∃ t, find w file_name fuel dir_name s = .ok t ∧ t.ofile = s.ofile ∧
        (t.refused = s.refused → t.out = s.out ++
          ((tree.files.map (pathOf dir_name)).filter fun path => decide (lastComponent path = file_name)).flatMap
            (· ++ [newline])) := by
  refine ⟨fun fuel s => find_settles hfile fuel dir_name s hdir,fun tree i hi hat hne => ?_⟩
  refine ⟨tree.files_nodup hat,fun names => tree.mem_files hat,?_⟩
  obtain ⟨N,hN⟩ := tree.visit hfile hat hi hdir hne
  refine ⟨N,fun fuel hfuel s => ?_⟩
  obtain ⟨t,ht,hofile,hprints⟩ := hN fuel hfuel s
  refine ⟨t,ht,hofile,fun h => ?_⟩
  rw [← Tree.found_eq]
  exact hprints.out h

/-! ## Fuel -/

section Fuel
variable {w : World} {file_name dir_name : List Byte} {n k : ℕ} {s t : State}

theorem bind_ok_mono {α β : Type} {x y : Except Fault α} {f g : α → Except Fault β} {b : β}
    (hxy : ∀ a, x = .ok a → y = .ok a) (hfg : ∀ a, f a = .ok b → g a = .ok b) (h : x.bind f = .ok b) : y.bind g = .ok b := by
  cases x with
  | error e => cases h
  | ok a =>
    rw [hxy a rfl]
    exact hfg a h

theorem scan_mono {call call' : List Byte → State → Except Fault State} {fd : Fin NOFILE} {p : ℕ} {buf : Bytes 512}
    (hcall : ∀ path s t, call path s = .ok t → call' path s = .ok t) (hn : n ≤ k)
    (h : scan w call fd p n buf s = .ok t) : scan w call' fd p k buf s = .ok t := by
  induction n generalizing k buf s with
  | zero => cases h
  | succ n ih =>
    obtain ⟨k,rfl⟩ := Nat.exists_eq_succ_of_ne_zero (Nat.pos_iff_ne_zero.mp (Nat.lt_of_lt_of_le (Nat.succ_pos n) hn))
    have hn := Nat.le_of_succ_le_succ hn
    rw [scan] at h ⊢
    dsimp only at h ⊢
    split_ifs at h ⊢
    · refine bind_ok_mono (fun _ => id) (fun pass h => ?_) h
      split_ifs at h ⊢
      · exact ih hn h
      · refine bind_ok_mono (fun _ => id) (fun buf => bind_ok_mono (fun _ => id) fun buf => ?_) h
        exact bind_ok_mono (fun _ => id) fun path => bind_ok_mono (hcall path _) fun _ => ih hn
    · exact h

theorem find_mono (hn : n ≤ k) (h : find w file_name n dir_name s = .ok t) : find w file_name k dir_name s = .ok t := by
  induction n generalizing k dir_name s t with
  | zero => cases h
  | succ n ih =>
    obtain ⟨k,rfl⟩ := Nat.exists_eq_succ_of_ne_zero (Nat.pos_iff_ne_zero.mp (Nat.lt_of_lt_of_le (Nat.succ_pos n) hn))
    have hn := Nat.le_of_succ_le_succ hn
    have hscan {fd : Fin NOFILE} {p : ℕ} {buf : Bytes 512} (s t : State) : scan w (find w file_name n) fd p n buf s = .ok t →
        scan w (find w file_name k) fd p k buf s = .ok t := scan_mono (fun _ _ _ => ih hn) hn
    rw [find] at h ⊢
    split at h
    · exact h
    · split at h
      · exact h
      · dsimp only at h ⊢
        split_ifs at h ⊢
        · exact h
        · exact bind_ok_mono (fun _ => id) (fun _ => bind_ok_mono (fun _ => id) fun _ =>
            bind_ok_mono (fun _ => id) fun _ => bind_ok_mono (hscan _) fun _ => id) h
        · exact bind_ok_mono (fun _ => id) (fun _ => bind_ok_mono (fun _ => id) fun _ =>
            bind_ok_mono (fun _ => id) fun _ => bind_ok_mono (hscan _) fun _ => id) h
        · exact h

end Fuel

/-! ## Two calls -/

/-- `/a/b` is a file and `/b` is a directory; the process is in `/a`. -/
def sample : World where
  image := ⟨fun _ => true,
    fun
      | 1 => Sample.dir 3 64 34
      | 2 => Sample.dir 1 48 35
      | 3 => { Sample.dir 1 0 0 with type := T_FILE }
      | 4 => Sample.dir 1 32 36
      | _ => .zero,
    fun
      | 34 => Bytes.zero.splice 0 (Sample.ent 1 dot ++ Sample.ent 1 dotdot ++ Sample.ent 2 [97] ++ Sample.ent 4 [98])
      | 35 => Bytes.zero.splice 0 (Sample.ent 2 dot ++ Sample.ent 1 dotdot ++ Sample.ent 3 [98])
      | 36 => Bytes.zero.splice 0 (Sample.ent 4 dot ++ Sample.ent 1 dotdot)
      | _ => Bytes.zero⟩
  cwd := 2
  room := fun _ => true
  stack := fun _ => Bytes.zero

theorem sample_at : (Tree.dir (.cons [98] .file .nil)).At sample.image 2 := by
  have hentries : entries sample.image 2 0 = [⟨3,strncpy DIRSIZ [98]⟩] := by decide +kernel
  refine ⟨rfl,?_,?_⟩
  · rw [hentries]
    exact List.nodup_singleton _
  · rw [hentries]
    exact ⟨_,[],rfl,by decide,by decide,by decide,rfl,rfl⟩

theorem sample_root_at :
    (Tree.dir (.cons [97] (.dir (.cons [98] .file .nil)) (.cons [98] (.dir .nil) .nil))).At sample.image 1 := by
  have hroot : entries sample.image 1 0 = [⟨2,strncpy DIRSIZ [97]⟩,⟨4,strncpy DIRSIZ [98]⟩] := by decide +kernel
  have hempty : entries sample.image 4 0 = [] := by decide +kernel
  refine ⟨rfl,?_,?_⟩
  · rw [hroot]
    decide
  · rw [hroot]
    refine ⟨_,_,rfl,by decide,by decide,by decide,sample_at,_,_,rfl,by decide,by decide,by decide,⟨rfl,?_,?_⟩,rfl⟩
    · change (List.map _ (entries sample.image 4 0)).Nodup
      rw [hempty]
      exact List.nodup_nil
    · change Forest.Of sample.image .nil (entries sample.image 4 0)
      rw [hempty]
      rfl

/-- `find / b` prints `//a/b` and leaves the directory `/b` out. -/
theorem find_prints_tree_root : ∃ fuel t, find sample [98] fuel [47] ⟨fun _ => none,0,0,[],[]⟩ = .ok t ∧
    t.ofile = (fun _ => none) ∧ t.out = [47,47,97,47,98,10] := by
  obtain ⟨-,-,N,hN⟩ := (find_prints_tree sample [47] [98] (by decide) (by decide)).2 _ 1 (by decide +kernel) sample_root_at
    (.inl (by decide))
  obtain ⟨u,hu,hq⟩ := Prog.ok_of_toOption_map (e := find sample [98] 8 [47] ⟨fun _ => none,0,0,[],[]⟩)
    (f := fun t => t.refused) (q := 0) (by decide +kernel)
  obtain ⟨t,ht,hofile,hout⟩ := hN (max N 8) (Nat.le_max_left N 8) ⟨fun _ => none,0,0,[],[]⟩
  have hsame := find_mono (Nat.le_max_right N 8) hu
  rw [ht] at hsame
  cases hsame
  exact ⟨_,_,ht,hofile,hout hq⟩

/-- With the empty path `find` reads the current directory and looks its names up in the root. -/
theorem find_empty_path : sample.namei [] = some 2 ∧ (Tree.dir (.cons [98] .file .nil)).At sample.image 2 ∧
    ((Tree.dir (.cons [98] .file .nil)).files.map (pathOf [])).filter (fun path => decide (lastComponent path = [98])) =
      [[47,98]] ∧
    ∃ t, find sample [98] 5 [] ⟨fun _ => none,0,0,[],[]⟩ = .ok t ∧ t.refused = 0 ∧ t.out = [] := by
  refine ⟨by decide +kernel,sample_at,by decide,?_⟩
  obtain ⟨t,ht,hq⟩ := Prog.ok_of_toOption_map (e := find sample [98] 5 [] ⟨fun _ => none,0,0,[],[]⟩)
    (f := fun t => (t.refused,t.out)) (q := (0,[])) (by decide +kernel)
  obtain ⟨h₁,h₂⟩ := Prod.mk.inj hq
  exact ⟨t,ht,h₁,h₂⟩

end Xv6.Find
