import Xv6.User.Grammar

/-! # The parser follows the grammar

A place in the line is known by the tokens that come after it. Soundness and completeness are two
statements about one weakest precondition, which differ in whether `panic` is allowed.
-/
namespace Xv6.Sh

/-! ### Tokens -/

def Token.code : Token → Char
  | word _ => 'a'
  | lt => '<'
  | gt => '>'
  | gtgt => '+'
  | bar => '|'
  | amp => '&'
  | semi => ';'
  | lparen => '('
  | rparen => ')'

def Token.sym : Token → Option Char
  | word _ => none
  | lt => '<'
  | gt => '>'
  | gtgt => '>'
  | bar => '|'
  | amp => '&'
  | semi => ';'
  | lparen => '('
  | rparen => ')'

section Lex
variable {c : Char} {s : Ptr}

theorem blank_or (c : Char) : blank c = true ∨ wordChar c = true ∨ c ∈ symbols := by
  unfold blank wordChar
  cases h : whitespace.contains c with
  | true => exact Or.inl rfl
  | false =>
    cases h' : symbols.contains c with
    | true => exact Or.inr (Or.inr (List.contains_iff_mem.mp h'))
    | false => exact Or.inr (Or.inl rfl)

theorem not_blank_of_wordChar (h : wordChar c = true) : blank c = false := by
  unfold wordChar at h
  unfold blank
  cases h' : whitespace.contains c <;> simp_all

theorem not_mem_symbols_of_wordChar (h : wordChar c = true) : c ∉ symbols := fun hc => by
  simp [wordChar,hc] at h

theorem tokens_blank (h : blank c = true) : tokens (c :: s) = tokens s := by rw [tokens,if_pos h]

theorem tokens_word (h : wordChar c = true) :
    tokens (c :: s) = .word (c :: s.takeWhile wordChar) :: tokens (s.dropWhile wordChar) := by
  rw [tokens,if_neg (by simp [not_blank_of_wordChar h]),if_pos h]

theorem tokens_gtgt : tokens ('>' :: '>' :: s) = .gtgt :: tokens s := by
  rw [tokens,if_neg (by decide),if_neg (by decide),if_pos rfl,if_pos List.head?_cons,List.tail_cons]

theorem tokens_gt (h : deref s ≠ '>') : tokens ('>' :: s) = .gt :: tokens s := by
  have hs : ¬s.head? = some '>' := fun hs => h (by rw [deref,List.headD_eq_head?_getD,hs]; rfl)
  rw [tokens,if_neg (by decide),if_neg (by decide),if_pos rfl,if_neg hs]

theorem tokens_symbol (h : c ∈ ['|','(',')',';','&','<']) : tokens (c :: s) = symbol c :: tokens s := by
  have : blank c = false ∧ wordChar c = false ∧ c ≠ '>' := by
    revert h
    simp only [List.mem_cons,List.not_mem_nil,or_false]
    rintro (rfl | rfl | rfl | rfl | rfl | rfl) <;> decide
  rw [tokens,if_neg (by simp [this.1]),if_neg (by simp [this.2.1]),if_neg this.2.2]

theorem tokens_skip : tokens (skip s) = tokens s := by
  induction s with
  | nil => rfl
  | cons c s ih =>
    unfold skip at *
    rw [List.dropWhile_cons]
    split_ifs with h
    · rw [ih,tokens_blank h]
    · rfl

theorem lex_cons : lex (c :: s) = if c = NUL then (c,c :: s) else if c ∈ ['|','(',')',';','&','<'] then (c,s)
    else if c = '>' then if deref s = '>' then ('+',s.tail) else (c,s) else ('a',(c :: s).dropWhile wordChar) := rfl

structure Lexed (c : Char) (s : Ptr) (t : Token) : Prop where
  tokens : tokens (c :: s) = t :: tokens (lex (c :: s)).2
  ret : (lex (c :: s)).1 = t.code
  rest : (lex (c :: s)).2 <:+ c :: s
  sym : t.sym = if wordChar c then none else some c
  word : ∀ w, t = .word w → c :: s = w ++ (lex (c :: s)).2 ∧ w ≠ [] ∧ (∀ d ∈ w, wordChar d = true) ∧
    ∀ d ∈ (lex (c :: s)).2.head?, wordChar d = false

theorem lexed_word (h0 : c ≠ NUL) (h : wordChar c = true) : Lexed c s (.word (c :: s.takeWhile wordChar)) := by
  have hsym := not_mem_symbols_of_wordChar h
  have hlex : lex (c :: s) = ('a',s.dropWhile wordChar) := by
    rw [lex_cons,if_neg h0,if_neg (by simp [symbols] at hsym ⊢; tauto),if_neg (by simp [symbols] at hsym ⊢; tauto),
      List.dropWhile_cons_of_pos h]
  constructor
  · rw [hlex,tokens_word h]
  · rw [hlex]
    rfl
  · rw [hlex]
    exact (List.dropWhile_suffix _).trans (List.suffix_cons _ _)
  · simp [Token.sym,h]
  · rintro w hw
    obtain rfl := Token.word.inj hw
    rw [hlex]
    refine ⟨by simp,by simp,fun d hd => ?_,fun d hd => ?_⟩
    · rcases List.mem_cons.mp hd with rfl | hd
      · exact h
      · exact List.mem_takeWhile_imp hd
    · have := List.head?_dropWhile_not wordChar s
      rw [Option.mem_def.mp hd] at this
      simpa using this

theorem lexed_symbol (h : c ∈ symbols) : ∃ t, Lexed c s t := by
  by_cases hgt : c = '>'
  · subst hgt
    by_cases hs : deref s = '>'
    · obtain ⟨s,rfl⟩ : ∃ r, s = '>' :: r := by
        cases s with
        | nil => exact absurd hs (by decide)
        | cons d r => exact ⟨r,by rw [← show d = '>' from hs]⟩
      refine ⟨.gtgt,tokens_gtgt,rfl,?_,rfl,fun w hw => by cases hw⟩
      exact (List.suffix_cons _ _).trans (List.suffix_cons _ _)
    · have hlex : lex ('>' :: s) = ('>',s) := by
        rw [lex_cons,if_neg (by decide),if_neg (by decide),if_pos rfl,if_neg hs]
      refine ⟨.gt,?_,?_,?_,rfl,fun w hw => by cases hw⟩
      · rw [hlex,tokens_gt hs]
      · rw [hlex]
        rfl
      · rw [hlex]
        exact List.suffix_cons _ _
  · have hc : c ∈ ['|','(',')',';','&','<'] := by simp [symbols] at h ⊢; tauto
    have hlex : lex (c :: s) = (c,s) := by
      rw [lex_cons,if_neg (by rintro rfl; revert hc; decide),if_pos hc]
    have hcode : (symbol c).code = c ∧ (symbol c).sym = some c ∧ wordChar c = false ∧ ∀ w, symbol c ≠ .word w := by
      revert hc
      simp only [List.mem_cons,List.not_mem_nil,or_false]
      rintro (rfl | rfl | rfl | rfl | rfl | rfl) <;> exact ⟨rfl,rfl,rfl,fun w hw => by cases hw⟩
    refine ⟨symbol c,?_,?_,?_,?_,fun w hw => absurd hw (hcode.2.2.2 w)⟩
    · rw [hlex,tokens_symbol hc]
    · rw [hlex,hcode.1]
    · rw [hlex]
      exact List.suffix_cons _ _
    · rw [hcode.2.1,if_neg (by simp [hcode.2.2.1])]

theorem exists_lexed (h0 : c ≠ NUL) (hb : blank c = false) : ∃ t, Lexed c s t := by
  rcases blank_or c with h | h | h
  · rw [h] at hb
    cases hb
  · exact ⟨_,lexed_word h0 h⟩
  · exact lexed_symbol h

theorem skip_cases (s : Ptr) : skip s = [] ∨ ∃ c r, skip s = c :: r ∧ blank c = false := by
  cases h : skip s with
  | nil => exact Or.inl rfl
  | cons c r =>
    refine Or.inr ⟨c,r,rfl,?_⟩
    have := List.head?_dropWhile_not blank s
    rw [show s.dropWhile blank = c :: r from h] at this
    simpa using this

end Lex

/-- The string `w` is in the line between the two pointers, and is not part of a longer one. -/
def WordAt (line : Ptr) (p : Word) (w : List Char) : Prop :=
  p.1 <:+ line ∧ p.1 = w ++ p.2 ∧ w ≠ [] ∧ (∀ c ∈ w, wordChar c = true) ∧ ∀ c ∈ p.2.head?, wordChar c = false

def At (line ps : Ptr) (ts : List Token) : Prop := ps <:+ line ∧ tokens ps = ts

section At
variable {line ps : Ptr} {t : Token} {ts : List Token} {toks : List Char}

theorem At.skipped (h : At line ps ts) : At line (skip ps) ts := ⟨(List.dropWhile_suffix _).trans h.1,tokens_skip.trans h.2⟩

theorem At.peeked (h : At line ps ts) : At line (peek ps toks).2 ts := h.skipped

theorem At.lexed (hline : NUL ∉ line) (h : At line ps ts) :
    skip ps = [] ∧ ts = [] ∨ ∃ c r t, skip ps = c :: r ∧ Lexed c r t ∧ ts = t :: tokens (lex (c :: r)).2 := by
  have hs := h.skipped
  rcases skip_cases ps with hnil | ⟨c,r,hc,hb⟩
  · refine Or.inl ⟨hnil,?_⟩
    rw [← hs.2,hnil,tokens]
  · have h0 : c ≠ NUL := fun h0 => hline (hs.1.subset (by rw [hc,h0]; exact List.mem_cons_self))
    obtain ⟨t,ht⟩ := exists_lexed (s := r) h0 hb
    exact Or.inr ⟨c,r,t,hc,ht,by rw [← hs.2,hc,ht.tokens]⟩

theorem At.peek_nil (hline : NUL ∉ line) (h : At line ps []) : (peek ps toks).1 = false ∧ (peek ps toks).2 = [] := by
  rcases h.lexed hline with ⟨hs,-⟩ | ⟨c,r,t,-,-,h⟩
  · simp [peek,hs,deref]
  · cases h

theorem At.peek_cons (hline : NUL ∉ line) (h : At line ps (t :: ts)) (htoks : ∀ c ∈ toks, c ∈ symbols) :
    (peek ps toks).1 = t.sym.any toks.contains := by
  have hs := h.skipped
  rcases h.lexed hline with ⟨-,h⟩ | ⟨c,r,t',hc,hl,heq⟩
  · cases h
  obtain rfl : t = t' := (List.cons.inj heq).1
  have h0 : c ≠ NUL := fun h0 => hline (hs.1.subset (by rw [hc,h0]; exact List.mem_cons_self))
  have hpeek : (peek ps toks).1 = toks.contains c := by simp [peek,hc,deref,h0]
  rw [hpeek,hl.sym]
  split_ifs with hw
  · have : c ∉ toks := fun hc => not_mem_symbols_of_wordChar hw (htoks c hc)
    simpa using this
  · rfl

theorem At.gettoken_nil (hline : NUL ∉ line) (h : At line ps []) :
    (gettoken ps).ret = NUL ∧ At line (gettoken ps).ps [] := by
  have hs := h.skipped
  rcases h.lexed hline with ⟨hnil,-⟩ | ⟨c,r,t,-,-,h⟩
  · have hl : lex [] = (NUL,[]) := rfl
    have hps : (gettoken ps).ps = [] := by
      show skip (lex (skip ps)).2 = []
      rw [hnil,hl]
      rfl
    refine ⟨by simp [gettoken,hnil,hl],?_⟩
    rw [hps,← hnil]
    exact hs
  · cases h

theorem At.gettoken_cons (hline : NUL ∉ line) (h : At line ps (t :: ts)) :
    (gettoken ps).ret = t.code ∧ At line (gettoken ps).ps ts ∧
      ∀ w, t = .word w → WordAt line ((gettoken ps).q,(gettoken ps).eq) w := by
  have hs := h.skipped
  rcases h.lexed hline with ⟨-,h⟩ | ⟨c,r,t',hc,hl,heq⟩
  · cases h
  obtain ⟨rfl,rfl⟩ := List.cons.inj heq
  have hrest : (lex (skip ps)).2 <:+ line := by
    rw [hc]
    exact hl.rest.trans (hc ▸ hs.1)
  refine ⟨?_,At.skipped ⟨hrest,by rw [hc]⟩,fun w hw => ⟨hs.1,?_⟩⟩
  · show (lex (skip ps)).1 = _
    rw [hc,hl.ret]
  · show skip ps = w ++ (lex (skip ps)).2 ∧ w ≠ [] ∧ _ ∧ ∀ c ∈ (lex (skip ps)).2.head?, wordChar c = false
    rw [hc]
    exact hl.word w hw

end At

/-! ### Redirections and words -/

/-- The result is as `P` says, or there is a panic and `pan` allows it. -/
def Res.wp {α : Type} (pan : Prop) (P : α → Prop) : Res α → Prop
  | .done a => P a
  | .panic _ => pan
  | .more => False

theorem Res.wp.bind {α β : Type} {pan : Prop} {P : α → Prop} {Q : β → Prop} {x : Res α} {f : α → Res β} (hx : x.wp pan P)
    (hf : ∀ a, P a → (f a).wp pan Q) : (x >>= f).wp pan Q := by
  cases x with
  | done a => exact hf a hx
  | panic msg => exact hx
  | more => exact hx

theorem Res.wp.imp {α : Type} {pan : Prop} {P Q : α → Prop} {x : Res α} (hx : x.wp pan P) (h : ∀ a, P a → Q a) : x.wp pan Q := by
  cases x with
  | done a => exact h a hx
  | panic msg => exact hx
  | more => exact hx

/-- The tree `cmd` with its pointers has the strings of `t`. -/
inductive Reads (line : Ptr) : Cmd Word → Tree → Prop
  | exec {argv : List Word} {ws : List (List Char)} (h : List.Forall₂ (WordAt line) argv ws) : Reads line (.exec argv) (.exec ws)
  | redir {c : Cmd Word} {t : Tree} {f : Word} {w : List Char} {mode fd : ℕ} (h : Reads line c t) (hw : WordAt line f w) :
      Reads line (.redir c f mode fd) (.redir t w mode fd)
  | pipe {c d : Cmd Word} {t u : Tree} (h₁ : Reads line c t) (h₂ : Reads line d u) : Reads line (.pipe c d) (.pipe t u)
  | list {c d : Cmd Word} {t u : Tree} (h₁ : Reads line c t) (h₂ : Reads line d u) : Reads line (.list c d) (.list t u)
  | back {c : Cmd Word} {t : Tree} (h : Reads line c t) : Reads line (.back c) (.back t)

theorem Reads.addArg {line : Ptr} {c : Cmd Word} {t : Tree} {f : Word} {w : List Char} (h : Reads line c t) (hw : WordAt line f w) :
    Reads line (c.addArg f) (t.addArg w) := by
  induction h with
  | exec h => exact .exec (List.rel_append h (.cons hw .nil))
  | redir _ hf ih => exact .redir ih hf
  | pipe h₁ h₂ => exact .pipe h₁ h₂
  | list h₁ h₂ => exact .list h₁ h₂
  | back h => exact .back h

theorem addArg_foldl_wrap (rs : List Redir) (t : Tree) (w : List Char) :
    (rs.foldl Redir.wrap t).addArg w = rs.foldl Redir.wrap (t.addArg w) := by
  induction rs generalizing t with
  | nil => rfl
  | cons r rs ih => exact ih (r.wrap t)

section Ops
variable {line ps : Ptr} {t : Token} {ts : List Token} {cmd : Cmd Word} {fuel : ℕ} {rs : List Redir}

theorem sym_redir_iff : t.sym.any ['<','>'].contains = true ↔ ∃ op, t = Op.token op := by
  constructor
  · cases t with
    | lt => exact fun _ => ⟨.read,rfl⟩
    | gt => exact fun _ => ⟨.write,rfl⟩
    | gtgt => exact fun _ => ⟨.append,rfl⟩
    | _ => intro h; cases h
  · rintro ⟨op,rfl⟩
    cases op <;> rfl

theorem redircmd_token (op : Op) (cmd : Cmd Word) (f : Word) :
    redircmd op.token.code cmd f = .redir cmd f op.mode op.fd := by cases op <;> rfl

theorem code_eq_iff : t.code = 'a' ↔ ∃ w, t = .word w := by
  constructor
  · cases t with
    | word w => exact fun _ => ⟨w,rfl⟩
    | _ => exact fun h => absurd h (by decide)
  · rintro ⟨w,rfl⟩
    rfl

theorem code_ne_nul : t.code ≠ NUL := by
  cases t with
  | word w => exact show 'a' ≠ NUL by decide
  | _ => decide

theorem At.peek_eq (h : At line ps ts) (hline : NUL ∉ line) (toks : List Char) (htoks : ∀ c ∈ toks, c ∈ symbols) :
    (peek ps toks).1 = ts.head?.any fun t => t.sym.any toks.contains := by
  cases ts with
  | nil => exact (h.peek_nil hline).1
  | cons t ts => exact h.peek_cons hline htoks

theorem parseredirs_sound (hline : NUL ∉ line) {u : Tree} (h : At line ps ts) (hf : ts.length < fuel)
    (hr : Reads line cmd u) : (parseredirs fuel cmd ps).wp True fun r => ∃ rs ts', At line r.2 ts' ∧ ts = redirTokens rs ++ ts' ∧
      Reads line r.1 (rs.foldl Redir.wrap u) := by
  induction fuel generalizing cmd u ps ts with
  | zero => omega
  | succ fuel ih =>
    have hpeek := h.peek_eq hline ['<','>'] (by simp [symbols])
    have hat : At line (peek ps ['<','>']).2 ts := h.peeked
    rw [parseredirs]
    generalize peek ps ['<','>'] = p at hpeek hat
    dsimp only
    split_ifs with hp hfile
    · trivial
    · rw [hpeek] at hp
      obtain ⟨t,ts,rfl⟩ : ∃ t us, ts = t :: us := by cases ts <;> simp_all
      obtain ⟨op,rfl⟩ := sym_redir_iff.mp hp
      obtain ⟨hret,hat',-⟩ := hat.gettoken_cons hline
      cases ts with
      | nil => exact absurd (hat'.gettoken_nil hline).1 (by rw [not_not.mp hfile]; decide)
      | cons t ts =>
        obtain ⟨hret',hat'',hword⟩ := hat'.gettoken_cons hline
        obtain ⟨w,rfl⟩ := code_eq_iff.mp (hret'.symm.trans (not_not.mp hfile))
        rw [hret,redircmd_token]
        refine (ih hat'' (by simp at hf; omega) (.redir hr (hword w rfl))).imp ?_
        rintro r ⟨rs,ts',hr₁,rfl,hr₂⟩
        exact ⟨⟨op,w⟩ :: rs,ts',hr₁,rfl,hr₂⟩
    · exact ⟨[],ts,hat,rfl,hr⟩

theorem parseredirs_complete (hline : NUL ∉ line) {u : Tree}
    (h : At line ps (redirTokens rs ++ ts)) (hts : ∀ op, ts.head? ≠ some (Op.token op)) (hf : rs.length < fuel)
      (hr : Reads line cmd u) :
    (parseredirs fuel cmd ps).wp False fun r => At line r.2 ts ∧ Reads line r.1 (rs.foldl Redir.wrap u) := by
  induction fuel generalizing cmd u ps rs with
  | zero => omega
  | succ fuel ih =>
    have hpeek := h.peek_eq hline ['<','>'] (by simp [symbols])
    have hat : At line (peek ps ['<','>']).2 (redirTokens rs ++ ts) := h.peeked
    rw [parseredirs]
    generalize peek ps ['<','>'] = p at hpeek hat
    dsimp only
    cases rs with
    | nil =>
      have hp : p.1 = false := by
        rw [hpeek]
        cases ts with
        | nil => rfl
        | cons t ts =>
          by_contra hne
          obtain ⟨op,rfl⟩ := sym_redir_iff.mp (by simpa using hne)
          exact hts op rfl
      rw [hp,if_neg (by simp)]
      exact ⟨hat,hr⟩
    | cons r rs =>
      have hp : p.1 = true := by
        rw [hpeek]
        exact sym_redir_iff.mpr ⟨r.op,rfl⟩
      have hat : At line p.2 (r.op.token :: .word r.file :: (redirTokens rs ++ ts)) := hat
      obtain ⟨hret,hat',-⟩ := hat.gettoken_cons hline
      obtain ⟨hret',hat'',hword⟩ := hat'.gettoken_cons hline
      rw [if_pos hp,if_neg (not_not.mpr (show _ = 'a' from hret')),hret,redircmd_token]
      simp only [List.foldl_cons]
      exact ih hat'' (by simp at hf; omega) (.redir hr (hword _ rfl))

theorem sym_any_iff {u : Token} (hu : u ∈ [Token.bar,.amp,.semi,.lparen,.rparen]) : t.sym.any [u.code].contains = true ↔ t = u := by
  constructor
  · revert hu
    simp only [List.mem_cons,List.not_mem_nil,or_false]
    rintro (rfl | rfl | rfl | rfl | rfl) h <;> cases t <;> first | rfl | cases h
  · rintro rfl
    revert hu
    simp only [List.mem_cons,List.not_mem_nil,or_false]
    rintro (rfl | rfl | rfl | rfl | rfl) <;> rfl

theorem At.peek_iff (h : At line ps ts) (hline : NUL ∉ line) (u : Token) (hu : u ∈ [Token.bar,.amp,.semi,.lparen,.rparen]) :
    (peek ps [u.code]).1 = true ↔ ts.head? = some u := by
  have hsym : ∀ c ∈ [u.code], c ∈ symbols := by
    revert hu
    simp only [List.mem_cons,List.not_mem_nil,or_false]
    rintro (rfl | rfl | rfl | rfl | rfl) c rfl <;> simp [symbols,Token.code]
  rw [h.peek_eq hline _ hsym]
  cases ts with
  | nil => simp
  | cons t ts =>
    rw [List.head?_cons,Option.any_some,sym_any_iff hu,Option.some_inj]

/-! ### `&` -/

theorem backs_succ {α : Type} (n : ℕ) (t : Cmd α) : t.backs (n + 1) = (Cmd.back t).backs n := Function.iterate_succ_apply ..

theorem parseback_sound (hline : NUL ∉ line) {u : Tree} (h : At line ps ts) (hf : ts.length < fuel)
    (hr : Reads line cmd u) : (parseback fuel cmd ps).wp True fun r => ∃ n ts', At line r.2 ts' ∧
      ts = List.replicate n .amp ++ ts' ∧ Reads line r.1 (u.backs n) := by
  induction fuel generalizing cmd u ps ts with
  | zero => omega
  | succ fuel ih =>
    have hpeek : (peek ps ['&']).1 = true ↔ ts.head? = some .amp := h.peek_iff hline .amp (by simp)
    have hat : At line (peek ps ['&']).2 ts := h.peeked
    rw [parseback]
    by_cases hp : (peek ps ['&']).1 = true
    · rw [if_pos hp]
      obtain ⟨us,rfl⟩ := List.head?_eq_some_iff.mp (hpeek.mp hp)
      obtain ⟨-,hat',-⟩ := hat.gettoken_cons hline
      refine (ih hat' (by simp at hf; omega) (.back hr)).imp ?_
      rintro r ⟨n,ts',hr₁,rfl,hr₂⟩
      exact ⟨n + 1,ts',hr₁,rfl,backs_succ n u ▸ hr₂⟩
    · rw [if_neg hp]
      exact ⟨0,ts,hat,rfl,hr⟩

theorem parseback_complete (hline : NUL ∉ line) {n fuel : ℕ} {u : Tree}
    (h : At line ps (List.replicate n .amp ++ ts))
    (hts : ts.head? ≠ some .amp) (hf : n < fuel) (hr : Reads line cmd u) :
    (parseback fuel cmd ps).wp False fun r => At line r.2 ts ∧ Reads line r.1 (u.backs n) := by
  induction fuel generalizing cmd u ps n with
  | zero => omega
  | succ fuel ih =>
    have hpeek : (peek ps ['&']).1 = true ↔ (List.replicate n Token.amp ++ ts).head? = some .amp := h.peek_iff hline .amp (by simp)
    have hat : At line (peek ps ['&']).2 (List.replicate n Token.amp ++ ts) := h.peeked
    rw [parseback]
    cases n with
    | zero =>
      rw [if_neg fun hp => hts (hpeek.mp hp)]
      exact ⟨hat,hr⟩
    | succ n =>
      rw [if_pos (hpeek.mpr rfl)]
      have hat : At line (peek ps ['&']).2 (.amp :: (List.replicate n .amp ++ ts)) := hat
      obtain ⟨-,hat',-⟩ := hat.gettoken_cons hline
      rw [backs_succ]
      exact ih hat' (by omega) (.back hr)

/-! ### Words -/

def stops : List Token := [.bar,.rparen,.amp,.semi]

theorem sym_stops_iff : t.sym.any ['|',')','&',';'].contains = true ↔ t ∈ stops := by
  constructor
  · cases t with
    | word w => intro h; cases h
    | _ => decide
  · simp only [stops,List.mem_cons,List.not_mem_nil,or_false]
    rintro (rfl | rfl | rfl | rfl) <;> rfl

theorem At.peek_stops (h : At line ps ts) (hline : NUL ∉ line) :
    (peek ps ['|',')','&',';']).1 = true ↔ ∃ t ∈ ts.head?, t ∈ stops := by
  rw [h.peek_eq hline _ (by simp [symbols])]
  cases ts with
  | nil => simp
  | cons t ts => rw [List.head?_cons,Option.any_some,sym_stops_iff]; simp

theorem argTokens_cons (w : List Char) (rs : List Redir) (args : List (List Char × List Redir)) :
    argTokens ((w,rs) :: args) = .word w :: (redirTokens rs ++ argTokens args) := rfl

theorem length_redirTokens (rs : List Redir) : (redirTokens rs).length = 2 * rs.length := by
  induction rs with
  | nil => rfl
  | cons r rs ih =>
    rw [redirTokens,List.flatMap_cons,List.length_append,← redirTokens,ih,List.length_cons,Redir.tokens]
    simp
    omega

theorem head_ne_op (args : List (List Char × List Redir)) (hts : ∀ t ∈ ts.head?, t ∈ stops) (op : Op) :
    (argTokens args ++ ts).head? ≠ some op.token := by
  cases args with
  | nil =>
    intro h
    exact absurd (hts _ h) (by cases op <;> decide)
  | cons a args =>
    intro h
    have : Token.word a.1 = op.token := Option.some.inj h
    cases op <;> cases this

theorem parseargs_sound (hline : NUL ∉ line) {ret : Cmd Word} {ws : List (List Char)}
    (h : At line ps ts)
    (hf : ts.length + 1 < fuel) (hr : Reads line ret (rs.foldl Redir.wrap (.exec ws))) (hws : ws.length ≤ MAXARGS - 1) :
    (parseargs fuel ws.length ret ps).wp True fun r => ∃ args ts', At line r.2 ts' ∧ ts = argTokens args ++ ts' ∧
      ws.length + args.length ≤ MAXARGS - 1 ∧
      Reads line r.1 ((rs ++ args.flatMap Prod.snd).foldl Redir.wrap (.exec (ws ++ args.map Prod.fst))) := by
  induction fuel generalizing ret rs ws ps ts with
  | zero => omega
  | succ fuel ih =>
    have hat : At line (peek ps ['|',')','&',';']).2 ts := h.peeked
    rw [parseargs]
    generalize peek ps ['|',')','&',';'] = p at hat
    dsimp only
    have hnil : ∀ q, At line q ts → ∃ args ts', At line q ts' ∧ ts = argTokens args ++ ts' ∧ ws.length + args.length ≤ MAXARGS - 1 ∧
        Reads line ret ((rs ++ args.flatMap Prod.snd).foldl Redir.wrap (.exec (ws ++ args.map Prod.fst))) := fun q hq =>
      ⟨[],ts,hq,rfl,hws,by simpa using hr⟩
    split_ifs with hp h0 ha hargs
    · exact hnil _ hat
    · cases ts with
      | nil => exact hnil _ (hat.gettoken_nil hline).2
      | cons t ts => exact absurd ((hat.gettoken_cons hline).1.symm.trans h0) code_ne_nul
    · trivial
    · trivial
    · cases ts with
      | nil => exact absurd (hat.gettoken_nil hline).1 h0
      | cons t ts =>
        obtain ⟨hret,hat',hword⟩ := hat.gettoken_cons hline
        obtain ⟨w,rfl⟩ := code_eq_iff.mp (hret.symm.trans (not_not.mp ha))
        have hadd := hr.addArg (hword w rfl)
        rw [addArg_foldl_wrap] at hadd
        simp only [List.length_cons] at hf
        refine (parseredirs_sound hline hat' (by omega) hadd).bind ?_
        rintro r ⟨rs',ts',hr₁,rfl,hr₂⟩
        rw [← List.foldl_append] at hr₂
        simp only [List.length_append] at hf
        have hlen : ws.length + 1 = (ws ++ [w]).length := by simp
        rw [hlen]
        refine (ih hr₁ (by omega) hr₂ (by simp [MAXARGS] at hargs ⊢; omega)).imp ?_
        rintro r' ⟨args,ts'',h₁,rfl,h₂,h₃⟩
        refine ⟨(w,rs') :: args,ts'',h₁,by rw [argTokens_cons]; simp,by simp at h₂ ⊢; omega,?_⟩
        simpa using h₃

theorem parseargs_complete (hline : NUL ∉ line) {ret : Cmd Word} {ws : List (List Char)}
    {args : List (List Char × List Redir)} (h : At line ps (argTokens args ++ ts)) (hts : ∀ t ∈ ts.head?, t ∈ stops)
    (hf : (argTokens args).length + 1 < fuel) (hr : Reads line ret (rs.foldl Redir.wrap (.exec ws)))
    (hargs : ws.length + args.length ≤ MAXARGS - 1) :
    (parseargs fuel ws.length ret ps).wp False fun r => At line r.2 ts ∧
      Reads line r.1 ((rs ++ args.flatMap Prod.snd).foldl Redir.wrap (.exec (ws ++ args.map Prod.fst))) := by
  induction fuel generalizing ret rs ws ps args with
  | zero => omega
  | succ fuel ih =>
    have hpeek := h.peek_stops hline
    have hat : At line (peek ps ['|',')','&',';']).2 (argTokens args ++ ts) := h.peeked
    rw [parseargs]
    generalize peek ps ['|',')','&',';'] = p at hat hpeek
    dsimp only
    cases args with
    | nil =>
      cases ts with
      | nil =>
        obtain ⟨h₁,h₂⟩ := At.gettoken_nil hline (show At line p.2 [] from hat)
        rw [if_neg (fun hp => by obtain ⟨t,ht,-⟩ := hpeek.mp hp; cases ht),if_pos h₁]
        exact ⟨h₂,by simpa using hr⟩
      | cons t ts =>
        rw [if_pos (hpeek.mpr ⟨t,rfl,hts t rfl⟩)]
        exact ⟨hat,by simpa using hr⟩
    | cons a args =>
      obtain ⟨w,rs'⟩ := a
      rw [argTokens_cons] at hat hpeek hf
      simp only [List.length_cons,List.length_append] at hf hargs
      rw [length_redirTokens] at hf
      rw [List.cons_append,List.append_assoc] at hat
      obtain ⟨hret,hat',hword⟩ := hat.gettoken_cons hline
      have hret : (gettoken p.2).ret = 'a' := hret
      have hadd := hr.addArg (hword w rfl)
      rw [addArg_foldl_wrap] at hadd
      rw [if_neg (by rw [hpeek]; simp [stops]),if_neg (by rw [hret]; decide),if_neg (not_not.mpr hret),
        if_neg (by simp [MAXARGS] at hargs ⊢; omega)]
      refine (parseredirs_complete hline hat' (head_ne_op args hts) (by omega) hadd).bind ?_
      rintro r ⟨hr₁,hr₂⟩
      rw [← List.foldl_append] at hr₂
      have hlen : ws.length + 1 = (ws ++ [w]).length := by simp
      rw [hlen]
      refine (ih hr₁ (by omega) hr₂ (by simp; omega)).imp ?_
      rintro r' ⟨h₁,h₂⟩
      exact ⟨h₁,by simpa using h₂⟩

end Ops

/-! ### The six functions -/

section Rec
variable {line : Ptr} {fuel : ℕ} {ts : List Token}

/-- With enough fuel a result comes from a derivation of the tokens that were read. -/
structure SoundAt (line : Ptr) (fuel : ℕ) : Prop where
  onLine : ∀ ps ts, At line ps ts → 4 * ts.length + 5 ≤ fuel → (parseline fuel ps).wp True fun r =>
    ∃ d : Line, ∃ ts', At line r.2 ts' ∧ ts = d.tokens ++ ts' ∧ Reads line r.1 d.tree
  onPipe : ∀ ps ts, At line ps ts → 4 * ts.length + 4 ≤ fuel → (parsepipe fuel ps).wp True fun r =>
    ∃ d : Pipe, ∃ ts', At line r.2 ts' ∧ ts = d.tokens ++ ts' ∧ Reads line r.1 d.tree
  onExec : ∀ ps ts, At line ps ts → 4 * ts.length + 3 ≤ fuel → (parseexec fuel ps).wp True fun r =>
    ∃ d : Exec, ∃ ts', At line r.2 ts' ∧ ts = d.tokens ++ ts' ∧ Reads line r.1 d.tree
  onBlock : ∀ ps ts, At line ps ts → 4 * ts.length + 2 ≤ fuel → (parseblock fuel ps).wp True fun r =>
    ∃ d : Exec, ∃ ts', At line r.2 ts' ∧ ts = d.tokens ++ ts' ∧ Reads line r.1 d.tree

theorem parseline_sound (hline : NUL ∉ line) (ih : SoundAt line fuel) {ps : Ptr} (h : At line ps ts)
    (hf : 4 * ts.length + 5 ≤ fuel + 1) : (parseline (fuel + 1) ps).wp True fun r =>
      ∃ d : Line, ∃ ts', At line r.2 ts' ∧ ts = d.tokens ++ ts' ∧ Reads line r.1 d.tree := by
  rw [parseline]
  refine (ih.onPipe ps ts h (by omega)).bind ?_
  rintro ⟨cmd,ps₁⟩ ⟨p,ts₁,h₁,rfl,hr₁⟩
  simp only [List.length_append] at hf
  dsimp only
  refine (parseback_sound hline h₁ (by omega) hr₁).bind ?_
  rintro ⟨cmd₂,ps₂⟩ ⟨n,ts₂,h₂,rfl,hr₂⟩
  have hpeek : (peek ps₂ [';']).1 = true ↔ ts₂.head? = some .semi := h₂.peek_iff hline .semi (by simp)
  have hat : At line (peek ps₂ [';']).2 ts₂ := h₂.peeked
  by_cases hp : (peek ps₂ [';']).1 = true
  · obtain ⟨us,rfl⟩ := List.head?_eq_some_iff.mp (hpeek.mp hp)
    simp only [List.length_append,List.length_cons] at hf
    simp only [hp,if_true]
    refine (ih.onLine _ us (hat.gettoken_cons hline).2.1 (by omega)).bind ?_
    rintro ⟨cmd₃,ps₃⟩ ⟨l,ts₃,h₃,rfl,hr₃⟩
    exact ⟨.seq p n l,ts₃,h₃,by simp [Line.tokens],.list hr₂ hr₃⟩
  · simp only [hp]
    exact ⟨.last p n,ts₂,hat,by simp [Line.tokens],hr₂⟩

theorem parsepipe_sound (hline : NUL ∉ line) (ih : SoundAt line fuel) {ps : Ptr} (h : At line ps ts)
    (hf : 4 * ts.length + 4 ≤ fuel + 1) : (parsepipe (fuel + 1) ps).wp True fun r =>
      ∃ d : Pipe, ∃ ts', At line r.2 ts' ∧ ts = d.tokens ++ ts' ∧ Reads line r.1 d.tree := by
  rw [parsepipe]
  refine (ih.onExec ps ts h (by omega)).bind ?_
  rintro ⟨cmd,ps₁⟩ ⟨e,ts₁,h₁,rfl,hr₁⟩
  have hpeek : (peek ps₁ ['|']).1 = true ↔ ts₁.head? = some .bar := h₁.peek_iff hline .bar (by simp)
  have hat : At line (peek ps₁ ['|']).2 ts₁ := h₁.peeked
  by_cases hp : (peek ps₁ ['|']).1 = true
  · obtain ⟨us,rfl⟩ := List.head?_eq_some_iff.mp (hpeek.mp hp)
    simp only [List.length_append,List.length_cons] at hf
    simp only [hp,if_true]
    refine (ih.onPipe _ us (hat.gettoken_cons hline).2.1 (by omega)).bind ?_
    rintro ⟨cmd₂,ps₂⟩ ⟨p,ts₂,h₂,rfl,hr₂⟩
    exact ⟨.seq e p,ts₂,h₂,by simp [Pipe.tokens],.pipe hr₁ hr₂⟩
  · simp only [hp]
    exact ⟨.last e,ts₁,hat,rfl,hr₁⟩

theorem parseexec_sound (hline : NUL ∉ line) (ih : SoundAt line fuel) {ps : Ptr} (h : At line ps ts)
    (hf : 4 * ts.length + 3 ≤ fuel + 1) : (parseexec (fuel + 1) ps).wp True fun r =>
      ∃ d : Exec, ∃ ts', At line r.2 ts' ∧ ts = d.tokens ++ ts' ∧ Reads line r.1 d.tree := by
  have hat : At line (peek ps ['(']).2 ts := h.peeked
  rw [parseexec]
  dsimp only
  split_ifs with hp
  · exact ih.onBlock _ ts hat (by omega)
  · refine (parseredirs_sound hline hat (by omega) (.exec .nil)).bind ?_
    rintro ⟨ret,ps₁⟩ ⟨rs,ts₁,h₁,rfl,hr₁⟩
    simp only [List.length_append] at hf
    refine (parseargs_sound hline h₁ (by omega) hr₁ (by simp)).imp ?_
    rintro r ⟨args,ts₂,h₂,rfl,hargs,hr₂⟩
    exact ⟨.simple rs args (by simpa using hargs),ts₂,h₂,by simp [Exec.tokens],by simpa [Exec.tree] using hr₂⟩

theorem parseblock_sound (hline : NUL ∉ line) (ih : SoundAt line fuel) {ps : Ptr} (h : At line ps ts)
    (hf : 4 * ts.length + 2 ≤ fuel + 1) : (parseblock (fuel + 1) ps).wp True fun r =>
      ∃ d : Exec, ∃ ts', At line r.2 ts' ∧ ts = d.tokens ++ ts' ∧ Reads line r.1 d.tree := by
  have hpeek : (peek ps ['(']).1 = true ↔ ts.head? = some .lparen := h.peek_iff hline .lparen (by simp)
  have hat : At line (peek ps ['(']).2 ts := h.peeked
  rw [parseblock]
  by_cases hp : (peek ps ['(']).1 = true
  · obtain ⟨us,rfl⟩ := List.head?_eq_some_iff.mp (hpeek.mp hp)
    simp only [List.length_cons] at hf
    simp only [hp,Bool.not_true,Bool.false_eq_true,if_false]
    refine (ih.onLine _ us (hat.gettoken_cons hline).2.1 (by omega)).bind ?_
    rintro ⟨cmd,ps₁⟩ ⟨l,ts₁,h₁,rfl,hr₁⟩
    have hpeek₁ : (peek ps₁ [')']).1 = true ↔ ts₁.head? = some .rparen := h₁.peek_iff hline .rparen (by simp)
    have hat₁ : At line (peek ps₁ [')']).2 ts₁ := h₁.peeked
    by_cases hp₁ : (peek ps₁ [')']).1 = true
    · obtain ⟨us,rfl⟩ := List.head?_eq_some_iff.mp (hpeek₁.mp hp₁)
      simp only [List.length_append,List.length_cons] at hf
      simp only [hp₁,Bool.not_true,Bool.false_eq_true,if_false]
      refine (parseredirs_sound hline (hat₁.gettoken_cons hline).2.1 (by omega) hr₁).imp ?_
      rintro r ⟨rs,ts₂,h₂,rfl,hr₂⟩
      exact ⟨.block l rs,ts₂,h₂,by simp [Exec.tokens],hr₂⟩
    · simp only [hp₁,Bool.not_false,if_true]
      trivial
  · simp only [hp,Bool.not_false,if_true]
    trivial

theorem soundAt (hline : NUL ∉ line) (fuel : ℕ) : SoundAt line fuel := by
  induction fuel with
  | zero => constructor <;> intros <;> omega
  | succ fuel ih =>
    exact ⟨fun _ _ => parseline_sound hline ih,fun _ _ => parsepipe_sound hline ih,fun _ _ => parseexec_sound hline ih,
      fun _ _ => parseblock_sound hline ih⟩

structure CompleteAt (line : Ptr) (fuel : ℕ) : Prop where
  onLine : ∀ (d : Line) rest ps, At line ps (d.tokens ++ rest) → (∀ t ∈ rest.head?, t = .rparen) →
    4 * (d.tokens ++ rest).length + 5 ≤ fuel → (parseline fuel ps).wp False fun r => At line r.2 rest ∧ Reads line r.1 d.tree
  onPipe : ∀ (d : Pipe) rest ps, At line ps (d.tokens ++ rest) → (∀ t ∈ rest.head?, t ∈ [Token.amp,.semi,.rparen]) →
    4 * (d.tokens ++ rest).length + 4 ≤ fuel → (parsepipe fuel ps).wp False fun r => At line r.2 rest ∧ Reads line r.1 d.tree
  onExec : ∀ (d : Exec) rest ps, At line ps (d.tokens ++ rest) → (∀ t ∈ rest.head?, t ∈ stops) →
    4 * (d.tokens ++ rest).length + 3 ≤ fuel → (parseexec fuel ps).wp False fun r => At line r.2 rest ∧ Reads line r.1 d.tree
  onBlock : ∀ l rs rest ps, At line ps ((Exec.block l rs).tokens ++ rest) → (∀ t ∈ rest.head?, t ∈ stops) →
    4 * ((Exec.block l rs).tokens ++ rest).length + 2 ≤ fuel →
    (parseblock fuel ps).wp False fun r => At line r.2 rest ∧ Reads line r.1 (Exec.block l rs).tree

variable {rest : List Token} {ps : Ptr}

theorem head_amps {n : ℕ} {P : Token → Prop} (hamp : P .amp) (hts : ∀ t ∈ ts.head?, P t) :
    ∀ t ∈ (List.replicate n Token.amp ++ ts).head?, P t := by
  cases n with
  | zero => exact hts
  | succ n =>
    rintro t ht
    obtain rfl : Token.amp = t := Option.some.inj ht
    exact hamp

theorem parseline_complete (hline : NUL ∉ line) (ih : CompleteAt line fuel) {d : Line} (h : At line ps (d.tokens ++ rest))
    (hrest : ∀ t ∈ rest.head?, t = .rparen) (hf : 4 * (d.tokens ++ rest).length + 5 ≤ fuel + 1) :
    (parseline (fuel + 1) ps).wp False fun r => At line r.2 rest ∧ Reads line r.1 d.tree := by
  rw [parseline]
  cases d with
  | last p n =>
    have hpar : ∀ t ∈ rest.head?, t ∈ [Token.amp,.semi,.rparen] := fun t ht => by simp [hrest t ht]
    rw [Line.tokens,List.append_assoc] at h hf
    refine (ih.onPipe p _ ps h (head_amps (by simp) hpar) (by omega)).bind ?_
    rintro ⟨cmd,ps₁⟩ ⟨h₁,hr₁⟩
    simp only [List.length_append,List.length_replicate] at hf
    refine (parseback_complete hline h₁ (fun hamp => by cases hrest _ hamp) (by omega) hr₁).bind ?_
    rintro ⟨cmd₂,ps₂⟩ ⟨h₂,hr₂⟩
    have hpeek : (peek ps₂ [';']).1 = true ↔ rest.head? = some .semi := h₂.peek_iff hline .semi (by simp)
    have hp : (peek ps₂ [';']).1 ≠ true := fun hp => by cases hrest _ (hpeek.mp hp)
    have hat : At line (peek ps₂ [';']).2 rest := h₂.peeked
    simp only [hp]
    exact ⟨hat,hr₂⟩
  | seq p n l =>
    rw [Line.tokens,List.append_assoc,List.append_assoc,List.cons_append] at h hf
    have hhead : ∀ t ∈ (List.replicate n Token.amp ++ .semi :: (l.tokens ++ rest)).head?, t ∈ [Token.amp,.semi,.rparen] :=
      head_amps (by simp) (by simp)
    refine (ih.onPipe p _ ps h hhead (by omega)).bind ?_
    rintro ⟨cmd,ps₁⟩ ⟨h₁,hr₁⟩
    simp only [List.length_append,List.length_replicate,List.length_cons] at hf
    refine (parseback_complete hline h₁ (by simp) (by omega) hr₁).bind ?_
    rintro ⟨cmd₂,ps₂⟩ ⟨h₂,hr₂⟩
    have hpeek : (peek ps₂ [';']).1 = true ↔ (Token.semi :: (l.tokens ++ rest)).head? = some .semi :=
      h₂.peek_iff hline .semi (by simp)
    have hat : At line (peek ps₂ [';']).2 (.semi :: (l.tokens ++ rest)) := h₂.peeked
    simp only [hpeek.mpr rfl,if_true]
    refine (ih.onLine l rest _ (hat.gettoken_cons hline).2.1 hrest (by rw [List.length_append]; omega)).bind ?_
    rintro ⟨cmd₃,ps₃⟩ ⟨h₃,hr₃⟩
    exact ⟨h₃,.list hr₂ hr₃⟩

theorem parsepipe_complete (hline : NUL ∉ line) (ih : CompleteAt line fuel) {d : Pipe} (h : At line ps (d.tokens ++ rest))
    (hrest : ∀ t ∈ rest.head?, t ∈ [Token.amp,.semi,.rparen]) (hf : 4 * (d.tokens ++ rest).length + 4 ≤ fuel + 1) :
    (parsepipe (fuel + 1) ps).wp False fun r => At line r.2 rest ∧ Reads line r.1 d.tree := by
  rw [parsepipe]
  cases d with
  | last e =>
    rw [Pipe.tokens] at h hf
    refine (ih.onExec e rest ps h (fun t ht => by have := hrest t ht; simp [stops] at this ⊢; tauto) (by omega)).bind ?_
    rintro ⟨cmd,ps₁⟩ ⟨h₁,hr₁⟩
    have hpeek : (peek ps₁ ['|']).1 = true ↔ rest.head? = some .bar := h₁.peek_iff hline .bar (by simp)
    have hp : (peek ps₁ ['|']).1 ≠ true := fun hp => by simpa using hrest _ (hpeek.mp hp)
    have hat : At line (peek ps₁ ['|']).2 rest := h₁.peeked
    simp only [hp]
    exact ⟨hat,hr₁⟩
  | seq e p =>
    rw [Pipe.tokens,List.append_assoc,List.cons_append] at h hf
    refine (ih.onExec e _ ps h (by simp [stops]) (by omega)).bind ?_
    rintro ⟨cmd,ps₁⟩ ⟨h₁,hr₁⟩
    simp only [List.length_append,List.length_cons] at hf
    have hpeek : (peek ps₁ ['|']).1 = true ↔ (Token.bar :: (p.tokens ++ rest)).head? = some .bar := h₁.peek_iff hline .bar (by simp)
    have hat : At line (peek ps₁ ['|']).2 (.bar :: (p.tokens ++ rest)) := h₁.peeked
    simp only [hpeek.mpr rfl,if_true]
    refine (ih.onPipe p rest _ (hat.gettoken_cons hline).2.1 hrest (by rw [List.length_append]; omega)).bind ?_
    rintro ⟨cmd₂,ps₂⟩ ⟨h₂,hr₂⟩
    exact ⟨h₂,.pipe hr₁ hr₂⟩

theorem head_simple_ne {rs : List Redir} {args : List (List Char × List Redir)} (hrest : ∀ t ∈ rest.head?, t ∈ stops) :
    (redirTokens rs ++ (argTokens args ++ rest)).head? ≠ some .lparen := by
  cases rs with
  | nil =>
    cases args with
    | nil => exact fun h => absurd (hrest _ h) (by decide)
    | cons a args => exact fun h => by cases Option.some.inj h
  | cons r rs =>
    intro h
    have : r.op.token = .lparen := Option.some.inj h
    cases hop : r.op <;> rw [hop] at this <;> cases this

theorem parseexec_complete (hline : NUL ∉ line) (ih : CompleteAt line fuel) {d : Exec} (h : At line ps (d.tokens ++ rest))
    (hrest : ∀ t ∈ rest.head?, t ∈ stops) (hf : 4 * (d.tokens ++ rest).length + 3 ≤ fuel + 1) :
    (parseexec (fuel + 1) ps).wp False fun r => At line r.2 rest ∧ Reads line r.1 d.tree := by
  have hpeek : (peek ps ['(']).1 = true ↔ (d.tokens ++ rest).head? = some .lparen := h.peek_iff hline .lparen (by simp)
  have hat : At line (peek ps ['(']).2 (d.tokens ++ rest) := h.peeked
  rw [parseexec]
  dsimp only
  cases d with
  | block l rs =>
    rw [if_pos (hpeek.mpr (by simp [Exec.tokens]))]
    exact ih.onBlock l rs rest _ hat hrest (by omega)
  | simple rs args hargs =>
    rw [Exec.tokens,List.append_assoc] at hpeek hat hf
    rw [if_neg (fun hp => head_simple_ne hrest (hpeek.mp hp))]
    simp only [List.length_append,length_redirTokens] at hf
    refine (parseredirs_complete hline hat (head_ne_op args hrest) (by omega) (.exec .nil)).bind ?_
    rintro ⟨ret,ps₁⟩ ⟨h₁,hr₁⟩
    refine (parseargs_complete hline h₁ hrest (by omega) hr₁ (by simpa using hargs)).imp ?_
    rintro r ⟨h₂,hr₂⟩
    exact ⟨h₂,by simpa [Exec.tree] using hr₂⟩

theorem parseblock_complete (hline : NUL ∉ line) (ih : CompleteAt line fuel) {l : Line} {rs : List Redir}
    (h : At line ps ((Exec.block l rs).tokens ++ rest)) (hrest : ∀ t ∈ rest.head?, t ∈ stops)
    (hf : 4 * ((Exec.block l rs).tokens ++ rest).length + 2 ≤ fuel + 1) :
    (parseblock (fuel + 1) ps).wp False fun r => At line r.2 rest ∧ Reads line r.1 (Exec.block l rs).tree := by
  have htok : (Exec.block l rs).tokens ++ rest = .lparen :: (l.tokens ++ .rparen :: (redirTokens rs ++ rest)) := by
    simp [Exec.tokens]
  rw [htok] at h hf
  have hpeek : (peek ps ['(']).1 = true ↔ _ := h.peek_iff hline .lparen (by simp)
  have hat : At line (peek ps ['(']).2 _ := h.peeked
  rw [parseblock]
  simp only [hpeek.mpr rfl,Bool.not_true,Bool.false_eq_true,if_false]
  simp only [List.length_cons,List.length_append,length_redirTokens] at hf
  refine (ih.onLine l _ _ (hat.gettoken_cons hline).2.1 (by simp) ?_).bind ?_
  · simp only [List.length_cons,List.length_append,length_redirTokens]
    omega
  rintro ⟨cmd,ps₁⟩ ⟨h₁,hr₁⟩
  have hpeek₁ : (peek ps₁ [')']).1 = true ↔ _ := h₁.peek_iff hline .rparen (by simp)
  have hat₁ : At line (peek ps₁ [')']).2 _ := h₁.peeked
  simp only [hpeek₁.mpr rfl,Bool.not_true,Bool.false_eq_true,if_false]
  exact parseredirs_complete hline (hat₁.gettoken_cons hline).2.1 (head_ne_op [] hrest) (by omega) hr₁

theorem completeAt (hline : NUL ∉ line) (fuel : ℕ) : CompleteAt line fuel := by
  induction fuel with
  | zero => constructor <;> intros <;> omega
  | succ fuel ih =>
    exact ⟨fun _ _ _ => parseline_complete hline ih,fun _ _ _ => parsepipe_complete hline ih,
      fun _ _ _ => parseexec_complete hline ih,
      fun _ _ _ _ => parseblock_complete hline ih⟩

end Rec

/-! ### The strings in the buffer -/

def Cmd.words {α : Type} : Cmd α → List α
  | .exec argv => argv
  | .redir cmd file _ _ => cmd.words ++ [file]
  | .pipe left right => left.words ++ right.words
  | .list left right => left.words ++ right.words
  | .back cmd => cmd.words

def cstring (buf : List Char) (i : ℕ) : List Char := (buf.drop i).takeWhile fun c => c != NUL

def Cmd.read (line : Ptr) (buf : List Char) : Cmd Word → Tree
  | .exec argv => .exec (argv.map fun w => cstring buf (line.length - w.1.length))
  | .redir cmd file mode fd => .redir (cmd.read line buf) (cstring buf (line.length - file.1.length)) mode fd
  | .pipe left right => .pipe (left.read line buf) (right.read line buf)
  | .list left right => .list (left.read line buf) (right.read line buf)
  | .back cmd => .back (cmd.read line buf)

structure Kept (line : Ptr) (buf : List Char) : Prop where
  length : buf.length = line.length + 1
  word : ∀ (i : ℕ) (c : Char), (line)[i]? = some c → wordChar c = true → buf[i]? = some c

section Buffer
variable {line : Ptr} {buf : List Char} {p : Word} {w : List Char} {cmd : Cmd Word}

theorem nulterminate_eq (cmd : Cmd Word) : nulterminate line cmd buf = cmd.words.foldl (fun buf w => nulAt line buf w.2) buf := by
  induction cmd generalizing buf with
  | exec argv => rfl
  | redir cmd file mode fd ih => rw [nulterminate,ih,Cmd.words,List.foldl_append]; rfl
  | pipe left right ihl ihr => rw [nulterminate,ihr,ihl,Cmd.words,List.foldl_append]
  | list left right ihl ihr => rw [nulterminate,ihr,ihl,Cmd.words,List.foldl_append]
  | back cmd ih => exact ih

theorem kept_line (line : Ptr) : Kept line (line ++ [NUL]) := by
  refine ⟨by simp,fun i c hi _ => ?_⟩
  rw [List.getElem?_append_left (List.getElem?_eq_some_iff.mp hi).1,hi]

theorem WordAt.split (h : WordAt line p w) : ∃ l, line = l ++ (w ++ p.2) ∧ line.length - p.1.length = l.length ∧
    line.length - p.2.length = l.length + w.length := by
  obtain ⟨⟨l,hl⟩,hp,-⟩ := h
  refine ⟨l,by rw [← hl,hp],?_,?_⟩
  · rw [← hl]
    simp
  · rw [← hl,hp]
    simp only [List.length_append]
    omega

theorem Kept.nulAt (hk : Kept line buf) (h : WordAt line p w) : Kept line (nulAt line buf p.2) := by
  obtain ⟨l,hl,-,he⟩ := h.split
  refine ⟨by rw [Sh.nulAt,List.length_set,hk.length],fun i c hi hc => ?_⟩
  rw [Sh.nulAt,List.getElem?_set]
  split_ifs with heq hlt
  · rw [← heq,he,hl,← List.append_assoc,List.getElem?_append_right (by simp)] at hi
    have := h.2.2.2.2 c (by simpa [List.head?_eq_getElem?] using hi)
    rw [hc] at this
    cases this
  · rw [hk.length] at hlt
    omega
  · exact hk.word i c hi hc

theorem nulAt_mono {i : ℕ} (h : buf[i]? = some NUL) : (nulAt line buf p.2)[i]? = some NUL := by
  have hi := (List.getElem?_eq_some_iff.mp h).1
  rw [nulAt,List.getElem?_set]
  split_ifs with heq hlt
  · rfl
  · omega
  · exact h

theorem foldl_nulAt {ws : List Word} (hk : Kept line buf) (hws : ∀ p ∈ ws, ∃ w, WordAt line p w) :
    Kept line (ws.foldl (fun buf w => nulAt line buf w.2) buf) ∧
    (∀ i : ℕ, buf[i]? = some NUL → (ws.foldl (fun buf w => nulAt line buf w.2) buf)[i]? = some NUL) ∧
    ∀ p ∈ ws, (ws.foldl (fun buf w => nulAt line buf w.2) buf)[line.length - p.2.length]? = some NUL := by
  induction ws generalizing buf with
  | nil => exact ⟨hk,fun _ h => h,by simp⟩
  | cons p ws ih =>
    obtain ⟨w,hw⟩ := hws p (by simp)
    obtain ⟨h₁,h₂,h₃⟩ := ih (hk.nulAt hw) fun q hq => hws q (List.mem_cons_of_mem _ hq)
    refine ⟨h₁,fun i hi => h₂ i (nulAt_mono hi),List.forall_mem_cons.mpr ⟨h₂ _ ?_,h₃⟩⟩
    rw [nulAt,List.getElem?_set_self]
    rw [hk.length]
    omega

theorem Kept.cstring (hk : Kept line buf) (hline : NUL ∉ line) (h : WordAt line p w)
    (hnul : buf[line.length - p.2.length]? = some NUL) : cstring buf (line.length - p.1.length) = w := by
  obtain ⟨l,hl,hq,he⟩ := h.split
  rw [he] at hnul
  obtain ⟨hlt,hnul⟩ := List.getElem?_eq_some_iff.mp hnul
  have htake : (buf.drop l.length).take w.length = w := by
    apply List.ext_getElem?
    intro j
    rw [List.getElem?_take]
    split_ifs with hj
    · have hin : (line)[l.length + j]? = some w[j] := by
        rw [hl,List.getElem?_append_right (by omega),Nat.add_sub_cancel_left,List.getElem?_append_left hj,
          List.getElem?_eq_getElem hj]
      rw [List.getElem?_drop,hk.word _ _ hin (h.2.2.2.1 _ (List.getElem_mem hj)),List.getElem?_eq_getElem hj]
    · rw [List.getElem?_eq_none (by omega)]
  have hdrop : buf.drop l.length = w ++ NUL :: buf.drop (l.length + w.length + 1) := by
    rw [← List.take_append_drop w.length (buf.drop l.length),htake,List.drop_drop,List.drop_eq_getElem_cons hlt,hnul]
  have hw : ∀ c ∈ w, (c != NUL) = true := fun c hc => by
    rw [bne_iff_ne]
    rintro rfl
    exact hline (by rw [hl]; simp [hc])
  rw [hq,Sh.cstring,hdrop,List.takeWhile_append_of_pos hw,List.takeWhile_cons_of_neg (by simp),List.append_nil]

theorem Reads.exists_wordAt {t : Tree} (h : Reads line cmd t) : ∀ p ∈ cmd.words, ∃ w, WordAt line p w := by
  induction h with
  | exec h =>
    induction h with
    | nil => simp [Cmd.words]
    | cons hw _ ih => exact List.forall_mem_cons.mpr ⟨⟨_,hw⟩,ih⟩
  | redir _ hw ih => exact List.forall_mem_append.mpr ⟨ih,by simpa using ⟨_,hw⟩⟩
  | pipe _ _ ih₁ ih₂ => exact List.forall_mem_append.mpr ⟨ih₁,ih₂⟩
  | list _ _ ih₁ ih₂ => exact List.forall_mem_append.mpr ⟨ih₁,ih₂⟩
  | back _ ih => exact ih

theorem Reads.read {t : Tree} (h : Reads line cmd t)
    (hbuf : ∀ p ∈ cmd.words, ∀ w, WordAt line p w → Sh.cstring buf (line.length - p.1.length) = w) : cmd.read line buf = t := by
  induction h with
  | exec h =>
    refine congrArg Cmd.exec ?_
    induction h with
    | nil => rfl
    | cons hw _ ih =>
      exact congrArg₂ List.cons (hbuf _ (by simp [Cmd.words]) _ hw) (ih fun p hp => hbuf p (List.mem_cons_of_mem _ hp))
  | redir _ hw ih =>
    obtain ⟨h₁,h₂⟩ := List.forall_mem_append.mp hbuf
    rw [Cmd.read,ih h₁,h₂ _ (by simp) _ hw]
  | pipe _ _ ih₁ ih₂ =>
    obtain ⟨h₁,h₂⟩ := List.forall_mem_append.mp hbuf
    rw [Cmd.read,ih₁ h₁,ih₂ h₂]
  | list _ _ ih₁ ih₂ =>
    obtain ⟨h₁,h₂⟩ := List.forall_mem_append.mp hbuf
    rw [Cmd.read,ih₁ h₁,ih₂ h₂]
  | back _ ih => rw [Cmd.read,ih hbuf]

theorem Reads.nulterminate {t : Tree} (hline : NUL ∉ line) (h : Reads line cmd t) :
    cmd.read line (nulterminate line cmd (line ++ [NUL])) = t := by
  obtain ⟨hk,-,hnul⟩ := foldl_nulAt (kept_line line) h.exists_wordAt
  rw [nulterminate_eq]
  exact h.read fun p hp w hw => hk.cstring hline hw (hnul p hp)

end Buffer

theorem parsecmd_done {fuel : ℕ} {line : Ptr} {cmd : Cmd Word} {s : Ptr} (h : parseline fuel line = .done (cmd,s))
    (hs : (peek s []).2 = []) : parsecmd fuel line = .done (cmd,nulterminate line cmd (line ++ [NUL])) := by
  rw [parsecmd,h]
  exact if_neg (not_not.mpr hs)

theorem parsecmd_panic {fuel : ℕ} {line : Ptr} {cmd : Cmd Word} {s : Ptr} (h : parseline fuel line = .done (cmd,s))
    (hs : (peek s []).2 ≠ []) : parsecmd fuel line = .panic "syntax" := by
  rw [parsecmd,h]
  exact if_pos hs

/-- `parsecmd` returns a tree just when the line is derived from the grammar, and the tree is that of
the derivation. -/
theorem parsecmd_grammar (line : Ptr) (hline : NUL ∉ line) : ∃ n, ∀ fuel ≥ n, parsecmd fuel line ≠ .more ∧
    ∀ t, (∃ d : Line, d.tokens = tokens line ∧ d.tree = t) ↔
      ∃ cmd buf, parsecmd fuel line = .done (cmd,buf) ∧ cmd.read line buf = t := by
  refine ⟨4 * (tokens line).length + 5,fun fuel hf => ?_⟩
  have hat : At line line (tokens line) := ⟨List.suffix_refl _,rfl⟩
  have hsound := (soundAt hline fuel).onLine line _ hat hf
  have hcomplete : ∀ d : Line, d.tokens = tokens line → ∃ cmd, Reads line cmd d.tree ∧
      parsecmd fuel line = .done (cmd,nulterminate line cmd (line ++ [NUL])) := fun d hd => by
    have hd' : d.tokens ++ [] = tokens line := by rw [List.append_nil,hd]
    have := (completeAt hline fuel).onLine d [] line (hd'.symm ▸ hat) (by simp) (hd'.symm ▸ hf)
    cases hp : parseline fuel line with
    | done r =>
      rw [hp] at this
      obtain ⟨cmd,s⟩ := r
      exact ⟨cmd,this.2,parsecmd_done hp (this.1.peek_nil hline).2⟩
    | panic msg => rw [hp] at this; exact this.elim
    | more => rw [hp] at this; exact this.elim
  cases hp : parseline fuel line with
  | more => rw [hp] at hsound; exact hsound.elim
  | panic msg =>
    have hpanic : parsecmd fuel line = .panic msg := by rw [parsecmd,hp]; rfl
    rw [hpanic] at hcomplete ⊢
    refine ⟨by simp,fun t => ⟨?_,?_⟩⟩
    · rintro ⟨d,hd,-⟩
      obtain ⟨cmd,-,h⟩ := hcomplete d hd
      cases h
    · rintro ⟨cmd,buf,h,-⟩
      cases h
  | done r =>
    obtain ⟨cmd,s⟩ := r
    rw [hp] at hsound
    obtain ⟨d,ts,hs,hd,hr⟩ := hsound
    refine ⟨?_,fun t => ⟨?_,?_⟩⟩
    · by_cases h : (peek s []).2 = []
      · rw [parsecmd_done hp h]
        simp
      · rw [parsecmd_panic hp h]
        simp
    · rintro ⟨d,hd,rfl⟩
      obtain ⟨cmd,hr,h⟩ := hcomplete d hd
      exact ⟨cmd,_,h,hr.nulterminate hline⟩
    · rintro ⟨cmd',buf,h,rfl⟩
      by_cases hnil : (peek s []).2 = []
      · rw [parsecmd_done hp hnil] at h
        obtain ⟨rfl,rfl⟩ := Prod.mk.inj (Res.done.inj h)
        have hts : ts = [] := by
          have hpeek : At line (peek s []).2 ts := hs.peeked
          rw [hnil] at hpeek
          rw [← hpeek.2,tokens]
        rw [hts,List.append_nil] at hd
        exact ⟨d,hd.symm,(hr.nulterminate hline).symm⟩
      · rw [parsecmd_panic hp hnil] at h
        cases h

/-- `(a>b)&` -/
theorem parsecmd_grammar_block : NUL ∉ ['(','a','>','b',')','&'] ∧ ∃ n, ∀ fuel ≥ n,
    parsecmd fuel ['(','a','>','b',')','&'] ≠ .more ∧
    ∀ t, (∃ d : Line, d.tokens = tokens ['(','a','>','b',')','&'] ∧ d.tree = t) ↔
      ∃ cmd buf, parsecmd fuel ['(','a','>','b',')','&'] = .done (cmd,buf) ∧ cmd.read ['(','a','>','b',')','&'] buf = t :=
  ⟨by decide,parsecmd_grammar _ (by decide)⟩

end Xv6.Sh
