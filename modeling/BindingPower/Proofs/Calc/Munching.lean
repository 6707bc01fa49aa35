import BindingPower.Proofs.Calc.Chaining
import BindingPower.Proofs.Calc.Forms

/-! # Maximal munch

The text that tokens were read from, put together again: their words in order, every group opened
out into its parentheses, with gaps in between. Each word is the longest one at its place. -/
namespace BindingPower.Calc

/-- Blanks and comments. A comment lasts to the next newline or to the end of the text. -/
inductive Gap (rest : List Char) : List Char → Prop where
  | nil : Gap rest []
  | blank {c : Char} {gap : List Char} (hc : Text.isBlank c = true) (h : Gap rest gap) :
    Gap rest (c :: gap)
  | comment {body gap : List Char} (hb : '\n' ∉ body) (he : ∀ c ∈ (gap ++ rest).head?, c = '\n')
    (h : Gap rest gap) : Gap rest ('/' :: '/' :: body ++ gap)

/-- No blank and no comment comes first. -/
def Solid (text : List Char) : Prop :=
  (∀ c ∈ text.head?, Text.isBlank c = false) ∧ ¬['/', '/'] <+: text

/-- The word is one at the front of the text, and none of any kind is longer there. -/
structure Longest (kind : Kind) (word text : List Char) : Prop where
  front : word <+: text
  formed : Word.Formed (kind, String.ofList word)
  longest : ∀ k v, v <+: text → Word.Formed (k, String.ofList v) → v.length ≤ word.length

/-- No word of any kind stands at the front of the text. -/
def Wordless (text : List Char) : Prop :=
  ∀ kind word, word <+: text → ¬Word.Formed (kind, String.ofList word)

/-- Behind the part `before`, the text consists of these lexemes and of gaps around them, up to its
end or to a character that no word starts with. -/
inductive Scans : (before text : List Char) → List Lexeme → Ending → Prop where
  | finished {before gap : List Char} (h : Gap [] gap) :
    Scans before gap [] (.finished (Position.start.advance (before ++ gap)))
  | invalid {before gap rest : List Char} {c : Char} (hg : Gap (c :: rest) gap)
    (hs : Solid (c :: rest)) (hw : Wordless (c :: rest)) :
    Scans before (gap ++ c :: rest) [] (.invalid c (Position.start.advance (before ++ gap)))
  | lexeme {before gap word rest : List Char} {kind : Kind} {ls : List Lexeme} {ending : Ending}
    (hg : Gap (word ++ rest) gap) (hs : Solid (word ++ rest))
    (hl : Longest kind word (word ++ rest)) (h : Scans (before ++ gap ++ word) rest ls ending) :
    Scans before (gap ++ (word ++ rest))
      (⟨kind, String.ofList word, Position.start.advance (before ++ gap)⟩ :: ls) ending

/-- What tokens come to when their groups are opened out: single words, the first parenthesis of a
group among them with the location of the group, and the parentheses that close groups. -/
inductive Piece where
  | word (kind : Kind) (text : String) (location : Option Location)
  | closing

mutual
def Token.pieces : Token → List Piece
  | .mk kind text children location =>
    if kind = .group then .word .punct "(" location :: (Token.allPieces children ++ [.closing])
    else [.word kind text location]
def Token.allPieces : List Token → List Piece
  | [] => []
  | t :: ts => t.pieces ++ Token.allPieces ts
end

/-- The piece is the word that stands behind this part of the text, and located there. -/
def Piece.Stands (file : String) (before : List Char) (kind : Kind) (word : List Char) :
    Piece → Prop
  | .word k text location => k = kind ∧ text = String.ofList word ∧
      ∃ place, location = some place ∧ place = (Position.start.advance before).within file ∧
        place.offset = before.length
  | .closing => kind = .punct ∧ word = [')']

/-- Behind the part `before`, the text consists of the pieces and of gaps around them. -/
inductive Laid (file : String) : (before : List Char) → List Piece → (text : List Char) → Prop where
  | nil {before gap : List Char} (h : Gap [] gap) : Laid file before [] gap
  | cons {before gap word rest : List Char} {kind : Kind} {piece : Piece} {more : List Piece}
    (hg : Gap (word ++ rest) gap) (hs : Solid (word ++ rest))
    (hl : Longest kind word (word ++ rest)) (hp : piece.Stands file (before ++ gap) kind word)
    (h : Laid file (before ++ gap ++ word) more rest) :
    Laid file before (piece :: more) (gap ++ (word ++ rest))

/-! ## Gaps -/

/-- What is skipped between two words, or from inside of a comment. -/
def Skipped (rest : List Char) : (inComment : Bool) → List Char → Prop
  | false, skipped => Gap rest skipped
  | true, skipped => ∃ body gap, skipped = body ++ gap ∧ '\n' ∉ body ∧
      (∀ c ∈ (gap ++ rest).head?, c = '\n') ∧ Gap rest gap

variable {rest skipped : List Char} {c : Char}

/-- A newline ends a comment and is the first blank behind it. -/
theorem Skipped.newline (h : Skipped rest false skipped) : Skipped rest true ('\n' :: skipped) :=
  ⟨[], '\n' :: skipped, rfl, by simp, by simp, .blank (by decide) h⟩

theorem Skipped.commented (h : Skipped rest true skipped) (hc : c ≠ '\n') :
    Skipped rest true (c :: skipped) := by
  obtain ⟨body, gap, rfl, hbody, hend, hgap⟩ := h
  exact ⟨c :: body, gap, rfl, by simp [hbody, hc.symm], hend, hgap⟩

/-- A comment is entered with its first slash. -/
theorem Skipped.slash (h : Skipped rest true skipped) (hs : (skipped ++ rest).head? = some '/') :
    Skipped rest false ('/' :: skipped) := by
  obtain ⟨body, gap, rfl, hbody, hend, hgap⟩ := h
  cases body with
  | nil =>
    have hslash := hend '/' hs
    exact absurd hslash (by decide)
  | cons d body =>
    have hd : d = '/' := by simpa using hs
    subst hd
    refine .comment (fun hmem => hbody ?_) hend hgap
    exact List.mem_cons_of_mem _ hmem

theorem skipGap_skipped (inComment : Bool) (p : Position) (cs : List Char) :
    ∃ skipped, cs = skipped ++ (skipGap inComment p cs).2 ∧
      (skipGap inComment p cs).1 = p.advance skipped ∧
      Skipped (skipGap inComment p cs).2 inComment skipped ∧ Solid (skipGap inComment p cs).2 := by
  fun_induction skipGap inComment p cs with
  | case1 inComment p =>
    have hsolid : Solid [] := ⟨by simp, by simp⟩
    cases inComment with
    | false => exact ⟨[], rfl, rfl, .nil, hsolid⟩
    | true => exact ⟨[], rfl, rfl, ⟨[], [], rfl, by simp, by simp, .nil⟩, hsolid⟩
  | case2 p c cs ih =>
    obtain ⟨skipped, hcs, hp, hskip, hsolid⟩ := ih
    refine ⟨c :: skipped, congrArg (c :: ·) hcs, hp, ?_, hsolid⟩
    by_cases hc : c = '\n'
    · subst hc
      exact .newline hskip
    · simp only [ne_eq, hc, not_false_eq_true, decide_true] at hskip ⊢
      exact hskip.commented hc
  | case3 p c cs hblank ih =>
    obtain ⟨skipped, hcs, hp, hskip, hsolid⟩ := ih
    exact ⟨c :: skipped, congrArg (c :: ·) hcs, hp, .blank hblank hskip, hsolid⟩
  | case4 p c cs hblank hcomment ih =>
    obtain ⟨skipped, hcs, hp, hskip, hsolid⟩ := ih
    obtain ⟨rfl, hhead⟩ := hcomment
    refine ⟨'/' :: skipped, congrArg ('/' :: ·) hcs, hp, hskip.slash ?_, hsolid⟩
    rw [← hcs]
    exact hhead
  | case5 p c cs hblank hcomment =>
    refine ⟨[], rfl, rfl, .nil, ?_, ?_⟩
    · simpa using hblank
    · intro hfront
      obtain ⟨rest, hrest⟩ := hfront
      cases hrest
      exact hcomment ⟨rfl, rfl⟩

/-! ## Words -/

theorem prefix_takeWhile {p : Char → Bool} {v cs : List Char} (h : v <+: cs)
    (hv : v.all p = true) : v.length ≤ (cs.takeWhile p).length := by
  obtain ⟨more, rfl⟩ := h
  rw [List.takeWhile_append_of_pos fun a ha => List.all_eq_true.mp hv a ha, List.length_append]
  exact Nat.le_add_right _ _

theorem punctuation_front : ∀ m ∈ punctuation,
    m.toList.head?.any (fun c => !c.isDigit && !isNameStart c) = true := by
  decide

/-- A mark stands behind those that start with it. -/
theorem punctuation_ordered : punctuation.Pairwise fun m n => ¬m.toList <+: n.toList := by
  decide

theorem isName_of_mem_keywords : ∀ s ∈ keywords, isName s = true := by
  decide

/-- The first character of a word tells which characters it goes on with. -/
theorem Word.Formed.front {kind : Kind} {word : List Char}
    (h : Word.Formed (kind, String.ofList word)) :
    ∃ c cs, word = c :: cs ∧
      (c.isDigit = true ∧ cs.all isFigure = true ∨
        isNameStart c = true ∧ cs.all isNameCharacter = true ∨
        c.isDigit = false ∧ isNameStart c = false ∧ String.ofList word ∈ punctuation) := by
  have name (hn : isName (String.ofList word) = true) :
      ∃ c cs, word = c :: cs ∧ isNameStart c = true ∧ cs.all isNameCharacter = true := by
    rw [isName, String.toList_ofList] at hn
    cases word with
    | nil => simp at hn
    | cons c cs => exact ⟨c, cs, rfl, Bool.and_eq_true_iff.mp hn⟩
  cases kind with
  | group => exact h.elim
  | literal =>
    have hn : isNumeral (String.ofList word) = true := h
    rw [isNumeral, String.toList_ofList] at hn
    cases word with
    | nil => simp at hn
    | cons c cs => exact ⟨c, cs, rfl, .inl (Bool.and_eq_true_iff.mp hn)⟩
  | ident =>
    obtain ⟨c, cs, hw, hc⟩ := name h.1
    exact ⟨c, cs, hw, .inr (.inl hc)⟩
  | keyword =>
    obtain ⟨c, cs, hw, hc⟩ := name (isName_of_mem_keywords _ h)
    exact ⟨c, cs, hw, .inr (.inl hc)⟩
  | punct =>
    have hm : String.ofList word ∈ punctuation := h
    have hfront := punctuation_front _ hm
    rw [String.toList_ofList] at hfront
    cases word with
    | nil => simp at hfront
    | cons c cs =>
      simp only [List.head?_cons, Option.any_some, Bool.and_eq_true, Bool.not_eq_true'] at hfront
      exact ⟨c, cs, rfl, .inr (.inr ⟨hfront.1, hfront.2, hm⟩)⟩

/-- Of the marks at the front of a text, the one that is found first is the longest. -/
theorem find_punctuation_longest {cs : List Char} {m n : String}
    (hm : (punctuation.find? fun m => m.toList.isPrefixOf cs) = some m) (hn : n ∈ punctuation)
    (hfront : n.toList <+: cs) : n.toList.length ≤ m.toList.length := by
  obtain ⟨hhere, before, behind, heq, hnone⟩ := List.find?_eq_some_iff_append.mp hm
  have hm' : m.toList <+: cs := List.isPrefixOf_iff_prefix.mp hhere
  have hordered := punctuation_ordered
  rw [heq] at hn hordered
  rcases List.mem_append.mp hn with hn | hn
  · have hmissed := hnone n hn
    rw [List.isPrefixOf_iff_prefix.mpr hfront] at hmissed
    exact absurd hmissed (by decide)
  · rcases List.mem_cons.mp hn with rfl | hn
    · exact Nat.le_refl _
    · have hlater := (List.pairwise_cons.mp (List.pairwise_append.mp hordered).2.1).1 n hn
      rcases List.prefix_or_prefix_of_prefix hm' hfront with h | h
      · exact absurd h hlater
      · exact h.length_le

theorem lexemeAt?_longest {cs word : List Char} {kind : Kind}
    (h : lexemeAt? cs = some (kind, word)) : Longest kind word cs where
  front := (lexemeAt?_front h).1
  formed := lexemeAt?_formed h
  longest k v hv hf := by
    obtain ⟨d, ds, rfl, hshape⟩ := hf.front
    obtain ⟨c, cs, rfl⟩ : ∃ c r, cs = c :: r := by
      cases cs with
      | nil => cases h
      | cons c r => exact ⟨c, r, rfl⟩
    obtain ⟨rfl, hds⟩ := List.cons_prefix_cons.mp hv
    simp only [lexemeAt?] at h
    rcases hshape with ⟨hdigit, hall⟩ | ⟨hstart, hall⟩ | ⟨hdigit, hstart, hmark⟩
    · rw [if_pos hdigit] at h
      cases h
      exact Nat.succ_le_succ (prefix_takeWhile hds hall)
    · rw [isDigit_of_isNameStart hstart, if_neg Bool.false_ne_true, if_pos hstart] at h
      cases h
      exact Nat.succ_le_succ (prefix_takeWhile hds hall)
    · rw [hdigit, hstart, if_neg Bool.false_ne_true, if_neg Bool.false_ne_true] at h
      obtain ⟨m, hm, heq⟩ := Option.map_eq_some_iff.mp h
      cases heq
      have hlongest := find_punctuation_longest hm hmark (by rwa [String.toList_ofList])
      rwa [String.toList_ofList] at hlongest

theorem wordless_of_lexemeAt? {cs : List Char} (h : lexemeAt? cs = none) : Wordless cs := by
  intro kind word hfront hf
  obtain ⟨c, ds, rfl, hshape⟩ := hf.front
  obtain ⟨rest, rfl⟩ := hfront
  simp only [lexemeAt?, List.cons_append] at h
  rcases hshape with ⟨hdigit, -⟩ | ⟨hstart, -⟩ | ⟨hdigit, hstart, hmark⟩
  · rw [if_pos hdigit] at h
    cases h
  · rw [isDigit_of_isNameStart hstart, if_neg Bool.false_ne_true, if_pos hstart] at h
    cases h
  · rw [hdigit, hstart, if_neg Bool.false_ne_true, if_neg Bool.false_ne_true] at h
    have hnone := List.find?_eq_none.mp (Option.map_eq_none_iff.mp h) _ hmark
    have hfront : (c :: ds).isPrefixOf (c :: (ds ++ rest)) = true :=
      List.isPrefixOf_iff_prefix.mpr (List.prefix_append (c :: ds) rest)
    rw [String.toList_ofList] at hnone
    exact hnone hfront

/-! ## Texts -/

/-- With fuel for every character, a text is read as its lexemes. -/
theorem scanUpTo_scans {fuel : Nat} {before cs : List Char} (hfuel : cs.length < fuel) :
    Scans before cs (scanUpTo fuel (Position.start.advance before) cs).1
      (scanUpTo fuel (Position.start.advance before) cs).2 := by
  induction fuel generalizing before cs with
  | zero => omega
  | succ fuel ih =>
    obtain ⟨gap, hcs, hp, hgap, hsolid⟩ := skipGap_skipped false (Position.start.advance before) cs
    rw [scanUpTo]
    generalize skipGap false (Position.start.advance before) cs = x at hcs hp hgap hsolid ⊢
    obtain ⟨here, text⟩ := x
    dsimp only at hcs hp hgap hsolid
    rw [← Position.advance_append] at hp
    subst hcs hp
    cases text with
    | nil =>
      rw [List.append_nil]
      exact .finished hgap
    | cons c text =>
      dsimp only
      cases hword : lexemeAt? (c :: text) with
      | none => exact .invalid hgap hsolid (wordless_of_lexemeAt? hword)
      | some found =>
        obtain ⟨kind, word⟩ := found
        have hlongest := lexemeAt?_longest hword
        obtain ⟨rest, hrest⟩ := hlongest.front
        obtain ⟨d, ds, hne, -⟩ := hlongest.formed.front
        rw [← hrest] at hgap hsolid hlongest hfuel ⊢
        have hshorter : rest.length < fuel := by
          simp only [hne, List.length_append, List.length_cons] at hfuel
          omega
        have hmore : Scans (before ++ gap ++ word) rest _ _ := ih hshorter
        dsimp only
        rw [List.drop_left, ← Position.advance_append]
        exact .lexeme hgap hsolid hlongest hmore

/-- A lexeme as a piece of the text. -/
def Lexeme.piece (file : String) (l : Lexeme) : Piece :=
  if l.kind = .punct ∧ l.text = ")" then .closing else .word l.kind l.text (some (l.location file))

theorem Lexeme.piece_stands (file : String) (before : List Char) (kind : Kind) (word : List Char) :
    (Lexeme.piece file ⟨kind, String.ofList word, Position.start.advance before⟩).Stands file before
      kind word := by
  unfold Lexeme.piece
  split
  · rename_i hclosing
    obtain ⟨hkind, htext⟩ := hclosing
    have hword := congrArg String.toList htext
    rw [String.toList_ofList] at hword
    exact ⟨hkind, hword⟩
  · refine ⟨rfl, rfl, _, rfl, rfl, ?_⟩
    change ((Position.start.advance before).offset : Int) = before.length
    rw [Position.advance_offset]
    exact congrArg Int.ofNat (Nat.zero_add _)

/-- A text that is scanned to its end is laid out in its lexemes. -/
theorem Scans.laid {before text : List Char} {ls : List Lexeme} {ending : Ending} (file : String)
    (h : Scans before text ls ending) {q : Position} (hq : ending = .finished q) :
    Laid file before (ls.map (Lexeme.piece file)) text := by
  induction h with
  | finished hg => exact .nil hg
  | invalid hg hs hw => cases hq
  | lexeme hg hs hl h ih => exact .cons hg hs hl (Lexeme.piece_stands file _ _ _) (ih hq)

theorem scanUpTo_laid (file : String) {fuel : Nat} {before cs : List Char} {ls : List Lexeme}
    {q : Position} (hfuel : cs.length < fuel)
    (h : scanUpTo fuel (Position.start.advance before) cs = (ls, .finished q)) :
    Laid file before (ls.map (Lexeme.piece file)) cs := by
  have hscans : Scans before cs _ _ := scanUpTo_scans hfuel
  rw [h] at hscans
  exact hscans.laid file rfl

theorem allPieces_append (ts us : List Token) :
    Token.allPieces (ts ++ us) = Token.allPieces ts ++ Token.allPieces us := by
  induction ts with
  | nil => rfl
  | cons t ts ih => simp only [List.cons_append, Token.allPieces, ih, List.append_assoc]

/-- The pieces read so far: what stands before every group that is still open, with the parenthesis
that has opened it. The innermost group comes first in the list. -/
def openedPieces : List (Location × List Token) → List Piece
  | [] => []
  | (opening, read) :: outer =>
    openedPieces outer ++ Token.allPieces read.reverse ++ [.word .punct "(" (some opening)]

theorem pieces_groupToken (opening : Location) (ts : List Token) :
    (groupToken opening ts).pieces =
      .word .punct "(" (some opening) :: (Token.allPieces ts ++ [.closing]) := by
  rw [groupToken, Token.pieces, if_pos rfl]

theorem Lexeme.pieces_token {l : Lexeme} (file : String) (hk : l.kind ≠ .group)
    (hc : ¬(l.kind = .punct ∧ l.text = ")")) : (l.token file).pieces = [l.piece file] := by
  rw [Lexeme.token, Token.pieces, if_neg hk, Lexeme.piece, if_neg hc]

/-- No lexeme is lost while token trees are built: opened out, they are the lexemes in order. -/
theorem build_pieces {file : String} {ending : Ending} {ls : List Lexeme}
    {opened : List (Location × List Token)} {read ts : List Token} {p : Position}
    (hl : ∀ l ∈ ls, l.kind ≠ .group) (h : build file ending ls opened read = (.ok ts, p)) :
    Token.allPieces ts =
        openedPieces opened ++ Token.allPieces read.reverse ++ ls.map (Lexeme.piece file) ∧
      ∃ q, ending = .finished q := by
  induction ls generalizing opened read with
  | nil =>
    cases ending with
    | invalid c q => cases h
    | finished q =>
      cases opened with
      | cons o rest => cases h
      | nil =>
        cases h
        exact ⟨by simp [openedPieces], _, rfl⟩
  | cons l more ih =>
    have hkind := hl l List.mem_cons_self
    have hrest : ∀ l ∈ more, l.kind ≠ .group := fun l hm => hl l (List.mem_cons_of_mem _ hm)
    rw [List.map_cons]
    unfold build at h
    split at h
    · -- the parenthesis and the tokens before it are kept with the open group
      rename_i hopening
      have hpiece : l.piece file = .word .punct "(" (some (l.location file)) := by
        rw [Lexeme.piece, if_neg fun hc => absurd (hopening.2.symm.trans hc.2) (by decide),
          hopening.1, hopening.2]
      obtain ⟨hall, hends⟩ := ih hrest h
      refine ⟨?_, hends⟩
      rw [hall, hpiece]
      simp [openedPieces, Token.allPieces]
    · split at h
      · rename_i hclosing
        have hpiece : l.piece file = .closing := if_pos hclosing
        cases opened with
        | nil => cases h
        | cons o outer =>
          obtain ⟨hall, hends⟩ := ih hrest h
          refine ⟨?_, hends⟩
          rw [hall, hpiece, List.reverse_cons, allPieces_append]
          simp [openedPieces, Token.allPieces, pieces_groupToken]
      · rename_i hclosing
        obtain ⟨hall, hends⟩ := ih hrest h
        refine ⟨?_, hends⟩
        rw [hall, List.reverse_cons, allPieces_append]
        simp [Token.allPieces, l.pieces_token file hkind hclosing]

/-- A text that is split into tokens consists of their words and of gaps, in order, and each word is
the longest one at its place. -/
theorem tokenize_laid {source file : String} {ts : List Token} (h : tokenize source file = .ok ts) :
    Laid file [] (Token.allPieces ts) source.toList := by
  have hbuild : build file (scan source.toList).2 (scan source.toList).1 [] [] =
      (.ok ts, (tokenizeTo source file).2) := Prod.ext h rfl
  have hkinds : ∀ l ∈ (scan source.toList).1, l.kind ≠ .group :=
    fun l hl => (scanUpTo_texts _ _ _ l hl).1
  obtain ⟨hall, q, hends⟩ := build_pieces hkinds hbuild
  rw [hall]
  exact scanUpTo_laid file (Nat.lt_succ_self _) (Prod.ext rfl hends)

/-- Two lines with a comment behind the first, a group and a mark of two characters. -/
def commented : String := "1_0 // ten\n||(mod)"

theorem tokenize_laid_commented :
    Laid "here" []
      [.word .literal "1_0" (some ⟨"here", 1, 1, 0⟩), .word .punct "||" (some ⟨"here", 2, 1, 11⟩),
        .word .punct "(" (some ⟨"here", 2, 3, 13⟩), .word .keyword "mod" (some ⟨"here", 2, 4, 14⟩),
        .closing]
      commented.toList := by
  have read : tokenize commented "here" = .ok
      [.mk .literal "1_0" [] (some ⟨"here", 1, 1, 0⟩), .mk .punct "||" [] (some ⟨"here", 2, 1, 11⟩),
        .mk .group "()" [.mk .keyword "mod" [] (some ⟨"here", 2, 4, 14⟩)]
          (some ⟨"here", 2, 3, 13⟩)] := by
    rfl
  have laid := tokenize_laid read
  exact laid

end BindingPower.Calc
