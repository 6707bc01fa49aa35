import BindingPower.Proofs.Calc.Munching
import BindingPower.Proofs.Calc.Spelling
import BindingPower.Proofs.Calc.Surface

/-! # Token trees as text

Tokens written with single blanks between them are read as the same tokens. A blank or a
parenthesis keeps each word apart from the next, and every group is read back from its own pair of
parentheses, an empty one too. -/
namespace BindingPower.Calc

namespace Token

/-- The tokens as source text, with single blanks between them. -/
def joined (ts : List Token) : String := " ".intercalate (sources ts)

mutual
/-- The words that the source text of a token is made of. -/
def words : Token → List Word
  | mk kind text children _ =>
    if kind = .group then Expr.enclosed (allWords children) else [(kind, text)]
def allWords : List Token → List Word
  | [] => []
  | t :: ts => t.words ++ allWords ts
end

/-- The source text of the token is read as its words, wherever a word may end behind it. -/
def Relexes (t : Token) : Prop :=
  ∀ rest, Bounded rest → Lexes (t.source.toList ++ rest) t.words rest

/-- Whatever lexemes have the words of the token are folded into the same token. -/
def Refolds (file : String) (t : Token) : Prop :=
  ∀ ls, ls.map Lexeme.word = t.words → ∃ u, Folds file ls [u] ∧ same u t = true

end Token

variable {file : String} {t u : Token} {ts us : List Token} {rest : List Char}

/-! ## Reading -/

theorem lexes_nothing (rest : List Char) : Lexes rest [] rest := fun fuel p hfuel =>
  ⟨[], p, fuel, rfl, hfuel, rfl⟩

theorem lexes_joined (h : ∀ t ∈ ts, t.Relexes) (hrest : Bounded rest) :
    Lexes ((Token.joined ts).toList ++ rest) (Token.allWords ts) rest := by
  induction ts generalizing rest with
  | nil => exact lexes_nothing rest
  | cons t ts ih =>
    rw [List.forall_mem_cons] at h
    cases ts with
    | nil =>
      rw [Token.joined, Token.sources, Token.sources, String.intercalate_singleton, Token.allWords,
        Token.allWords, List.append_nil]
      exact h.1 rest hrest
    | cons u us =>
      have htext : (Token.joined (t :: u :: us)).toList ++ rest =
          t.source.toList ++ ' ' :: ((Token.joined (u :: us)).toList ++ rest) := by
        simp [Token.joined, Token.sources]
      rw [htext, Token.allWords]
      exact lexes_behind h.1 (ih h.2 hrest)

/-- Parentheses do not take part in this: they are the words of groups. -/
theorem lexes_formed {k : Kind} {s : String} (h : Word.Formed (k, s))
    (hp : k = .punct → s ≠ "(" ∧ s ≠ ")") (hrest : Bounded rest) :
    Lexes (s.toList ++ rest) [(k, s)] rest := by
  cases k with
  | group => exact h.elim
  | literal => exact lexes_numeral h hrest
  | ident =>
    have hname := lexes_name h.1 hrest
    rwa [nameKind, if_neg h.2] at hname
  | keyword => exact lexes_keyword (isName_of_mem_keywords s h) h hrest
  | punct =>
    have hmark : s ∈ punctuation := h
    obtain ⟨hopening, hclosing⟩ := hp rfl
    refine lexes_mark ?_ hrest
    simpa [punctuation, hopening, hclosing] using hmark

theorem Token.WellFormed.relexes (h : t.WellFormed) : t.Relexes := by
  induction h with
  | @single k s l hw hp =>
    have hk : k ≠ .group := by
      rintro rfl
      exact hw
    intro rest hrest
    rw [Token.source, if_neg hk, Token.words, if_neg hk]
    exact lexes_formed hw hp hrest
  | @group ts l h ih =>
    intro rest hrest
    have htext : (Token.mk .group "()" ts l).source.toList ++ rest =
        '(' :: ((Token.joined ts).toList ++ ')' :: rest) := by
      simp [Token.source, Token.joined]
    rw [htext, Token.words, if_pos rfl]
    exact lexes_enclosed (lexes_joined ih bounded_closing)

/-! ## Folding -/

theorem refolds_all (h : ∀ t ∈ ts, t.Refolds file) {ls : List Lexeme}
    (hls : ls.map Lexeme.word = Token.allWords ts) :
    ∃ us, Folds file ls us ∧ Token.sameAll us ts = true := by
  induction ts generalizing ls with
  | nil =>
    rw [Token.allWords, List.map_eq_nil_iff] at hls
    subst hls
    exact ⟨[], fun _ _ _ _ => rfl, by rw [Token.sameAll]⟩
  | cons t ts ih =>
    rw [List.forall_mem_cons] at h
    rw [Token.allWords] at hls
    obtain ⟨ks, ms, rfl, hks, hms⟩ := List.map_eq_append_iff.mp hls
    obtain ⟨u, hu, hsame⟩ := h.1 ks hks
    obtain ⟨us, hus, hall⟩ := ih h.2 hms
    exact ⟨u :: us, hu.append hus, by rw [Token.sameAll, hsame, hall, Bool.and_self]⟩

theorem Token.WellFormed.refolds (file : String) (h : t.WellFormed) : t.Refolds file := by
  induction h with
  | @single k s l hw hp =>
    have hk : k ≠ .group := by
      rintro rfl
      exact hw
    intro ls hls
    rw [Token.words, if_neg hk] at hls
    obtain ⟨m, rfl, hm⟩ := List.map_eq_singleton_iff.mp hls
    have hne : ((k, s) : Word) ≠ (.punct, "(") ∧ ((k, s) : Word) ≠ (.punct, ")") := by
      constructor
      · rintro heq
        cases heq
        exact (hp rfl).1 rfl
      · rintro heq
        cases heq
        exact (hp rfl).2 rfl
    have hfold : Folds file [m] [m.token file] := folds_of_word hm hne
    obtain ⟨rfl, rfl⟩ := Lexeme.word_eq_iff.mp hm
    exact ⟨m.token file, hfold, by simp [Lexeme.token, Token.same, Token.sameAll]⟩
  | @group ts l h ih =>
    intro ls hls
    rw [Token.words, if_pos rfl] at hls
    obtain ⟨o, ms, c, rfl, ho, hms, hc⟩ := parts_of_enclosed hls
    obtain ⟨us, hus, hall⟩ := refolds_all ih hms
    refine ⟨groupToken (o.location file) us, folds_enclosed ho hc hus, ?_⟩
    simp [groupToken, Token.same, hall]

/-- Well-formed tokens are read back from their source text. -/
theorem tokenize_joined_same (file : String) (h : ∀ t ∈ ts, t.WellFormed) :
    ∃ us, tokenize (Token.joined ts) file = .ok us ∧ Token.sameAll us ts = true := by
  have hlex := lexes_joined (fun t ht => (h t ht).relexes) bounded_nil
  rw [List.append_nil] at hlex
  obtain ⟨ls, q, hls, hscan⟩ := scan_of_lexes hlex
  obtain ⟨us, hus, hsame⟩ := refolds_all (fun t ht => (h t ht).refolds file) hls
  exact ⟨us, hus.tokenize hscan, hsame⟩

mutual
theorem Token.source_of_same : ∀ t u : Token, Token.same t u = true → t.source = u.source
  | .mk k s ts l, .mk k' s' us l', h => by
    simp only [Token.same, Bool.and_eq_true, decide_eq_true_eq] at h
    obtain ⟨⟨rfl, rfl⟩, hall⟩ := h
    rw [Token.source, Token.source, Token.sources_of_sameAll ts us hall]
theorem Token.sources_of_sameAll :
    ∀ ts us : List Token, Token.sameAll ts us = true → Token.sources ts = Token.sources us
  | [], [], _ => rfl
  | [], _ :: _, h => by simp [Token.sameAll] at h
  | _ :: _, [], h => by simp [Token.sameAll] at h
  | t :: ts, u :: us, h => by
    simp only [Token.sameAll, Bool.and_eq_true] at h
    rw [Token.sources, Token.sources, Token.source_of_same t u h.1,
      Token.sources_of_sameAll ts us h.2]
end

/-- No single token is a parenthesis. -/
theorem Token.WellFormed.not_parenthesis (h : t.WellFormed) (hk : t.kind = .punct) :
    t.lexeme ≠ "(" ∧ t.lexeme ≠ ")" := by
  cases h with
  | single hw hp => exact hp hk
  | group h => cases hk

/-- The tokens of a text are well formed at every depth, none of them a parenthesis, and well-formed
tokens written with blanks between them are read as the same tokens. So the text that the tokens of
a text make stands for the same tokens, and is the text that those make. -/
theorem tokenize_joined (file : String) :
    (∀ source ts, tokenize source file = .ok ts → ∀ t, Occurs ts t →
      t.WellFormed ∧ (t.kind = .punct → t.lexeme ≠ "(" ∧ t.lexeme ≠ ")")) ∧
    (∀ ts : List Token, (∀ t ∈ ts, t.WellFormed) →
      ∃ us, tokenize (Token.joined ts) file = .ok us ∧ Token.sameAll us ts = true) ∧
    ∀ source ts, tokenize source file = .ok ts → ∃ us, tokenize (Token.joined ts) file = .ok us ∧
      Token.sameAll us ts = true ∧ Token.joined us = Token.joined ts := by
  refine ⟨fun source ts h t ht => ?_, fun ts h => tokenize_joined_same file h,
    fun source ts h => ?_⟩
  · have hformed := ht.formed (tokenize_formed h)
    exact ⟨hformed, hformed.not_parenthesis⟩
  · obtain ⟨us, hus, hsame⟩ := tokenize_joined_same file (tokenize_formed h)
    exact ⟨us, hus, hsame, by rw [Token.joined, Token.joined, Token.sources_of_sameAll us ts hsame]⟩

/-- Bars, an assignment, a keyword, a numeral with an underscore, and an empty group in another. -/
def nested : List Token :=
  [.mk .punct "|" [] none, .mk .punct "||" [] none, .mk .group "()"
    [.mk .literal "1_0" [] none, .mk .group "()" [] none, .mk .keyword "mod" [] none] none,
    .mk .punct "/" [] none, .mk .punct "/" [] none, .mk .ident "x" [] none]

theorem tokenize_joined_nested : Token.joined nested = "| || (1_0 () mod) / / x" ∧
    ∃ us, tokenize (Token.joined nested) "here" = .ok us ∧ Token.sameAll us nested = true := by
  have hformed : ∀ t ∈ nested, t.WellFormed := by
    have hwords : Word.Formed (.punct, "|") ∧ Word.Formed (.punct, "||") ∧
        Word.Formed (.literal, "1_0") ∧ Word.Formed (.keyword, "mod") ∧
        Word.Formed (.punct, "/") ∧ Word.Formed (.ident, "x") := by
      refine ⟨?_, ?_, ?_, ?_, ?_, ?_⟩ <;> unfold Word.Formed <;> decide
    obtain ⟨hbar, hbars, hten, hmod, hslash, hx⟩ := hwords
    simp only [nested, List.forall_mem_cons]
    refine ⟨.single hbar (by decide), .single hbars (by decide), .group ?_,
      .single hslash (by decide), .single hslash (by decide), .single hx (by simp), by simp⟩
    simp only [List.forall_mem_cons]
    exact ⟨.single hten (by simp), .group (by simp), .single hmod (by simp), by simp⟩
  exact ⟨by decide +kernel, (tokenize_joined "here").2.1 nested hformed⟩

end BindingPower.Calc
