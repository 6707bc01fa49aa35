import BindingPower.Calc.Lexer
import BindingPower.Calc.Printer
import BindingPower.Text.Decimal

/-! # Lexing printed expressions

The words of an expression are the kinds and texts of its lexemes. The printed source of an
expression is scanned into its words wherever they stand, as long as a blank, a closing parenthesis
or the end of the text comes next. -/
namespace BindingPower.Calc

abbrev Word := Kind × String

def Lexeme.word (l : Lexeme) : Word := (l.kind, l.text)

theorem Lexeme.word_eq_iff {l : Lexeme} {k : Kind} {s : String} :
    l.word = (k, s) ↔ l.kind = k ∧ l.text = s := Iff.of_eq (Prod.mk.injEq ..)

/-- The kind of a word that is spelled like a name. -/
def nameKind (s : String) : Kind := if s ∈ keywords then .keyword else .ident

/-- A letter or an underscore, followed by letters, digits and underscores. -/
def isName (s : String) : Bool :=
  match s.toList with
  | [] => false
  | c :: cs => isNameStart c && cs.all isNameCharacter

/-- A digit, followed by digits and underscores. -/
def isNumeral (s : String) : Bool :=
  match s.toList with
  | [] => false
  | c :: cs => c.isDigit && cs.all isFigure

def BinaryKind.word : BinaryKind → Word
  | mod => (.keyword, "mod")
  | k => (.punct, k.symbol)

namespace Expr

/-- Trees that can be written down: natural numbers of at most 4300 digits, names that are no
keywords other than `mod`, and bindings of names. -/
def WellFormed : Expr → Prop
  | int n => 0 ≤ n ∧ (Nat.toDigits 10 n.toNat).length ≤ 4300
  | ident s => isName s = true ∧ (s ∈ keywords → s = "mod")
  | unary _ x => x.WellFormed
  | binary _ l r => l.WellFormed ∧ r.WellFormed
  | ternary .ifThenElse a b c => a.WellFormed ∧ b.WellFormed ∧ c.WellFormed
  | ternary .binding a b c =>
    (∃ s, a = ident s) ∧ a.WellFormed ∧ b.WellFormed ∧ c.WellFormed

/-- Words between parentheses. -/
def enclosed (ws : List Word) : List Word := (.punct, "(") :: (ws ++ [(.punct, ")")])

def words : Expr → List Word
  | int n => [(.literal, toString n)]
  | ident s => [(nameKind s, s)]
  | unary k x =>
    match k.fixity with
    | .before => enclosed ((.punct, k.symbol) :: x.words)
    | .behind => enclosed (x.words ++ [(.punct, k.symbol)])
    | .around => (.punct, k.symbol) :: (x.words ++ [(.punct, k.symbol)])
  | binary k l r => enclosed (l.words ++ k.word :: r.words)
  | ternary .ifThenElse a b c =>
    enclosed ((.keyword, "if") :: (a.words ++ (.keyword, "then") ::
      (b.words ++ (.keyword, "else") :: c.words)))
  | ternary .binding a b c =>
    enclosed (a.words ++ (.punct, ":=") :: (b.words ++ (.keyword, "in") :: c.words))

end Expr

/-- A text is scanned into words, and what is left of it is `rest`. -/
def Lexes (cs : List Char) (ws : List Word) (rest : List Char) : Prop :=
  ∀ (fuel : Nat) (p : Position), cs.length < fuel → ∃ ls q m, ls.map Lexeme.word = ws ∧
    rest.length < m ∧ scanUpTo fuel p cs = (ls ++ (scanUpTo m q rest).1, (scanUpTo m q rest).2)

/-- What may follow a word without becoming a part of it. -/
def Bounded (rest : List Char) : Prop := ∀ c ∈ rest.head?, c = ' ' ∨ c = ')'

variable {c : Char} {cs mid rest : List Char} {ws us : List Word} {s : String}

theorem bounded_nil : Bounded [] := by
  intro c hc
  simp at hc

theorem bounded_space : Bounded (' ' :: rest) := by
  intro c hc
  simp only [List.head?_cons, Option.mem_some_iff] at hc
  exact .inl hc.symm

theorem bounded_closing : Bounded (')' :: rest) := by
  intro c hc
  simp only [List.head?_cons, Option.mem_some_iff] at hc
  exact .inr hc.symm

theorem Lexes.trans (h : Lexes cs ws mid) (k : Lexes mid us rest) : Lexes cs (ws ++ us) rest := by
  intro fuel p hfuel
  obtain ⟨ls, q, m, hls, hm, hscan⟩ := h fuel p hfuel
  obtain ⟨ks, r, n, hks, hn, hmore⟩ := k m q hm
  refine ⟨ls ++ ks, r, n, ?_, hn, ?_⟩
  · rw [List.map_append, hls, hks]
  · rw [hscan, hmore, List.append_assoc]

theorem lexes_space (h : Lexes cs ws rest) : Lexes (' ' :: cs) ws rest := by
  intro fuel p hfuel
  obtain ⟨ls, q, m, hls, hm, hscan⟩ := h fuel (p.after ' ') (Nat.lt_of_succ_lt hfuel)
  refine ⟨ls, q, m, hls, hm, ?_⟩
  rw [← hscan]
  cases fuel with
  | zero => simp at hfuel
  | succ n =>
    have hgap : skipGap false p (' ' :: cs) = skipGap false (p.after ' ') cs := by
      rw [skipGap, if_pos (by decide)]
    rw [scanUpTo, scanUpTo, hgap]

/-- A word at the front of a text, where no gap is. -/
theorem lexes_word {kind : Kind} {word : List Char} (hword : cs = word ++ rest)
    (hlex : lexemeAt? cs = some (kind, word)) (hc : cs.head? = some c) (hblank : Text.isBlank c = false)
    (hcomment : c ≠ '/' ∨ cs.tail.head? ≠ some '/') (hne : word ≠ []) :
    Lexes cs [(kind, String.ofList word)] rest := by
  intro fuel p hfuel
  cases cs with
  | nil => simp at hc
  | cons d ds =>
    simp only [List.head?_cons, Option.some.injEq] at hc
    subst hc
    cases fuel with
    | zero => simp at hfuel
    | succ n =>
      have hgap : skipGap false p (d :: ds) = (p, d :: ds) := by
        rw [skipGap, if_neg (by simp [hblank]), if_neg]
        rintro ⟨h₁, h₂⟩
        rcases hcomment with h | h
        · exact h h₁
        · exact h h₂
      have hdrop : (d :: ds).drop word.length = rest := by
        rw [hword, List.drop_left]
      have hpos := List.length_pos_iff.mpr hne
      have hlength := congrArg List.length hword
      simp only [List.length_cons, List.length_append] at hlength hfuel
      refine ⟨[⟨kind, String.ofList word, p⟩], p.advance word, n, rfl, by omega, ?_⟩
      rw [scanUpTo, hgap]
      simp only [hlex, hdrop]
      rfl

/-- A run of characters of one class ends where a word is bounded. -/
theorem takeWhile_bounded {p : Char → Bool} (hcs : ∀ d ∈ cs, p d = true) (hspace : p ' ' = false)
    (hclosing : p ')' = false) (hrest : Bounded rest) : (cs ++ rest).takeWhile p = cs := by
  have hend : rest.takeWhile p = [] := by
    cases rest with
    | nil => rfl
    | cons d ds =>
      rcases hrest d rfl with rfl | rfl
      · exact List.takeWhile_cons_of_neg (by simp [hspace])
      · exact List.takeWhile_cons_of_neg (by simp [hclosing])
  rw [List.takeWhile_append_of_pos hcs, hend, List.append_nil]

theorem isUpper_range (h : c.isUpper = true) : 65 ≤ c.toNat ∧ c.toNat ≤ 90 :=
  of_decide_eq_true h

theorem isLower_range (h : c.isLower = true) : 97 ≤ c.toNat ∧ c.toNat ≤ 122 := by
  obtain ⟨hlow, hhigh⟩ := Bool.and_eq_true_iff.mp h
  exact ⟨of_decide_eq_true hlow, of_decide_eq_true hhigh⟩

theorem isNameStart_range (h : isNameStart c = true) : 65 ≤ c.toNat ∧ c.toNat ≤ 122 := by
  rw [isNameStart, Bool.or_eq_true, decide_eq_true_eq] at h
  rcases h with halpha | rfl
  · rcases Bool.or_eq_true_iff.mp halpha with hupper | hlower
    · have hrange := isUpper_range hupper
      omega
    · have hrange := isLower_range hlower
      omega
  · decide

theorem isDigit_of_isNameStart (h : isNameStart c = true) : c.isDigit = false := by
  have hname := isNameStart_range h
  cases hd : c.isDigit with
  | false => rfl
  | true =>
    have hdigit := Text.isDigit_range hd
    omega

theorem ne_slash {n : Nat} (hn : n = c.toNat) (h : n ≠ 47) : c ≠ '/' := by
  rintro rfl
  exact h hn

/-- A word that starts with a digit, a letter or an underscore. -/
theorem lexes_run {kind : Kind} (hcs : s.toList = c :: cs) (hlow : 48 ≤ c.toNat)
    (hhigh : c.toNat ≤ 122) (hlex : lexemeAt? (c :: (cs ++ rest)) = some (kind, c :: cs)) :
    Lexes (s.toList ++ rest) [(kind, s)] rest := by
  have hword : String.ofList (c :: cs) = s := by rw [← hcs, String.ofList_toList]
  have hsplit : c :: (cs ++ rest) = (c :: cs) ++ rest := rfl
  have h := lexes_word hsplit hlex rfl (Text.isBlank_of_visible (by omega) (by omega))
    (.inl (ne_slash rfl (by omega))) (by simp)
  rw [hword] at h
  rw [hcs]
  exact h

theorem lexes_name (hs : isName s = true) (hrest : Bounded rest) :
    Lexes (s.toList ++ rest) [(nameKind s, s)] rest := by
  unfold isName at hs
  cases hcs : s.toList with
  | nil => simp [hcs] at hs
  | cons c cs =>
    simp only [hcs, Bool.and_eq_true, List.all_eq_true] at hs
    obtain ⟨hstart, hmore⟩ := hs
    have hrange := isNameStart_range hstart
    have hlex : lexemeAt? (c :: (cs ++ rest)) = some (nameKind s, c :: cs) := by
      rw [lexemeAt?, isDigit_of_isNameStart hstart, if_neg (by simp), if_pos hstart,
        takeWhile_bounded hmore rfl rfl hrest]
      simp only [← hcs, String.ofList_toList]
      rfl
    rw [← hcs]
    exact lexes_run hcs (by omega) hrange.2 hlex

theorem lexes_numeral (hs : isNumeral s = true) (hrest : Bounded rest) :
    Lexes (s.toList ++ rest) [(.literal, s)] rest := by
  unfold isNumeral at hs
  cases hcs : s.toList with
  | nil => simp [hcs] at hs
  | cons c cs =>
    simp only [hcs, Bool.and_eq_true, List.all_eq_true] at hs
    obtain ⟨hdigit, hmore⟩ := hs
    have hrange := Text.isDigit_range hdigit
    have hlex : lexemeAt? (c :: (cs ++ rest)) = some (.literal, c :: cs) := by
      rw [lexemeAt?, if_pos hdigit, takeWhile_bounded hmore rfl rfl hrest]
    rw [← hcs]
    exact lexes_run hcs hrange.1 (by omega) hlex

theorem isDigit_of_mem_repr (n : Nat) : ∀ d ∈ n.repr.toList, d.isDigit = true := by
  rw [Nat.toList_repr]
  exact fun d hd => Nat.isDigit_of_mem_toDigits (by decide) (by decide) hd

theorem isNumeral_repr (n : Nat) : isNumeral n.repr = true := by
  have hdigits := isDigit_of_mem_repr n
  unfold isNumeral
  cases hcs : n.repr.toList with
  | nil => simp [Nat.toList_repr] at hcs
  | cons c cs =>
    simp only [hcs, List.forall_mem_cons] at hdigits
    have hfigures : cs.all isFigure = true := by
      rw [List.all_eq_true]
      intro d hd
      rw [isFigure, hdigits.2 d hd, Bool.true_or]
    exact Bool.and_eq_true_iff.mpr ⟨hdigits.1, hfigures⟩

/-- The mark of an operator ends where a word is bounded. -/
theorem lexes_mark (hs : s ∈ ["||", ":=", "+", "-", "*", "/", "^", "=", "?", "!", "|"])
    (hrest : Bounded rest) : Lexes (s.toList ++ rest) [(.punct, s)] rest := by
  have hshape : rest = [] ∨ (∃ ds, rest = ' ' :: ds) ∨ ∃ ds, rest = ')' :: ds := by
    cases rest with
    | nil => exact .inl rfl
    | cons d ds =>
      rcases hrest d rfl with rfl | rfl
      · exact .inr (.inl ⟨ds, rfl⟩)
      · exact .inr (.inr ⟨ds, rfl⟩)
  simp only [List.mem_cons, List.not_mem_nil, or_false] at hs
  rcases hs with rfl | rfl | rfl | rfl | rfl | rfl | rfl | rfl | rfl | rfl | rfl <;>
    rcases hshape with rfl | ⟨ds, rfl⟩ | ⟨ds, rfl⟩ <;>
    exact lexes_word rfl rfl rfl (by decide) (.inr (by simp)) (by decide)

theorem lexes_opening (rest : List Char) : Lexes ('(' :: rest) [(.punct, "(")] rest :=
  lexes_word (rfl : _ = ['('] ++ rest) rfl rfl (by decide) (.inl (by decide)) (by decide)

theorem lexes_closing (rest : List Char) : Lexes (')' :: rest) [(.punct, ")")] rest :=
  lexes_word (rfl : _ = [')'] ++ rest) rfl rfl (by decide) (.inl (by decide)) (by decide)

/-- Between parentheses every text is bounded. -/
theorem lexes_enclosed (h : Lexes (cs ++ ')' :: rest) ws (')' :: rest)) :
    Lexes ('(' :: (cs ++ ')' :: rest)) (Expr.enclosed ws) rest :=
  (lexes_opening _).trans (h.trans (lexes_closing rest))

/-- A word, a blank and what follows it. -/
theorem lexes_before {w : Word} {word : List Char} (hw : ∀ rest, Bounded rest →
    Lexes (word ++ rest) [w] rest) (h : Lexes cs ws rest) :
    Lexes (word ++ ' ' :: cs) (w :: ws) rest :=
  (hw _ bounded_space).trans (lexes_space h)

/-- A text, a blank and what follows it. -/
theorem lexes_behind {front : List Char} (hfront : ∀ rest, Bounded rest →
    Lexes (front ++ rest) us rest) (h : Lexes cs ws rest) :
    Lexes (front ++ ' ' :: cs) (us ++ ws) rest :=
  (hfront _ bounded_space).trans (lexes_space h)

theorem lexes_unarySymbol (k : UnaryKind) (hrest : Bounded rest) :
    Lexes (k.symbol.toList ++ rest) [(.punct, k.symbol)] rest := by
  cases k <;> exact lexes_mark (by decide) hrest

theorem lexes_binarySymbol (k : BinaryKind) (hrest : Bounded rest) :
    Lexes (k.symbol.toList ++ rest) [k.word] rest := by
  cases k with
  | mod => exact lexes_name (by decide) hrest
  | _ => exact lexes_mark (by decide) hrest

theorem lexes_keyword (hs : isName s = true) (hk : s ∈ keywords) (hrest : Bounded rest) :
    Lexes (s.toList ++ rest) [(.keyword, s)] rest := by
  have h := lexes_name hs hrest
  rw [nameKind, if_pos hk] at h
  exact h

theorem lexes_toSource (e : Expr) (he : e.WellFormed) (hrest : Bounded rest) :
    Lexes (e.toSource.toList ++ rest) e.words rest := by
  induction e generalizing rest with
  | int n =>
    obtain ⟨m, rfl⟩ := Int.eq_ofNat_of_zero_le he.1
    exact lexes_numeral (isNumeral_repr m) hrest
  | ident s => exact lexes_name he.1 hrest
  | unary k x ih =>
    have hx : ∀ ds, Bounded ds → Lexes (x.toSource.toList ++ ds) x.words ds := fun _ => ih he
    have hsymbol : ∀ ds, Bounded ds → Lexes (k.symbol.toList ++ ds) [(.punct, k.symbol)] ds :=
      fun _ => lexes_unarySymbol k
    cases hk : k.fixity with
    | before =>
      have htext : (Expr.unary k x).toSource.toList ++ rest =
          '(' :: ((k.symbol.toList ++ ' ' :: x.toSource.toList) ++ ')' :: rest) := by
        simp [Expr.toSource, Expr.unarySource, hk]
      rw [htext, Expr.words, hk]
      refine lexes_enclosed ?_
      rw [List.append_assoc, List.cons_append]
      exact lexes_before hsymbol (hx _ bounded_closing)
    | behind =>
      have htext : (Expr.unary k x).toSource.toList ++ rest =
          '(' :: ((x.toSource.toList ++ ' ' :: k.symbol.toList) ++ ')' :: rest) := by
        simp [Expr.toSource, Expr.unarySource, hk]
      rw [htext, Expr.words, hk]
      refine lexes_enclosed ?_
      rw [List.append_assoc, List.cons_append]
      exact lexes_behind hx (hsymbol _ bounded_closing)
    | around =>
      have htext : (Expr.unary k x).toSource.toList ++ rest =
          k.symbol.toList ++ ' ' :: (x.toSource.toList ++ ' ' :: (k.symbol.toList ++ rest)) := by
        simp [Expr.toSource, Expr.unarySource, hk]
      rw [htext, Expr.words, hk]
      exact lexes_before hsymbol (lexes_behind hx (hsymbol _ hrest))
  | binary k l r ihl ihr =>
    have hl : ∀ ds, Bounded ds → Lexes (l.toSource.toList ++ ds) l.words ds := fun _ => ihl he.1
    have htext : (Expr.binary k l r).toSource.toList ++ rest =
        '(' :: ((l.toSource.toList ++ ' ' :: (k.symbol.toList ++ ' ' :: r.toSource.toList)) ++
          ')' :: rest) := by
      simp [Expr.toSource]
    rw [htext]
    refine lexes_enclosed ?_
    rw [List.append_assoc, List.cons_append, List.append_assoc, List.cons_append]
    exact lexes_behind hl (lexes_before (fun _ => lexes_binarySymbol k) (ihr he.2 bounded_closing))
  | ternary k a b c iha ihb ihc =>
    cases k with
    | ifThenElse =>
      obtain ⟨ha, hb, hc⟩ := he
      have htext : (Expr.ternary .ifThenElse a b c).toSource.toList ++ rest =
          '(' :: (("if".toList ++ ' ' :: (a.toSource.toList ++ ' ' :: ("then".toList ++ ' ' ::
            (b.toSource.toList ++ ' ' :: ("else".toList ++ ' ' :: c.toSource.toList))))) ++
              ')' :: rest) := by
        simp [Expr.toSource]
      rw [htext]
      refine lexes_enclosed ?_
      simp only [List.append_assoc, List.cons_append]
      exact lexes_before (fun _ => lexes_keyword (by decide) (by decide))
        (lexes_behind (fun _ => iha ha)
          (lexes_before (fun _ => lexes_keyword (by decide) (by decide))
            (lexes_behind (fun _ => ihb hb)
              (lexes_before (fun _ => lexes_keyword (by decide) (by decide))
                (ihc hc bounded_closing)))))
    | binding =>
      obtain ⟨-, ha, hb, hc⟩ := he
      have htext : (Expr.ternary .binding a b c).toSource.toList ++ rest =
          '(' :: ((a.toSource.toList ++ ' ' :: (":=".toList ++ ' ' :: (b.toSource.toList ++ ' ' ::
            ("in".toList ++ ' ' :: c.toSource.toList)))) ++ ')' :: rest) := by
        simp [Expr.toSource]
      rw [htext]
      refine lexes_enclosed ?_
      simp only [List.append_assoc, List.cons_append]
      exact lexes_behind (fun _ => iha ha) (lexes_before (fun _ => lexes_mark (by decide))
        (lexes_behind (fun _ => ihb hb)
          (lexes_before (fun _ => lexes_keyword (by decide) (by decide)) (ihc hc bounded_closing))))

end BindingPower.Calc
