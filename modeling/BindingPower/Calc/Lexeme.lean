import BindingPower.Calc.Token
import BindingPower.Text.Blank

/-! # Lexemes

Reading source text as a sequence of lexemes with gaps between them. A gap is made of blanks
and of line comments; a lexeme is the longest numeral, word or punctuation mark at its place.
Parentheses are punctuation marks here like any other. -/
namespace BindingPower.Calc

def keywords : List String := ["if", "then", "else", "when", "in", "mod"]

/-- A longer mark stands before the marks that it starts with. -/
def punctuation : List String :=
  ["||", ":=", "+", "-", "*", "/", "^", "=", "?", "!", "|", "(", ")"]

def isFigure (c : Char) : Bool := c.isDigit || c = '_'

def isNameStart (c : Char) : Bool := c.isAlpha || c = '_'

def isNameCharacter (c : Char) : Bool := c.isAlphanum || c = '_'

structure Lexeme where
  kind : Kind
  text : String
  position : Position
  deriving DecidableEq

/-- How the reading of lexemes ends: at the end of the text, or at a character that none
starts with. -/
inductive Ending where
  | finished (position : Position)
  | invalid (character : Char) (position : Position)
  deriving DecidableEq

/-- The kind and the characters of the lexeme at the front of a text. -/
def lexemeAt? : List Char → Option (Kind × List Char)
  | [] => none
  | c :: cs =>
    if c.isDigit then some (.literal, c :: cs.takeWhile isFigure)
    else if isNameStart c then
      let name := c :: cs.takeWhile isNameCharacter
      some (if String.ofList name ∈ keywords then .keyword else .ident, name)
    else (punctuation.find? fun m => m.toList.isPrefixOf (c :: cs)).map fun m => (.punct, m.toList)

/-- Skips a gap; a comment starts with two slashes and lasts to the end of its line. -/
def skipGap : (inComment : Bool) → Position → List Char → Position × List Char
  | _, p, [] => (p, [])
  | true, p, c :: cs => skipGap (c ≠ '\n') (p.after c) cs
  | false, p, c :: cs =>
    if Text.isBlank c then skipGap false (p.after c) cs
    else if c = '/' ∧ cs.head? = some '/' then skipGap true (p.after c) cs
    else (p, c :: cs)

/-- Reads at most `fuel` lexemes. -/
def scanUpTo : (fuel : Nat) → Position → List Char → List Lexeme × Ending
  | 0, p, _ => ([], .finished p)
  | fuel + 1, p, cs =>
    match skipGap false p cs with
    | (q, []) => ([], .finished q)
    | (q, c :: rest) =>
      match lexemeAt? (c :: rest) with
      | none => ([], .invalid c q)
      | some (kind, word) =>
        let (more, ending) := scanUpTo fuel (q.advance word) ((c :: rest).drop word.length)
        (⟨kind, String.ofList word, q⟩ :: more, ending)

/-- Reads a text to its end. No lexeme is empty, so there are no more than characters. -/
def scan (cs : List Char) : List Lexeme × Ending := scanUpTo (cs.length + 1) .start cs

end BindingPower.Calc
