import BindingPower.Calc.Diagnostic
import BindingPower.Calc.Lexeme

/-! # From lexemes to token trees

Every balanced pair of parentheses becomes one group token at the place of the opening one.
The first parenthesis that closes nothing is an error, and so is the first character that
starts no lexeme, whichever comes first; after both, a group that stays open is one. -/
namespace BindingPower.Calc

def Lexeme.location (l : Lexeme) (file : String) : Location := l.position.within file

def Lexeme.token (l : Lexeme) (file : String) : Token := .mk l.kind l.text [] (some (l.location file))

def groupToken (opening : Location) (children : List Token) : Token :=
  .mk .group "()" children (some opening)

/-- Builds token trees from lexemes. `opened` holds the groups that are still open, each with
the tokens read before it, and `read` the tokens of the innermost one; both have the latest
first. The result comes with the position where the reading stopped. -/
def build (file : String) (ending : Ending) :
    List Lexeme → (opened : List (Location × List Token)) → (read : List Token) →
      Except LexError (List Token) × Position
  | [], opened, read =>
    match ending, opened with
    | .invalid c p, _ => (.error (.invalidCharacter (String.singleton c) (p.within file)), p)
    | .finished p, [] => (.ok read.reverse, p)
    | .finished p, (opening, _) :: _ => (.error (.unclosedGroup opening (p.within file)), p)
  | l :: more, opened, read =>
    if l.kind = .punct ∧ l.text = "(" then
      build file ending more ((l.location file, read) :: opened) []
    else if l.kind = .punct ∧ l.text = ")" then
      match opened with
      | [] => (.error (.unopenedGroup (l.location file)), l.position.advance l.text.toList)
      | (opening, outer) :: rest =>
        build file ending more rest (groupToken opening read.reverse :: outer)
    else build file ending more opened (l.token file :: read)

/-- The token trees of a text, and the position where its reading stopped. -/
def tokenizeTo (source file : String) : Except LexError (List Token) × Position :=
  let (lexemes, ending) := scan source.toList
  build file ending lexemes [] []

def tokenize (source file : String) : Except LexError (List Token) := (tokenizeTo source file).1

end BindingPower.Calc
