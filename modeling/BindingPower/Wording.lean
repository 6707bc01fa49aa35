import BindingPower.Operator

/-! # Wording

How the tokens, separator marks and faults of a grammar are put into words, and with them the
operators of the grammar. -/
namespace BindingPower

/-- How the tokens or marks of a grammar are shown; a null one is reported as absent. -/
class Worded (α : Type) where
  text : α → String
  isNull : α → Bool

/-- How the faults of a grammar are shown; the name stands in for an empty message. -/
class Described (ε : Type) where
  name : ε → String
  message : ε → String

/-- A sequence in parentheses, with a comma after a sole member. -/
def tupleText {α : Type} [Worded α] : List α → String
  | [] => "()"
  | [a] => "(" ++ Worded.text a ++ ",)"
  | as => "(" ++ ", ".intercalate (as.map Worded.text) ++ ")"

def Shape.text {φ : Type} [Worded φ] (s : Shape φ) : String :=
  "Op(affix=" ++ s.affix.text ++ ", arity=" ++ s.arity.text ++ ", precedence=" ++
    s.precedence.text ++ ", associativity=" ++ s.associativity.text ++ ", follow=" ++
    tupleText s.follow ++ ")"

end BindingPower
