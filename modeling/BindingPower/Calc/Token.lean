import BindingPower.Calc.Location
import BindingPower.Wording
import BindingPower.Text.Quoted

/-! # Token trees

A token tree is a single token or a group of token trees that stood between parentheses.
Where a token came from takes no part in whether two tokens are the same. -/
namespace BindingPower.Calc

inductive Kind where
  | group
  | literal
  | ident
  | keyword
  | punct
  deriving DecidableEq

namespace Kind

def all : List Kind := [group, literal, ident, keyword, punct]

def label : Kind → String
  | group => "GROUP"
  | literal => "LITERAL"
  | ident => "IDENT"
  | keyword => "KEYWORD"
  | punct => "PUNCT"

def word : Kind → String
  | group => "Group"
  | literal => "Literal"
  | ident => "Ident"
  | keyword => "Keyword"
  | punct => "Punct"

end Kind

inductive Token where
  | mk (kind : Kind) (lexeme : String) (children : List Token) (location : Option Location)

namespace Token

def kind : Token → Kind
  | mk k _ _ _ => k

def lexeme : Token → String
  | mk _ l _ _ => l

def children : Token → List Token
  | mk _ _ c _ => c

def location : Token → Option Location
  | mk _ _ _ l => l

def isGroup (t : Token) : Bool := t.kind = .group

mutual
/-- Whether two tokens are the same wherever they stand. -/
def same : Token → Token → Bool
  | mk k l c _, mk k' l' c' _ => k = k' && l = l' && sameAll c c'
def sameAll : List Token → List Token → Bool
  | [], [] => true
  | t :: ts, u :: us => same t u && sameAll ts us
  | _, _ => false
end

mutual
/-- The token as source text, the members of a group with single blanks between them. -/
def source : Token → String
  | mk k l c _ => if k = .group then "(" ++ " ".intercalate (sources c) ++ ")" else l
def sources : List Token → List String
  | [] => []
  | t :: ts => source t :: sources ts
end

mutual
def text : Token → String
  | mk k l c _ =>
    if k = .group then "Group([" ++ ", ".intercalate (texts c) ++ "])"
    else k.word ++ "(" ++ Text.quoted l ++ ")"
def texts : List Token → List String
  | [] => []
  | t :: ts => text t :: texts ts
end

end Token

/-- A list of tokens in brackets. -/
def listText (ts : List Token) : String := "[" ++ ", ".intercalate (Token.texts ts) ++ "]"

instance : Worded Token := ⟨Token.text, fun _ => false⟩

/-- The mark of a separator is its lexeme. -/
instance : Worded String := ⟨Text.quoted, fun _ => false⟩

end BindingPower.Calc
