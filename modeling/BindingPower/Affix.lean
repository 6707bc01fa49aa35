/-! # Where an operator stands

The position of an operator's token relative to its operands, the number of operands it
takes and the side on which it nests. A composite affix belongs to a token that may both
start an expression and continue one. -/
namespace BindingPower

inductive Associativity where
  | left
  | right
  | neither
  deriving DecidableEq

inductive Arity where
  | nullary
  | unary
  | binary
  | ternary
  deriving DecidableEq

inductive Affix where
  | nilfix
  | prefixed
  | postfixed
  | infixed
  | circumfix
  | interfix
  | nilfixOrInfixed
  | nilfixOrPostfixed
  | prefixedOrInfixed
  | prefixedOrPostfixed
  deriving DecidableEq

namespace Associativity

def all : List Associativity := [left, right, neither]

def label : Associativity → String
  | left => "LEFT"
  | right => "RIGHT"
  | neither => "NEITHER"

def word : Associativity → String
  | left => "left"
  | right => "right"
  | neither => "neither"

end Associativity

namespace Arity

def all : List Arity := [nullary, unary, binary, ternary]

def operands : Arity → Nat
  | nullary => 0
  | unary => 1
  | binary => 2
  | ternary => 3

def label : Arity → String
  | nullary => "NULLARY"
  | unary => "UNARY"
  | binary => "BINARY"
  | ternary => "TERNARY"

end Arity

namespace Affix

def all : List Affix :=
  [nilfix, prefixed, postfixed, infixed, circumfix, interfix, nilfixOrInfixed,
    nilfixOrPostfixed, prefixedOrInfixed, prefixedOrPostfixed]

/-- The leading and the continuing part of a composite affix. -/
def parts? : Affix → Option (Affix × Affix)
  | nilfixOrInfixed => some (nilfix, infixed)
  | nilfixOrPostfixed => some (nilfix, postfixed)
  | prefixedOrInfixed => some (prefixed, infixed)
  | prefixedOrPostfixed => some (prefixed, postfixed)
  | _ => none

def isComposite (a : Affix) : Bool := a.parts?.isSome

/-- The part played where an expression starts. -/
def leading (a : Affix) : Affix := (a.parts?.map Prod.fst).getD a

/-- The part played where an expression is continued. -/
def continuing (a : Affix) : Affix := (a.parts?.map Prod.snd).getD a

/-- Whether an operator with several operands may consume the token between two of them. -/
def isSeparator : Affix → Bool
  | interfix => true
  | circumfix => true
  | _ => false

/-- The affix that plays both parts, one of which leads and the other continues. -/
def combine? (a b : Affix) : Option Affix :=
  if a = b then some a
  else all.find? fun c => c.parts? = some (a, b) || c.parts? = some (b, a)

theorem combine?_self (a : Affix) : combine? a a = some a := by simp [combine?]

theorem combine?_comm (a b : Affix) : combine? a b = combine? b a := by
  cases a <;> cases b <;> rfl

def label : Affix → String
  | nilfix => "NILFIX"
  | prefixed => "PREFIX"
  | postfixed => "POSTFIX"
  | infixed => "INFIX"
  | circumfix => "CIRCUMFIX"
  | interfix => "INTERFIX"
  | nilfixOrInfixed => "NILFIX_INFIX"
  | nilfixOrPostfixed => "NILFIX_POSTFIX"
  | prefixedOrInfixed => "PREFIX_INFIX"
  | prefixedOrPostfixed => "PREFIX_POSTFIX"

def word : Affix → String
  | nilfix => "nilfix"
  | prefixed => "prefix"
  | postfixed => "postfix"
  | infixed => "infix"
  | circumfix => "circumfix"
  | interfix => "interfix"
  | nilfixOrInfixed => "nilfix|infix"
  | nilfixOrPostfixed => "nilfix|postfix"
  | prefixedOrInfixed => "prefix|infix"
  | prefixedOrPostfixed => "prefix|postfix"

def combineMessage (a b : Affix) : String :=
  "Cannot combine " ++ a.label ++ " with " ++ b.label

end Affix

/-- The text of a named value: the kind, the name, and what it stands for. -/
def memberText (kind name value : String) : String :=
  "<" ++ kind ++ "." ++ name ++ ": " ++ value ++ ">"

def Associativity.text (a : Associativity) : String :=
  memberText "Associativity" a.label ("'" ++ a.word ++ "'")

def Arity.text (a : Arity) : String := memberText "Arity" a.label (toString a.operands)

def Affix.text (a : Affix) : String := memberText "Affix" a.label ("'" ++ a.word ++ "'")

end BindingPower
