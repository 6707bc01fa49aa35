import BindingPower.Wording

/-! # Reports

A parse ends at its first failure. A report is a failure with a stable code and a help text;
other causes, such as a fault of the token source, reach the caller as they are unless a
callback lets them escape. -/
namespace BindingPower

/-- `followIndex` is an index before the first separator mark of an operator. -/
inductive Cause (ε : Type) where
  | precedenceRange (given : Int)
  | followIndex (given : Int)
  | fault (e : ε)
  deriving DecidableEq

/-- The roles that a token was found in without fitting there. -/
inductive Misfit where
  | unspecified
  | nilfix
  | prefixed
  | infixed
  | postfixed
  | interfix
  deriving DecidableEq

/-- `plain` is a report of a callback's own making. -/
inductive Report (τ φ ε : Type) where
  | plain (e : ε)
  | emptyInput
  | misfit (kind : Misfit) (token : τ)
  | unexpectedArity (token : τ) (affix : Affix) (arity : Arity)
  | missingInterfix (expected : Option φ) (found : Option τ)
  | trailingInput (token : τ)
  | nestingTooDeep (limit : Int) (depth : Option Int)
  | userError (cause : Cause ε)
  deriving DecidableEq

inductive Failure (τ φ ε : Type) where
  | report (r : Report τ φ ε)
  | exhausted
  | other (cause : Cause ε)
  deriving DecidableEq

/-- The least index that is looked up at all, the least signed word of 64 bits. -/
def leastIndex : Int := -9223372036854775808

namespace Cause

variable {ε : Type} [Described ε]

def name : Cause ε → String
  | precedenceRange _ => "ValueError"
  | followIndex _ => "IndexError"
  | fault e => Described.name e

def message : Cause ε → String
  | precedenceRange n => Precedence.rangeMessage n
  | followIndex n =>
    if n < leastIndex then "cannot fit 'int' into an index-sized integer"
    else "tuple index out of range"
  | fault e => Described.message e

end Cause

namespace Misfit

def expected : Misfit → String
  | unspecified => ""
  | nilfix | prefixed => "Infix or Postfix"
  | infixed | postfixed => "Nilfix or Prefix"
  | interfix => "an operand or operator"

def found : Misfit → String
  | unspecified => ""
  | nilfix => "Nilfix"
  | prefixed => "Prefix"
  | infixed => "Infix"
  | postfixed => "Postfix"
  | interfix => "Interfix"

def code : Misfit → String
  | unspecified => "E000"
  | nilfix => "E002"
  | prefixed => "E003"
  | infixed => "E004"
  | postfixed => "E005"
  | interfix => "E006"

def help? : Misfit → Option String
  | unspecified => none
  | nilfix => some "Two operands follow each other without an operator between them."
  | prefixed =>
    some "A prefix operator follows an operand without an infix operator between them."
  | infixed => some "An infix operator is missing its left operand."
  | postfixed => some "A postfix operator is missing its operand."
  | interfix => some "A separator token appears outside the operator it belongs to."

end Misfit

namespace Report

variable {τ φ ε : Type}

def code : Report τ φ ε → String
  | plain _ => "E000"
  | emptyInput => "E001"
  | misfit kind _ => kind.code
  | unexpectedArity .. => "E007"
  | missingInterfix .. => "E008"
  | trailingInput _ => "E009"
  | nestingTooDeep .. => "E010"
  | userError _ => "E100"

def help? : Report τ φ ε → Option String
  | plain _ => none
  | emptyInput => some "An operand is missing, e.g. after a prefix or infix operator."
  | misfit kind _ => kind.help?
  | unexpectedArity .. =>
    some ("Supported shapes are Nilfix/Nullary, Prefix/Unary, Prefix/Ternary, " ++
      "Circumfix/Unary, Postfix/Unary, Postfix/Ternary, Infix/Binary and Infix/Ternary.")
  | missingInterfix .. =>
    some "Add the separator, or disable strict_interfix to make it optional."
  | trailingInput _ =>
    some ("The remaining tokens cannot continue the expression, e.g. a second " ++
      "use of a non-associative operator.")
  | nestingTooDeep .. =>
    some "Raise ParserConfig.max_depth together with sys.setrecursionlimit()."
  | userError _ => some "Raised by the grammar while classifying a token or building a node."

def emptyMessage : String := "Pratt parser was called with empty input."

/-- The depth is told where the stack ended before the limit did. -/
def nestingMessage (limit : String) (depth : Option String) : String :=
  match depth with
  | none => "Expression nesting exceeds the limit of " ++ limit ++ " levels"
  | some d =>
    "Expression nesting exhausted the Python stack at " ++ d ++ " levels (limit " ++ limit ++ ")"

/-- A report as lines: code and message, then the help text if there is one. -/
def lines (code message : String) (help? : Option String) : String :=
  let first := "ERROR[" ++ code ++ "]: " ++ message ++ "\n"
  match help? with
  | none => first
  | some h => first ++ "  help: " ++ h ++ "\n"

/-- The text of a mark or token that may be absent; a null one counts as absent. -/
def textOr {α : Type} [Worded α] (absent : String) : Option α → String
  | none => absent
  | some a => if Worded.isNull a then absent else Worded.text a

/-- A missing separator's expected mark or found token, none if it is absent or null. -/
def shown? {α : Type} [Worded α] : Option α → Option String
  | none => none
  | some a => if Worded.isNull a then none else some (Worded.text a)

variable [Worded τ] [Worded φ] [Described ε]

def message : Report τ φ ε → String
  | plain e => Described.message e
  | emptyInput => emptyMessage
  | misfit kind t =>
    "Expected " ++ kind.expected ++ ", found " ++ kind.found ++ " " ++ Worded.text t
  | unexpectedArity t affix arity =>
    "No parse rule for " ++ affix.label ++ " " ++ arity.label ++ " operator " ++ Worded.text t
  | missingInterfix expected found =>
    "Expected " ++ textOr "a separator" expected ++ ", found " ++ textOr "end of input" found
  | trailingInput t => "Unexpected trailing input starting at " ++ Worded.text t
  | nestingTooDeep limit depth => nestingMessage (toString limit) (depth.map toString)
  | userError cause => if cause.message = "" then cause.name else cause.message

def render (r : Report τ φ ε) : String := lines r.code r.message r.help?

end Report

end BindingPower
