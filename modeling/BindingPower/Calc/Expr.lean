import BindingPower.Affix
import BindingPower.Text.Quoted

/-! # Expression trees

The trees that calc expressions stand for. A conditional has its condition first, whichever
form it was written in; a binding has its target first. -/
namespace BindingPower.Calc

inductive UnaryKind where
  | neg
  | not
  | attempt
  | abs
  | norm
  deriving DecidableEq

inductive BinaryKind where
  | add
  | sub
  | mul
  | div
  | mod
  | pow
  | eq
  deriving DecidableEq

inductive TernaryKind where
  | ifThenElse
  | binding
  deriving DecidableEq

inductive Fixity where
  | before
  | behind
  | around
  deriving DecidableEq

namespace Fixity

def word : Fixity → String
  | before => "prefix"
  | behind => "postfix"
  | around => "circumfix"

end Fixity

namespace UnaryKind

def all : List UnaryKind := [neg, not, attempt, abs, norm]

def label : UnaryKind → String
  | neg => "NEG"
  | not => "NOT"
  | attempt => "TRY"
  | abs => "ABS"
  | norm => "NORM"

def symbol : UnaryKind → String
  | neg => "-"
  | not => "!"
  | attempt => "?"
  | abs => "|"
  | norm => "||"

/-- Where the symbol stands. -/
def fixity : UnaryKind → Fixity
  | neg | not => .before
  | attempt => .behind
  | abs | norm => .around

def text (k : UnaryKind) : String :=
  memberText "UnaryOpKind" k.label ("('" ++ k.symbol ++ "', '" ++ k.fixity.word ++ "')")

end UnaryKind

namespace BinaryKind

def all : List BinaryKind := [add, sub, mul, div, mod, pow, eq]

def label : BinaryKind → String
  | add => "ADD"
  | sub => "SUB"
  | mul => "MUL"
  | div => "DIV"
  | mod => "MOD"
  | pow => "POW"
  | eq => "EQ"

def symbol : BinaryKind → String
  | add => "+"
  | sub => "-"
  | mul => "*"
  | div => "/"
  | mod => "mod"
  | pow => "^"
  | eq => "="

def text (k : BinaryKind) : String := memberText "BinaryOpKind" k.label ("'" ++ k.symbol ++ "'")

end BinaryKind

namespace TernaryKind

def all : List TernaryKind := [ifThenElse, binding]

def label : TernaryKind → String
  | ifThenElse => "IF_THEN_ELSE"
  | binding => "LET"

def symbol : TernaryKind → String
  | ifThenElse => "if"
  | binding => ":="

def text (k : TernaryKind) : String := memberText "TernaryOpKind" k.label ("'" ++ k.symbol ++ "'")

end TernaryKind

inductive Expr where
  | int (value : Int)
  | ident (name : String)
  | unary (op : UnaryKind) (operand : Expr)
  | binary (op : BinaryKind) (left right : Expr)
  | ternary (op : TernaryKind) (first second third : Expr)
  deriving DecidableEq

namespace Expr

def children : Expr → List Expr
  | int _ => []
  | ident _ => []
  | unary _ x => [x]
  | binary _ l r => [l, r]
  | ternary _ a b c => [a, b, c]

/-- The tree on one line with all its fields. -/
def text : Expr → String
  | int n => "Int(value=" ++ toString n ++ ")"
  | ident s => "Ident(name=" ++ Text.quoted s ++ ")"
  | unary k x => "UnaryOp(op=" ++ k.text ++ ", operand=" ++ x.text ++ ")"
  | binary k l r => "BinaryOp(op=" ++ k.text ++ ", lhs=" ++ l.text ++ ", rhs=" ++ r.text ++ ")"
  | ternary k a b c =>
    "TernaryOp(op=" ++ k.text ++ ", first=" ++ a.text ++ ", second=" ++ b.text ++
      ", third=" ++ c.text ++ ")"

end Expr

end BindingPower.Calc
