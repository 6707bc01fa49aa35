import BindingPower.Calc.Expr

/-! # Printing expressions

`toSource` writes a tree as fully parenthesized calc text, which reads back as the same tree.
`dump` writes one node a line, two blanks deeper than the node above it. -/
namespace BindingPower.Calc

namespace Expr

/-- Blanks keep nested bars apart. -/
def unarySource (k : UnaryKind) (x : String) : String :=
  match k.fixity with
  | .before => "(" ++ k.symbol ++ " " ++ x ++ ")"
  | .behind => "(" ++ x ++ " " ++ k.symbol ++ ")"
  | .around => k.symbol ++ " " ++ x ++ " " ++ k.symbol

def toSource : Expr → String
  | int n => toString n
  | ident s => s
  | unary k x => unarySource k x.toSource
  | binary k l r => "(" ++ l.toSource ++ " " ++ k.symbol ++ " " ++ r.toSource ++ ")"
  | ternary .ifThenElse a b c =>
    "(if " ++ a.toSource ++ " then " ++ b.toSource ++ " else " ++ c.toSource ++ ")"
  | ternary .binding a b c =>
    "(" ++ a.toSource ++ " := " ++ b.toSource ++ " in " ++ c.toSource ++ ")"

/-- The line of a node without its indentation. -/
def nodeLine : Expr → String
  | int n => "Int(" ++ toString n ++ ")"
  | ident s => "Ident(" ++ s ++ ")"
  | unary k _ => "UnaryOp(" ++ k.label ++ ")"
  | binary k _ _ => "BinaryOp(" ++ k.label ++ ")"
  | ternary k _ _ _ => "TernaryOp(" ++ k.label ++ ")"

/-- Why no text can be indented so far: a count of steps is a signed word of 64 bits, a text
has no more characters than the greatest such word, and memory ends well before that. -/
inductive IndentError where
  | count
  | length
  | memory
  deriving DecidableEq

def IndentError.message : IndentError → String
  | count => "cannot fit 'int' into an index-sized integer"
  | length => "repeated string is too long"
  | memory => ""

def checkIndent (indent : Int) : Except IndentError Unit :=
  if indent < -0x8000000000000000 ∨ 0x8000000000000000 ≤ indent then .error .count
  else if 0x8000000000000000 ≤ 2 * indent then .error .length
  else if 0x10000000000 ≤ indent then .error .memory
  else .ok ()

/-- Two blanks a step; a negative indentation is none. -/
def indentation (indent : Int) : String := String.ofList (List.replicate (2 * indent.toNat) ' ')

def dumpLines : Expr → (indent : Int) → List String
  | int n, i => [indentation i ++ (int n).nodeLine]
  | ident s, i => [indentation i ++ (ident s).nodeLine]
  | unary k x, i => (indentation i ++ (unary k x).nodeLine) :: x.dumpLines (i + 1)
  | binary k l r, i =>
    (indentation i ++ (binary k l r).nodeLine) :: (l.dumpLines (i + 1) ++ r.dumpLines (i + 1))
  | ternary k a b c, i =>
    (indentation i ++ (ternary k a b c).nodeLine) ::
      (a.dumpLines (i + 1) ++ b.dumpLines (i + 1) ++ c.dumpLines (i + 1))

def dump (e : Expr) (indent : Int) : String := "\n".intercalate (e.dumpLines indent)

end Expr

end BindingPower.Calc
