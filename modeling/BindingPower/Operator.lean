import BindingPower.Affix
import BindingPower.Precedence

/-! # Operators

What a grammar says about one token: a plain operator has one shape, a token with two
parts carries a descriptor for each. The parts decide how the token is parsed; the shape
of the whole is what it is shown and compared by. -/
namespace BindingPower

/-- `follow` lists the separators between the operands of a mixfix operator, in order. -/
structure Shape (φ : Type) where
  affix : Affix
  arity : Arity
  precedence : Precedence
  associativity : Associativity
  follow : List φ
  deriving DecidableEq

inductive Operator (φ : Type) where
  | single (shape : Shape φ)
  | dual (shape : Shape φ) (leading continuing : Operator φ)
  deriving DecidableEq

namespace Operator

variable {φ : Type}

def shape : Operator φ → Shape φ
  | single s => s
  | dual s _ _ => s

/-- The descriptor of a token that starts an expression. -/
def leading : Operator φ → Operator φ
  | single s => single s
  | dual _ l _ => l

/-- The descriptor of a token that continues an expression. -/
def continuing : Operator φ → Operator φ
  | single s => single s
  | dual _ _ c => c

def isDual : Operator φ → Bool
  | single _ => false
  | dual _ _ _ => true

def affix (op : Operator φ) : Affix := op.shape.affix
def arity (op : Operator φ) : Arity := op.shape.arity
def precedence (op : Operator φ) : Precedence := op.shape.precedence
def associativity (op : Operator φ) : Associativity := op.shape.associativity
def follow (op : Operator φ) : List φ := op.shape.follow

/-- Whether a separator is declared at an index; a negative index lies before every end. -/
def expects (op : Operator φ) (index : Int) : Bool := index < op.follow.length

/-- The operand count of a leading part that is not described on its own. -/
def impliedArity : Affix → Arity
  | .nilfix => .nullary
  | _ => .unary

/-- The operator of a shape. A composite affix without parts of its own implies them: the
leading part takes no separators, the continuing part takes all of them. -/
def ofShape (s : Shape φ) : Operator φ :=
  if s.affix.isComposite then
    dual s
      (single { s with
        affix := s.affix.leading, arity := impliedArity s.affix.leading, follow := [] })
      (single { s with affix := s.affix.continuing })
  else single s

def nilfix : Operator φ := single ⟨.nilfix, .nullary, .bottom, .left, []⟩

def interfix : Operator φ := single ⟨.interfix, .nullary, .bottom, .left, []⟩

def prefixed (p : Precedence) : Operator φ := single ⟨.prefixed, .unary, p, .left, []⟩

def postfixed (p : Precedence) : Operator φ := single ⟨.postfixed, .unary, p, .left, []⟩

def infixed (p : Precedence) (a : Associativity) : Operator φ := single ⟨.infixed, .binary, p, a, []⟩

def circumfix (p : Precedence) (closing : φ) : Operator φ :=
  single ⟨.circumfix, .unary, p, .left, [closing]⟩

/-- A mixfix operator with three operands. -/
def mixfix (affix : Affix) (p : Precedence) (follow : List φ) (a : Associativity) : Operator φ :=
  ofShape ⟨affix, .ternary, p, a, follow⟩

/-- A token that leads by one precedence and continues by another. -/
def prefixedOrInfixed (p q : Precedence) (a : Associativity) : Operator φ :=
  dual ⟨.prefixedOrInfixed, .binary, q, a, []⟩ (prefixed p) (infixed q a)

/-- A token that is an operand where an expression starts. -/
def nilfixOrInfixed (q : Precedence) (a : Associativity) : Operator φ :=
  dual ⟨.nilfixOrInfixed, .binary, q, a, []⟩ nilfix (infixed q a)

inductive EitherError where
  | incompatible (first second : Affix)
  | sameRole (affix : Affix)
  deriving DecidableEq

def EitherError.message : EitherError → String
  | incompatible a b => Affix.combineMessage a b
  | sameRole a => "Both ops are " ++ a.label ++ "; a token has one op per role"

/-- The operator of a token that leads by one descriptor and continues by the other. It shows
the shape of the continuing one. -/
def either (first second : Operator φ) : Except EitherError (Operator φ) :=
  match Affix.combine? first.affix second.affix with
  | none => .error (.incompatible first.affix second.affix)
  | some a =>
    match a.parts? with
    | none => .error (.sameRole a)
    | some (l, _) =>
      if first.affix = l then .ok (dual { second.shape with affix := a } first second)
      else .ok (dual { first.shape with affix := a } second first)

theorem either_prefixed_infixed (p q : Precedence) (a : Associativity) :
    either (φ := φ) (prefixed p) (infixed q a) = .ok (prefixedOrInfixed p q a) := rfl

theorem either_nilfix_infixed (q : Precedence) (a : Associativity) :
    either (φ := φ) nilfix (infixed q a) = .ok (nilfixOrInfixed q a) := rfl

/-- Operators are the same when their shapes are; the parts do not count. -/
def same [DecidableEq φ] (a b : Operator φ) : Bool := a.shape = b.shape

/-- The power with which a continuation grips the operand on its left. -/
def leftPower (op : Operator φ) : Precedence :=
  match op.continuing.affix with
  | .postfixed => op.continuing.precedence.normalize
  | .infixed => op.continuing.precedence.normalize
  | _ => .bottom

/-- The power below which the next continuation has to stay. -/
def nextPower (op : Operator φ) : Precedence :=
  match op.affix with
  | .infixed =>
    match op.associativity with
    | .neither => op.precedence.normalize
    | _ => op.precedence.normalize.raise
  | _ => .top

/-- The power with which a continuation grips the operand on its right. -/
def rightPower (op : Operator φ) : Precedence :=
  match op.associativity with
  | .left => op.precedence.normalize
  | .right => op.precedence.normalize.lower
  | .neither => op.precedence.normalize.raise

/-- The power with which a prefix or circumfix operator grips its last operand. -/
def operandPower (op : Operator φ) : Precedence := op.precedence.normalize.lower

@[simp] theorem leading_single (s : Shape φ) : (single s).leading = single s := rfl

@[simp] theorem continuing_single (s : Shape φ) : (single s).continuing = single s := rfl

@[simp] theorem leading_dual (s : Shape φ) (l c : Operator φ) : (dual s l c).leading = l := rfl

@[simp] theorem continuing_dual (s : Shape φ) (l c : Operator φ) :
    (dual s l c).continuing = c := rfl

theorem same_iff [DecidableEq φ] (a b : Operator φ) : a.same b = true ↔ a.shape = b.shape := by
  simp [same]

end Operator

end BindingPower
