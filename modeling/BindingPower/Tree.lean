import BindingPower.Grammar

/-! # Plain trees

The tree of an expression: every leaf and every node is the token it was read from. The
grammar that builds plain trees does nothing else, so that what it reads can be compared with
what any other grammar builds from the same operators. -/
namespace BindingPower

inductive Tree (τ : Type) where
  | leaf (token : τ)
  | unary (token : τ) (operand : Tree τ)
  | binary (token : τ) (left right : Tree τ)
  | ternary (token : τ) (first second third : Tree τ)
  deriving DecidableEq

namespace Tree

variable {τ φ ν ε : Type}

/-- The value of a tree under a builder for each kind of node. -/
def fold (leaf : τ → ν) (unary : τ → ν → ν) (binary : τ → ν → ν → ν)
    (ternary : τ → ν → ν → ν → ν) : Tree τ → ν
  | .leaf t => leaf t
  | .unary t x => unary t (x.fold leaf unary binary ternary)
  | .binary t l r =>
    binary t (l.fold leaf unary binary ternary) (r.fold leaf unary binary ternary)
  | .ternary t a b c =>
    ternary t (a.fold leaf unary binary ternary) (b.fold leaf unary binary ternary)
      (c.fold leaf unary binary ternary)

/-- The grammar that builds plain trees, given the operators of the tokens and what counts as
an expected separator. -/
def grammar (query : τ → Operator φ) (isFollow : τ → φ → Bool) : Grammar τ φ (Tree τ) ε where
  query t := .value (query t)
  nullary t := .value (leaf t)
  unary t x := .value (unary t x)
  binary t l r := .value (binary t l r)
  ternary t a b c := .value (ternary t a b c)
  isFollow t expected := .value (isFollow t expected)

theorem fold_self (t : Tree τ) : t.fold leaf unary binary ternary = t := by
  induction t with
  | leaf t => rfl
  | unary t x ih => simp only [fold, ih]
  | binary t l r ihl ihr => simp only [fold, ihl, ihr]
  | ternary t a b c iha ihb ihc => simp only [fold, iha, ihb, ihc]

end Tree

end BindingPower
