/-! # Parser configuration

How strictly a parser treats its input: whether a declared separator must be there, whether
the whole input must be read, and how many levels an expression may nest. -/
namespace BindingPower

structure Config where
  strictInterfix : Bool
  requireEnd : Bool
  maxDepth : Nat
  maxDepth_pos : 0 < maxDepth
  deriving DecidableEq

namespace Config

def standard : Config := ⟨false, false, 200, by omega⟩

def ofDepth? (strictInterfix requireEnd : Bool) (maxDepth : Int) : Option Config :=
  if h : 0 < maxDepth then some ⟨strictInterfix, requireEnd, maxDepth.toNat, by omega⟩ else none

theorem ofDepth?_isSome_iff (s e : Bool) (d : Int) : (ofDepth? s e d).isSome ↔ 0 < d := by
  unfold ofDepth?
  split <;> simp_all

/-- The wording for a depth that no configuration has. -/
def depthMessage (given : Int) : String := "max_depth must be positive, got " ++ toString given

def truth (b : Bool) : String := if b then "True" else "False"

def text (c : Config) : String :=
  "ParserConfig(strict_interfix=" ++ truth c.strictInterfix ++ ", require_end=" ++
    truth c.requireEnd ++ ", max_depth=" ++ toString c.maxDepth ++ ")"

end Config

end BindingPower
