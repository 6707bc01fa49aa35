import BindingPower.Config
import BindingPower.Session

/-! # Grammars

A grammar classifies tokens and builds nodes. Each of its callbacks is a tree of requests: it
may have the parser read a group of tokens, or consume a token of the main stream, before it
ends in a value or a failure. A callback sees the results of its requests and nothing else of
the parser. -/
namespace BindingPower

/-- What a run is to read: a whole expression, or the part of one that binds tighter than a
given number. -/
inductive Goal where
  | whole
  | above (rbp : Int)
  deriving DecidableEq

def Goal.floor : Goal → Int
  | whole => 0
  | above n => n

/-- A predicate on tokens that may itself fail. -/
abbrev StopTest (τ φ ε : Type) := τ → Except (Failure τ φ ε) Bool

/-- A run that a callback asks for, on a stream of its own or on the main stream. -/
structure Request (τ φ ε : Type) where
  source : Option (Cursor τ ε)
  goal : Goal
  stop : Option (StopTest τ φ ε)

inductive Callback (τ φ ν ε α : Type) where
  | value (a : α)
  | fail (f : Failure τ φ ε)
  | parse (request : Request τ φ ε) (next : ν → Cursor τ ε → Callback τ φ ν ε α)
  | take (next : Option τ → Callback τ φ ν ε α)

namespace Callback

variable {τ φ ν ε α β : Type}

def bind : Callback τ φ ν ε α → (α → Callback τ φ ν ε β) → Callback τ φ ν ε β
  | value a, k => k a
  | fail f, _ => fail f
  | parse q next, k => parse q fun v c => (next v c).bind k
  | take next, k => take fun t => (next t).bind k

instance : Monad (Callback τ φ ν ε) where
  pure := value
  bind := bind

def report (r : Report τ φ ε) : Callback τ φ ν ε α := fail (.report r)

def fault (e : ε) : Callback τ φ ν ε α := fail (.other (.fault e))

def ofExcept : Except (Failure τ φ ε) α → Callback τ φ ν ε α
  | .ok a => value a
  | .error f => fail f

/-- Reads tokens as a stream of their own; the rest of the stream is part of the result. -/
def group (items : List (Item τ ε)) (goal : Goal) (stop : Option (StopTest τ φ ε)) :
    Callback τ φ ν ε (ν × Cursor τ ε) :=
  parse ⟨some (Cursor.ofItems items), goal, stop⟩ fun v c => value (v, c)

/-- Refuses what is left of a stream after a run. -/
def requireEnd (c : Cursor τ ε) : Callback τ φ ν ε Unit :=
  match c.peek.1 with
  | .error e => fault e
  | .ok none => value ()
  | .ok (some t) => report (.trailingInput t)

end Callback

structure Grammar (τ φ ν ε : Type) where
  query : τ → Callback τ φ ν ε (Operator φ)
  nullary : τ → Callback τ φ ν ε ν
  unary : τ → ν → Callback τ φ ν ε ν
  binary : τ → ν → ν → Callback τ φ ν ε ν
  ternary : τ → ν → ν → ν → Callback τ φ ν ε ν
  isFollow : τ → φ → Callback τ φ ν ε Bool

/-- The test by which a continuation is taken: it has to bind tighter than the floor of the
operand and looser than the operator before it allows. -/
def between (rbp lbp nbp : Precedence) : Bool := rbp < lbp && lbp < nbp

/-- `admits` is asked with the floor of the operand, the left power of the continuation and
the next power of the operator before it. -/
structure Parser (τ φ ν ε : Type) where
  config : Config
  grammar : Grammar τ φ ν ε
  admits : Precedence → Precedence → Precedence → Bool

def Parser.ofGrammar {τ φ ν ε : Type} (config : Config) (grammar : Grammar τ φ ν ε) :
    Parser τ φ ν ε := ⟨config, grammar, between⟩

/-- A predicate of the caller that keeps the parser in front of a token. -/
abbrev Stop (τ φ ν ε : Type) := τ → Callback τ φ ν ε Bool

def StopTest.toStop {τ φ ν ε : Type} (test : StopTest τ φ ε) : Stop τ φ ν ε :=
  fun t => Callback.ofExcept (test t)

end BindingPower
