import BindingPower.Climbing

/-! # Parsing

The entry points of a parser. Each starts at the depth that the session has reached, and
brings the session back to that depth. -/
namespace BindingPower

namespace Parser

variable {τ φ ν ε : Type}

/-- How the runs of callbacks read their operands at a given depth. -/
def innerAt (p : Parser τ φ ν ε) (depth : Nat) : Operand τ φ ν ε :=
  p.operandIn (p.config.maxDepth - (depth + charge depth))

/-- The frame in which a parser reads at a given depth. -/
def frameAt (p : Parser τ φ ν ε) (depth : Nat) (stop : Option (Stop τ φ ν ε)) : Frame τ φ ν ε :=
  p.frame (p.innerAt depth) (p.operandIn (p.config.maxDepth - depth)) stop

/-- Carries out a callback on its own; a failure of it is not contained. -/
def answer {α : Type} (p : Parser τ φ ν ε) (callback : Callback τ φ ν ε α) : Run τ φ ν ε α := do
  callback.perform (p.reentry (p.innerAt (← get).depth))

/-- Reads the part of the stream that binds tighter than a precedence. -/
def parseInput (p : Parser τ φ ν ε) (rbp : Precedence) (stop : Option (Stop τ φ ν ε)) :
    Run τ φ ν ε ν := do
  (p.frameAt (← get).depth stop).operand rbp

/-- Reads the part of the stream that binds tighter than a number. -/
def parseUntil (p : Parser τ φ ν ε) (rbp : Int) (stop : Option (Stop τ φ ν ε)) :
    Run τ φ ν ε ν :=
  p.entering (fun r => p.parseInput r stop) (.above rbp)

/-- Reads an expression, and nothing may follow it if the configuration says so. -/
def parse (p : Parser τ φ ν ε) : Run τ φ ν ε ν :=
  p.entering (fun r => p.parseInput r none) .whole

/-- Reads an expression from a source of its own. -/
def parseItems (p : Parser τ φ ν ε) (items : List (Item τ ε)) : Run τ φ ν ε ν := do
  let (node, _) ← Run.within (some (Cursor.ofItems items)) p.parse
  pure node

def nud (p : Parser τ φ ν ε) (head : τ) (op : Operator φ) (stop : Option (Stop τ φ ν ε)) :
    Run τ φ ν ε ν := do
  (p.frameAt (← get).depth stop).nud head op

def led (p : Parser τ φ ν ε) (head : τ) (op : Operator φ) (lhs : ν)
    (stop : Option (Stop τ φ ν ε)) : Run τ φ ν ε ν := do
  (p.frameAt (← get).depth stop).led head op lhs

/-- The mark at an index of the follow set; a negative index counts from the end. -/
def follow? (op : Operator φ) (index : Int) : Option φ :=
  let i := if index < 0 then index + op.follow.length else index
  if i < 0 then none else op.follow[i.toNat]?

/-- Consumes the separator with an index if it is next. An index before the first mark has
none, and one after the last asks for a token that is a separator and nothing else. -/
def eatSeparator (p : Parser τ φ ν ε) (op : Operator φ) (index : Int)
    (stop : Option (Stop τ φ ν ε)) : Run τ φ ν ε (Option τ) := do
  let frame := p.frameAt (← get).depth stop
  if op.expects index then
    match follow? op index with
    | none => throw (.other (.followIndex index))
    | some mark => frame.eatSeparator (some mark)
  else frame.eatSeparator none

/-- The outcome of parsing a list of tokens from the start. -/
def parseTokens (p : Parser τ φ ν ε) (tokens : List τ) :
    EStateM.Result (Failure τ φ ε) (Session τ φ ν ε) ν :=
  p.parse (Session.start (Cursor.ofTokens tokens))

end Parser

end BindingPower
