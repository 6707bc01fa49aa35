import BindingPower.Grammar

/-! # Precedence climbing

An operand is read by its first token and then, as long as the powers allow it, by the tokens
that continue it. Every operand is one level deeper than the operator it belongs to, and a run
that a callback starts is `reentryCost` levels deeper still. Once the configured depth is
reached, no operand is read. -/
namespace BindingPower

/-- The levels charged for a run that a callback starts. -/
def reentryCost : Nat := 2

/-- The outermost run is free of charge. -/
def charge (depth : Nat) : Nat := if depth = 0 then 0 else reentryCost

/-- The failure that a callback's failure becomes: a report passes unchanged. -/
def contain {τ φ ε : Type} (limit depth : Nat) : Failure τ φ ε → Failure τ φ ε
  | .report r => .report r
  | .exhausted => .report (.nestingTooDeep limit (some depth))
  | .other c => .report (.userError c)

/-- Carries out the requests of a callback, given how a run is made. -/
def Callback.perform {τ φ ν ε α : Type}
    (enter : Goal → Option (StopTest τ φ ε) → Run τ φ ν ε ν) :
    Callback τ φ ν ε α → Run τ φ ν ε α
  | .value a => pure a
  | .fail f => throw f
  | .parse q next => do
    let (v, c) ← Run.within q.source (enter q.goal q.stop)
    (next v c).perform enter
  | .take next => do
    let t ← Run.readingMain Cursor.next
    (next t).perform enter

theorem Callback.perform_ofExcept {τ φ ν ε α : Type}
    (enter : Goal → Option (StopTest τ φ ε) → Run τ φ ν ε ν) (r : Except (Failure τ φ ε) α) :
    (Callback.ofExcept r).perform enter = Run.ofExcept r := by
  cases r <;> rfl

namespace Parser

variable {τ φ ν ε α : Type}

/-- Makes a call: it is recorded, and a failure of its callback is recorded and contained. -/
def calling (p : Parser τ φ ν ε) (call : Call τ φ ν) (body : Run τ φ ν ε α) : Run τ φ ν ε α := do
  Run.record (.called call)
  Run.catching (contain p.config.maxDepth) body

/-- A stop predicate as it is asked, given how the runs of its callback are made. -/
def asking (p : Parser τ φ ν ε) (enter : Goal → Option (StopTest τ φ ε) → Run τ φ ν ε ν)
    (stop : Option (Stop τ φ ν ε)) : Option (τ → Run τ φ ν ε Bool) :=
  stop.map fun test t => p.calling (.stop t) ((test t).perform enter)

/-- Reads towards a goal: the levels of the run are charged while its operand is read, and a
whole expression has to end the stream if the configuration asks for that. -/
def entering (p : Parser τ φ ν ε) (operand : Precedence → Run τ φ ν ε ν) (goal : Goal) :
    Run τ φ ν ε ν := do
  let levels := charge (← get).depth
  let node ← Run.deeper levels (.entered levels) (.left levels)
    (match Precedence.ofInt? goal.floor with
    | none => throw (.other (.precedenceRange goal.floor))
    | some rbp => operand rbp)
  if goal = .whole ∧ p.config.requireEnd = true then
    match ← Run.reading Cursor.peek with
    | none => pure node
    | some t => Run.report (.trailingInput t)
  else pure node

end Parser

/-- The next token, unless the stream ends or a stop predicate keeps the parser before it. -/
def visible {τ φ ν ε : Type} (stop : Option (τ → Run τ φ ν ε Bool)) : Run τ φ ν ε (Option τ) := do
  match ← Run.reading Cursor.peek with
  | none => pure none
  | some t =>
    match stop with
    | none => pure (some t)
    | some ask => if ← ask t then pure none else pure (some t)

def consume {τ φ ν ε : Type} : Run τ φ ν ε Unit := do
  let _ ← Run.reading Cursor.next

/-- Reads an operand by its first token, which has to be there. -/
def startingAt {τ φ ν ε : Type} (stop : Option (τ → Run τ φ ν ε Bool)) (body : τ → Run τ φ ν ε ν) :
    Run τ φ ν ε ν := do
  match ← visible stop with
  | none => Run.report .emptyInput
  | some t => body t

/-- What the reading of one operand depends on: how a callback's run is made, which tokens
are out of reach, and how the operands of an operator are read. -/
structure Frame (τ φ ν ε : Type) where
  parser : Parser τ φ ν ε
  enter : Goal → Option (StopTest τ φ ε) → Run τ φ ν ε ν
  stop : Option (Stop τ φ ν ε)
  operand : Precedence → Run τ φ ν ε ν

namespace Frame

variable {τ φ ν ε α : Type}

def call (f : Frame τ φ ν ε) (call : Call τ φ ν) (callback : Callback τ φ ν ε α) : Run τ φ ν ε α :=
  f.parser.calling call (callback.perform f.enter)

def query (f : Frame τ φ ν ε) (t : τ) : Run τ φ ν ε (Operator φ) :=
  f.call (.query t) (f.parser.grammar.query t)

def nullary (f : Frame τ φ ν ε) (t : τ) : Run τ φ ν ε ν :=
  f.call (.nullary t) (f.parser.grammar.nullary t)

def unary (f : Frame τ φ ν ε) (t : τ) (x : ν) : Run τ φ ν ε ν :=
  f.call (.unary t x) (f.parser.grammar.unary t x)

def binary (f : Frame τ φ ν ε) (t : τ) (l r : ν) : Run τ φ ν ε ν :=
  f.call (.binary t l r) (f.parser.grammar.binary t l r)

def ternary (f : Frame τ φ ν ε) (t : τ) (a b c : ν) : Run τ φ ν ε ν :=
  f.call (.ternary t a b c) (f.parser.grammar.ternary t a b c)

def isFollow (f : Frame τ φ ν ε) (t : τ) (expected : φ) : Run τ φ ν ε Bool :=
  f.call (.isFollow t expected) (f.parser.grammar.isFollow t expected)

def visible (f : Frame τ φ ν ε) : Run τ φ ν ε (Option τ) :=
  BindingPower.visible (f.parser.asking f.enter f.stop)

/-- Whether a token can stand where a separator may. Without a declared mark only a token that
is a separator and nothing else does. -/
def separates (f : Frame τ φ ν ε) (expected : Option φ) (t : τ) : Run τ φ ν ε Bool := do
  let affix := (← f.query t).affix
  match expected with
  | none => pure (decide (affix = .interfix))
  | some mark => if affix.isSeparator then f.isFollow t mark else pure false

/-- A declared separator may be left out unless the configuration is strict. -/
def missing (f : Frame τ φ ν ε) (expected : Option φ) (found : Option τ) :
    Run τ φ ν ε (Option τ) :=
  match expected with
  | none => pure none
  | some mark =>
    if f.parser.config.strictInterfix then Run.report (.missingInterfix (some mark) found)
    else pure none

/-- Consumes the separator at this place if it is next. -/
def eatSeparator (f : Frame τ φ ν ε) (expected : Option φ) : Run τ φ ν ε (Option τ) := do
  match ← f.visible with
  | none => f.missing expected none
  | some t =>
    if ← f.separates expected t then
      Run.record (.separator t)
      consume
      pure (some t)
    else f.missing expected (some t)

/-- Reads the expression that `head` starts. -/
def nud (f : Frame τ φ ν ε) (head : τ) (op : Operator φ) : Run τ φ ν ε ν := do
  let op := op.leading
  Run.record (.leading op.affix op.arity head)
  match op.affix, op.arity with
  | .nilfix, .nullary => f.nullary head
  | .prefixed, .unary => do
    let x ← f.operand op.operandPower
    f.unary head x
  | .prefixed, .ternary => do
    let a ← f.operand .bottom
    let _ ← f.eatSeparator op.follow[0]?
    let b ← f.operand .bottom
    let _ ← f.eatSeparator op.follow[1]?
    let c ← f.operand op.operandPower
    f.ternary head a b c
  | .circumfix, .unary => do
    let x ← f.operand op.operandPower
    let _ ← f.eatSeparator op.follow[0]?
    f.unary head x
  | .postfixed, _ => Run.report (.misfit .postfixed head)
  | .infixed, _ => Run.report (.misfit .infixed head)
  | .interfix, _ => Run.report (.misfit .interfix head)
  | affix, arity => Run.report (.unexpectedArity head affix arity)

/-- Reads what `head` adds to the expression `lhs`. -/
def led (f : Frame τ φ ν ε) (head : τ) (op : Operator φ) (lhs : ν) : Run τ φ ν ε ν := do
  let op := op.continuing
  Run.record (.continuing op.affix op.arity head)
  match op.affix, op.arity with
  | .postfixed, .unary => f.unary head lhs
  | .infixed, .binary => do
    let r ← f.operand op.rightPower
    f.binary head lhs r
  | .postfixed, .ternary | .infixed, .ternary => do
    let b ← f.operand .bottom
    let _ ← f.eatSeparator op.follow[0]?
    let c ← f.operand op.rightPower
    f.ternary head lhs b c
  | .nilfix, _ => Run.report (.misfit .nilfix head)
  | .prefixed, _ => Run.report (.misfit .prefixed head)
  | .circumfix, _ | .interfix, _ => Run.report (.misfit .interfix head)
  | affix, arity => Run.report (.unexpectedArity head affix arity)

/-- Continues an expression while the powers admit it, for at most `fuel` continuations. -/
def continued (f : Frame τ φ ν ε) (rbp : Precedence) :
    (fuel : Nat) → (nbp : Precedence) → (lhs : ν) → Run τ φ ν ε ν
  | 0, _, lhs => pure lhs
  | fuel + 1, nbp, lhs => do
    match ← f.visible with
    | none => pure lhs
    | some t =>
      let op ← f.query t
      if f.parser.admits rbp op.leftPower nbp then
        consume
        let node ← f.led t op.continuing lhs
        f.continued rbp fuel op.continuing.nextPower node
      else pure lhs

/-- Reads an operand whose first token is next. Each continuation consumes a token, so there
are no more of them than tokens left. -/
def climb (f : Frame τ φ ν ε) (rbp : Precedence) (head : τ) : Run τ φ ν ε ν := do
  consume
  let op ← f.query head
  let node ← f.nud head op.leading
  f.continued rbp (← get).cursor.remaining op.leading.nextPower node

end Frame

/-- Reads an operand whose first token is next. -/
abbrev Operand (τ φ ν ε : Type) :=
  Option (Stop τ φ ν ε) → Precedence → τ → Run τ φ ν ε ν

namespace Parser

variable {τ φ ν ε : Type}

/-- How a run of a callback is made where its operand is read by `inner`. -/
def reentry (p : Parser τ φ ν ε) (inner : Operand τ φ ν ε) (goal : Goal)
    (stop : Option (StopTest τ φ ε)) : Run τ φ ν ε ν :=
  p.entering
    (fun rbp =>
      startingAt (stop.map fun test t => p.calling (.stop t) (Run.ofExcept (test t)))
        (inner (stop.map StopTest.toStop) rbp))
    goal

/-- The frame of an operand: `inner` reads for callbacks and `below` for operators. -/
def frame (p : Parser τ φ ν ε) (inner below : Operand τ φ ν ε) (stop : Option (Stop τ φ ν ε)) :
    Frame τ φ ν ε where
  parser := p
  enter := p.reentry inner
  stop := stop
  operand rbp := startingAt (p.asking (p.reentry inner) stop) (below stop rbp)

/-- One level of nesting. -/
def level (p : Parser τ φ ν ε) (inner below : Operand τ φ ν ε) : Operand τ φ ν ε :=
  fun stop rbp head => Run.deeper 1 .opened .closed ((p.frame inner below stop).climb rbp head)

/-- Reads an operand with `room` levels left. The operands of its operators have one level
less, and the runs of its callbacks have `reentryCost` levels less than those. -/
def operandIn (p : Parser τ φ ν ε) : (room : Nat) → Operand τ φ ν ε
  | 0, _, _, _ => Run.report (.nestingTooDeep p.config.maxDepth none)
  | 1, stop, rbp, head => p.level (p.operandIn 0) (p.operandIn 0) stop rbp head
  | 2, stop, rbp, head => p.level (p.operandIn 0) (p.operandIn 1) stop rbp head
  | 3, stop, rbp, head => p.level (p.operandIn 0) (p.operandIn 2) stop rbp head
  | n + 4, stop, rbp, head => p.level (p.operandIn (n + 1)) (p.operandIn (n + 3)) stop rbp head

theorem operandIn_zero (p : Parser τ φ ν ε) (stop : Option (Stop τ φ ν ε)) (rbp : Precedence)
    (head : τ) :
    p.operandIn 0 stop rbp head = Run.report (.nestingTooDeep p.config.maxDepth none) := rfl

theorem operandIn_succ (p : Parser τ φ ν ε) (n : Nat) :
    p.operandIn (n + 1) = p.level (p.operandIn (n - reentryCost)) (p.operandIn n) := by
  match n with
  | 0 => rfl
  | 1 => rfl
  | 2 => rfl
  | n + 3 => rfl

end Parser

end BindingPower
