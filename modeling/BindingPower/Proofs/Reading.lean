import BindingPower.Parse

/-! # Readings

What a run comes to where its stream is a list of tokens and the callbacks are answered at
once. The state of a reading is the list of tokens that are left; there is no log, and the
depth is told apart from it. -/
namespace BindingPower

variable {τ φ ν ε α β σ : Type}

/-- The answers of the callbacks, with their failures contained. -/
structure Rules (τ φ ν ε : Type) where
  query : τ → Except (Failure τ φ ε) (Operator φ)
  nullary : τ → Except (Failure τ φ ε) ν
  unary : τ → ν → Except (Failure τ φ ε) ν
  binary : τ → ν → ν → Except (Failure τ φ ε) ν
  ternary : τ → ν → ν → ν → Except (Failure τ φ ε) ν
  isFollow : τ → φ → Except (Failure τ φ ε) Bool

abbrev Reading (τ φ ε : Type) := EStateM (Failure τ φ ε) (List τ)

namespace Reading

def answer : Except (Failure τ φ ε) α → Reading τ φ ε α
  | .ok a => pure a
  | .error f => throw f

def report (r : Report τ φ ε) : Reading τ φ ε α := throw (.report r)

/-- No token to stop at. -/
def never : τ → Bool := fun _ => false

/-- The next token, unless there is none or it is one to stop at. -/
def visible (stop : τ → Bool) : Reading τ φ ε (Option τ) := fun ts =>
  .ok (ts.head?.filter fun t => !stop t) ts

theorem visible_never : (visible never : Reading τ φ ε (Option τ)) = fun ts => .ok ts.head? ts := by
  funext ts
  cases ts <;> rfl

def consume : Reading τ φ ε Unit := fun ts => .ok () ts.tail

def startingAt (stop : τ → Bool) (body : τ → Reading τ φ ε ν) : Reading τ φ ε ν := do
  match ← visible stop with
  | none => report .emptyInput
  | some t => body t

/-- Reads an operand that binds tighter than a number, which has to be a precedence. -/
def above (operand : Precedence → Reading τ φ ε ν) (rbp : Int) : Reading τ φ ε ν :=
  match Precedence.ofInt? rbp with
  | none => throw (.other (.precedenceRange rbp))
  | some p => operand p

end Reading

/-- What the reading of one operand depends on. -/
structure Reader (τ φ ν ε : Type) where
  strict : Bool
  admits : Precedence → Precedence → Precedence → Bool
  rules : Rules τ φ ν ε
  stop : τ → Bool
  operand : Precedence → Reading τ φ ε ν

namespace Reader

def separates (r : Reader τ φ ν ε) (expected : Option φ) (t : τ) : Reading τ φ ε Bool := do
  let affix := (← Reading.answer (r.rules.query t)).affix
  match expected with
  | none => pure (decide (affix = .interfix))
  | some mark => if affix.isSeparator then Reading.answer (r.rules.isFollow t mark) else pure false

def missing (r : Reader τ φ ν ε) (expected : Option φ) (found : Option τ) :
    Reading τ φ ε (Option τ) :=
  match expected with
  | none => pure none
  | some mark =>
    if r.strict then Reading.report (.missingInterfix (some mark) found) else pure none

def eatSeparator (r : Reader τ φ ν ε) (expected : Option φ) : Reading τ φ ε (Option τ) := do
  match ← Reading.visible r.stop with
  | none => r.missing expected none
  | some t =>
    if ← r.separates expected t then
      Reading.consume
      pure (some t)
    else r.missing expected (some t)

def nud (r : Reader τ φ ν ε) (head : τ) (op : Operator φ) : Reading τ φ ε ν := do
  let op := op.leading
  match op.affix, op.arity with
  | .nilfix, .nullary => Reading.answer (r.rules.nullary head)
  | .prefixed, .unary => do
    let x ← r.operand op.operandPower
    Reading.answer (r.rules.unary head x)
  | .prefixed, .ternary => do
    let a ← r.operand .bottom
    let _ ← r.eatSeparator op.follow[0]?
    let b ← r.operand .bottom
    let _ ← r.eatSeparator op.follow[1]?
    let c ← r.operand op.operandPower
    Reading.answer (r.rules.ternary head a b c)
  | .circumfix, .unary => do
    let x ← r.operand op.operandPower
    let _ ← r.eatSeparator op.follow[0]?
    Reading.answer (r.rules.unary head x)
  | .postfixed, _ => Reading.report (.misfit .postfixed head)
  | .infixed, _ => Reading.report (.misfit .infixed head)
  | .interfix, _ => Reading.report (.misfit .interfix head)
  | affix, arity => Reading.report (.unexpectedArity head affix arity)

def led (r : Reader τ φ ν ε) (head : τ) (op : Operator φ) (lhs : ν) : Reading τ φ ε ν := do
  let op := op.continuing
  match op.affix, op.arity with
  | .postfixed, .unary => Reading.answer (r.rules.unary head lhs)
  | .infixed, .binary => do
    let x ← r.operand op.rightPower
    Reading.answer (r.rules.binary head lhs x)
  | .postfixed, .ternary | .infixed, .ternary => do
    let b ← r.operand .bottom
    let _ ← r.eatSeparator op.follow[0]?
    let c ← r.operand op.rightPower
    Reading.answer (r.rules.ternary head lhs b c)
  | .nilfix, _ => Reading.report (.misfit .nilfix head)
  | .prefixed, _ => Reading.report (.misfit .prefixed head)
  | .circumfix, _ | .interfix, _ => Reading.report (.misfit .interfix head)
  | affix, arity => Reading.report (.unexpectedArity head affix arity)

/-- Continues an expression; there are never more continuations than tokens left. -/
def continued (r : Reader τ φ ν ε) (rbp : Precedence) :
    (fuel : Nat) → (nbp : Precedence) → (lhs : ν) → Reading τ φ ε ν
  | 0, _, lhs => pure lhs
  | fuel + 1, nbp, lhs => do
    match ← Reading.visible r.stop with
    | none => pure lhs
    | some t =>
      let op ← Reading.answer (r.rules.query t)
      if r.admits rbp op.leftPower nbp then
        Reading.consume
        let node ← r.led t op.continuing lhs
        r.continued rbp fuel op.continuing.nextPower node
      else pure lhs

def climb (r : Reader τ φ ν ε) (rbp : Precedence) (head : τ) : Reading τ φ ε ν := do
  Reading.consume
  let op ← Reading.answer (r.rules.query head)
  let node ← r.nud head op.leading
  r.continued rbp (← get).length op.leading.nextPower node

end Reader

/-- How a grammar is read: its rules depend on the depth and on how the runs that its callbacks
start are read, each at a depth of its own. -/
structure Scheme (τ φ ν ε : Type) where
  config : Config
  admits : Precedence → Precedence → Precedence → Bool
  rules : (depth : Nat) → (inner : Precedence → Reading τ φ ε ν) → Rules τ φ ν ε

namespace Scheme

def reader (g : Scheme τ φ ν ε) (depth : Nat) (inner : Precedence → Reading τ φ ε ν)
    (stop : τ → Bool) (below : Precedence → τ → Reading τ φ ε ν) : Reader τ φ ν ε where
  strict := g.config.strictInterfix
  admits := g.admits
  rules := g.rules depth inner
  stop := stop
  operand rbp := Reading.startingAt stop (below rbp)

/-- Reads an operand that lies `depth` levels deep, its head being next, with `room` levels left. -/
def operandIn (g : Scheme τ φ ν ε) (room depth : Nat) (stop : τ → Bool) (rbp : Precedence)
    (head : τ) : Reading τ φ ε ν :=
  match room with
  | 0 => Reading.report (.nestingTooDeep g.config.maxDepth none)
  | n + 1 =>
    (g.reader (depth + 1)
      (fun p => Reading.startingAt Reading.never fun t =>
        g.operandIn (n - reentryCost) (depth + 1 + reentryCost) Reading.never p t)
      stop (fun p t => g.operandIn n (depth + 1) stop p t)).climb rbp head
termination_by room

/-- Reads an operand with `room` levels left, if there is one. -/
def operand (g : Scheme τ φ ν ε) (room depth : Nat) (stop : τ → Bool) (rbp : Precedence) :
    Reading τ φ ε ν := Reading.startingAt stop (g.operandIn room depth stop rbp)

/-- The reader of the operand's own level. -/
def readerIn (g : Scheme τ φ ν ε) (room depth : Nat) (stop : τ → Bool) : Reader τ φ ν ε :=
  g.reader (depth + 1) (g.operand (room - reentryCost) (depth + 1 + reentryCost) Reading.never) stop
    (g.operandIn room (depth + 1) stop)

theorem operandIn_zero (g : Scheme τ φ ν ε) (depth : Nat) (stop : τ → Bool) (rbp : Precedence)
    (head : τ) :
    g.operandIn 0 depth stop rbp head = Reading.report (.nestingTooDeep g.config.maxDepth none) := by
  rw [operandIn]

theorem operandIn_succ (g : Scheme τ φ ν ε) (room depth : Nat) (stop : τ → Bool)
    (rbp : Precedence) (head : τ) :
    g.operandIn (room + 1) depth stop rbp head = (g.readerIn room depth stop).climb rbp head := by
  rw [operandIn]
  rfl

/-- Reads towards a goal, given how an operand is read. -/
def entered (g : Scheme τ φ ν ε) (operand : Precedence → Reading τ φ ε ν) (goal : Goal) :
    Reading τ φ ε ν := do
  let node ← Reading.above operand goal.floor
  if goal = .whole ∧ g.config.requireEnd = true then
    match ← Reading.visible Reading.never with
    | none => pure node
    | some t => Reading.report (.trailingInput t)
  else pure node

def parseInput (g : Scheme τ φ ν ε) (depth : Nat) (rbp : Precedence) (stop : τ → Bool) :
    Reading τ φ ε ν := g.operand (g.config.maxDepth - depth) depth stop rbp

def parseUntil (g : Scheme τ φ ν ε) (depth : Nat) (rbp : Int) (stop : τ → Bool) :
    Reading τ φ ε ν :=
  g.entered (fun r => g.parseInput (depth + charge depth) r stop) (.above rbp)

def parse (g : Scheme τ φ ν ε) (depth : Nat) : Reading τ φ ε ν :=
  g.entered (fun r => g.parseInput (depth + charge depth) r Reading.never) .whole

end Scheme

end BindingPower
