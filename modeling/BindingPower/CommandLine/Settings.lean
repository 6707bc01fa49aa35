import BindingPower.CommandLine.Option
import BindingPower.Text.Numeral

/-! # Command-line settings

What a command line asks for: one expression and the options in force, where the last value
of an option counts. Help and version are answered as soon as they are met. -/
namespace BindingPower.CommandLine

/-- The depth is missing where two dashes were given in its place. -/
structure Settings where
  tokens : Bool
  source : Bool
  strict : Bool
  requireEnd : Bool
  maxDepth : Option Int
  verbose : Bool
  deriving DecidableEq

def Settings.standard : Settings := ⟨false, false, false, false, some 200, false⟩

/-- Why there are no settings to go by. -/
inductive Halt where
  | help
  | version
  | usage (e : UsageError)
  deriving DecidableEq

structure Invocation where
  expression : String
  settings : Settings
  deriving DecidableEq

/-- Arguments read so far; `extras` are those that nothing takes, the latest first. -/
structure Reading where
  expression : Option String
  settings : Settings
  extras : List String

/-- Puts an option that takes no value into force. -/
def Settings.apply (s : Settings) : Flag → Except Halt Settings
  | .help => .error .help
  | .version => .error .version
  | .tokens => .ok { s with tokens := true }
  | .source => .ok { s with source := true }
  | .strict => .ok { s with strict := true }
  | .requireEnd => .ok { s with requireEnd := true }
  | .verbose => .ok { s with verbose := true }
  | .maxDepth => .error (.usage (.expectedValue .maxDepth))

def Settings.applyValue (s : Settings) (flag : Flag) (text : String) : Except Halt Settings :=
  match Text.Numeral.read text with
  | .ok n => .ok { s with maxDepth := some n }
  | .error _ => .error (.usage (.invalidInteger flag text))

/-- The options of a cluster of short ones behind a first one: each letter is an option, and
one that takes no value has no other rest than more letters. -/
def cluster (flag : Flag) : List Char → Except UsageError (List Flag)
  | [] => .ok [flag]
  | c :: cs =>
    match flagOf? ['-', c] with
    | none => .error (.ignoredValue flag (String.ofList (c :: cs)))
    | some next => (cluster next cs).map (flag :: ·)

/-- Puts an option with a value after an equals sign, or a cluster, into force. Two dashes are
not taken as a value there. -/
def Settings.applyGiven (s : Settings) (spelling : String) (flag : Flag) (value : String) :
    Except Halt Settings :=
  if flag.takesValue then
    if value = "--" then .ok { s with maxDepth := none } else s.applyValue flag value
  else if "--".toList.isPrefixOf spelling.toList || value = "" then
    .error (.usage (.ignoredValue flag value))
  else
    match cluster flag value.toList with
    | .error e => .error (.usage e)
    | .ok flags => flags.foldlM Settings.apply s

/-- Takes the arguments one by one. The first positional one is the expression; two dashes
that stand beside it go with it. -/
def take : List Argument → Reading → Except Halt Reading
  | [], r => .ok r
  | .positional a :: .separator :: rest, r =>
    match r.expression with
    | none => take rest { r with expression := some a }
    | some _ => take rest { r with extras := "--" :: a :: r.extras }
  | .positional a :: rest, r =>
    match r.expression with
    | none => take rest { r with expression := some a }
    | some _ => take rest { r with extras := a :: r.extras }
  | .separator :: .positional a :: rest, r =>
    match r.expression with
    | none => take rest { r with expression := some a }
    | some _ => take rest { r with extras := a :: "--" :: r.extras }
  | .separator :: rest, r => take rest { r with extras := "--" :: r.extras }
  | .unknown a :: rest, r => take rest { r with extras := a :: r.extras }
  | .option spelling flag (some value) :: rest, r => do
    let s ← r.settings.applyGiven spelling flag value
    take rest { r with settings := s }
  | .option _ .maxDepth none :: .positional value :: rest, r => do
    let s ← r.settings.applyValue .maxDepth value
    take rest { r with settings := s }
  | .option _ flag none :: rest, r => do
    let s ← r.settings.apply flag
    take rest { r with settings := s }

/-- Reads a command line. That the expression is missing is told before what is left over. -/
def readArguments (argv : List String) : Except Halt Invocation :=
  match classify argv with
  | .error e => .error (.usage e)
  | .ok arguments =>
    match take arguments ⟨none, .standard, []⟩ with
    | .error h => .error h
    | .ok r =>
      match r.expression, r.extras.reverse with
      | none, _ => .error (.usage .missingExpression)
      | some e, [] => .ok ⟨e, r.settings⟩
      | some _, extras => .error (.usage (.unrecognized extras))

end BindingPower.CommandLine
