import BindingPower.Text.Decimal
import BindingPower.Text.Quoted

/-! # Command-line options

The options of the program and how one argument is read as an option. A long option may be
cut short as long as it stays unambiguous, and a value may follow an equals sign. Negative
numbers, texts with a blank and a lone dash are no options. -/
namespace BindingPower.CommandLine

inductive Flag where
  | help
  | tokens
  | source
  | strict
  | requireEnd
  | maxDepth
  | verbose
  | version
  deriving DecidableEq

/-- The spellings of the options, in the order in which they are told. -/
def spellings : List (String × Flag) :=
  [("-h", .help), ("--help", .help), ("--tokens", .tokens), ("--source", .source),
    ("--strict", .strict), ("--require-end", .requireEnd), ("--max-depth", .maxDepth),
    ("-v", .verbose), ("--verbose", .verbose), ("--version", .version)]

/-- All spellings of an option, with slashes between them. -/
def Flag.title (f : Flag) : String :=
  "/".intercalate ((spellings.filter fun s => s.2 = f).map Prod.fst)

/-- Only the depth takes a value. -/
def Flag.takesValue (f : Flag) : Bool := f = .maxDepth

/-- What an argument is before the arguments around it are looked at. -/
inductive Argument where
  | positional (text : String)
  | separator
  | option (spelling : String) (flag : Flag) (value : Option String)
  | unknown (text : String)
  deriving DecidableEq

inductive UsageError where
  | missingExpression
  | unrecognized (arguments : List String)
  | ambiguous (text : String) (candidates : List String)
  | expectedValue (flag : Flag)
  | invalidInteger (flag : Flag) (text : String)
  | ignoredValue (flag : Flag) (text : String)
  deriving DecidableEq

def UsageError.message : UsageError → String
  | missingExpression => "the following arguments are required: expression"
  | unrecognized arguments => "unrecognized arguments: " ++ " ".intercalate arguments
  | ambiguous text candidates =>
    "ambiguous option: " ++ text ++ " could match " ++ ", ".intercalate candidates
  | expectedValue flag => "argument " ++ flag.title ++ ": expected one argument"
  | invalidInteger flag text =>
    "argument " ++ flag.title ++ ": invalid int value: " ++ Text.quoted text
  | ignoredValue flag text =>
    "argument " ++ flag.title ++ ": ignored explicit argument " ++ Text.quoted text

/-- An argument before and behind its first equals sign. -/
def splitValue (cs : List Char) : List Char × Option (List Char) :=
  match cs.dropWhile (· ≠ '=') with
  | [] => (cs, none)
  | _ :: value => (cs.takeWhile (· ≠ '='), some value)

/-- Digits, or a decimal fraction that may lack the digits before its point. -/
def isUnsignedNumber (cs : List Char) : Bool :=
  let more := cs.dropWhile Text.isDecimal
  match more with
  | [] => !cs.isEmpty
  | c :: fraction => c = '.' && !fraction.isEmpty && fraction.all Text.isDecimal

/-- A final newline does not matter. -/
def isNegativeNumber (cs : List Char) : Bool :=
  match cs with
  | '-' :: number =>
    isUnsignedNumber number ||
      (number.getLast? = some '\n' && isUnsignedNumber number.dropLast)
  | _ => false

/-- The options that an inexact spelling may stand for, each with the value it then has. A
long one stands for all that it starts; the first letter of a short one is an option and the
rest its value. -/
def candidates (cs : List Char) : List (String × Flag × Option String) :=
  match cs with
  | '-' :: '-' :: _ =>
    let (stem, value) := splitValue cs
    (spellings.filter fun s => stem.isPrefixOf s.1.toList).map fun s =>
      (s.1, s.2, value.map String.ofList)
  | '-' :: letter :: value =>
    (spellings.filter fun s => s.1.toList = ['-', letter] || cs.isPrefixOf s.1.toList).map fun s =>
      (s.1, s.2, if s.1.toList = ['-', letter] then some (String.ofList value) else none)
  | _ => []

def flagOf? (cs : List Char) : Option Flag := spellings.lookup (String.ofList cs)

/-- Reads an argument that starts with a dash. -/
def classifyDashed (cs : List Char) : Except UsageError Argument :=
  let text := String.ofList cs
  let (stem, value) := splitValue cs
  match flagOf? cs, flagOf? stem, value with
  | some flag, _, _ => .ok (.option text flag none)
  | none, some flag, some value =>
    .ok (.option (String.ofList stem) flag (some (String.ofList value)))
  | none, _, _ =>
    match candidates cs with
    | [(spelling, flag, value)] => .ok (.option spelling flag value)
    | [] =>
      if isNegativeNumber cs || cs.contains ' ' then .ok (.positional text)
      else .ok (.unknown text)
    | several => .error (.ambiguous text (several.map Prod.fst))

def classifyOne (text : String) : Except UsageError Argument :=
  match text.toList with
  | '-' :: c :: cs => classifyDashed ('-' :: c :: cs)
  | _ => .ok (.positional text)

/-- Reads all arguments; behind two dashes there are no options. -/
def classify : List String → Except UsageError (List Argument)
  | [] => .ok []
  | a :: rest =>
    if a = "--" then .ok (.separator :: rest.map .positional)
    else do
      let first ← classifyOne a
      let more ← classify rest
      pure (first :: more)

end BindingPower.CommandLine
