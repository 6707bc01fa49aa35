import BindingPower.Calc.Expr
import BindingPower.Calc.Lexer
import BindingPower.Parse
import BindingPower.Text.Numeral

/-! # The calc grammar

The operators of calc expressions and the nodes they build. A conditional reads
`if c then a else b` or `a when c else b`, a binding `x := v in body`; `mod` is both a name
and an operator, and a minus sign both negates and subtracts. -/
namespace BindingPower.Calc

inductive GrammarError where
  | unknownOperator (lexeme : String)
  | noOperand (lexeme : String)
  | notUnary (lexeme : String)
  | notBinary (lexeme : String)
  | notTernary (lexeme : String)
  | unboundTarget
  deriving DecidableEq

def GrammarError.message : GrammarError → String
  | unknownOperator s => "Unknown operator " ++ Text.quoted s
  | noOperand s => "Expected an operand, found " ++ Text.quoted s
  | notUnary s => Text.quoted s ++ " is not a unary operator"
  | notBinary s => Text.quoted s ++ " is not a binary operator"
  | notTernary s => Text.quoted s ++ " is not a ternary operator"
  | unboundTarget => "Only an identifier can be bound with ':='"

inductive Fault where
  | numeral (e : Text.NumeralError)
  | grammar (e : GrammarError)
  deriving DecidableEq

instance : Described Fault where
  name
    | .numeral _ => "ValueError"
    | .grammar _ => "GrammarError"
  message
    | .numeral e => e.message
    | .grammar e => e.message

abbrev Failure := BindingPower.Failure Token String Fault

abbrev Answer (α : Type) := Callback Token String Expr Fault α

def refuse {α : Type} (e : GrammarError) : Answer α := .fault (.grammar e)

/-- The declared levels, from the loosest to the tightest. -/
inductive Level where
  | none
  | conditional
  | equality
  | term
  | factor
  | postfixed
  | unary
  | power
  deriving DecidableEq

namespace Level

def all : List Level := [none, conditional, equality, term, factor, postfixed, unary, power]

def label : Level → String
  | none => "NONE"
  | conditional => "CONDITIONAL"
  | equality => "EQUALITY"
  | term => "TERM"
  | factor => "FACTOR"
  | postfixed => "POSTFIX"
  | unary => "UNARY"
  | power => "POWER"

def precedence : Level → Precedence
  | none => .bottom
  | conditional => ⟨1, by omega⟩
  | equality => ⟨2, by omega⟩
  | term => ⟨3, by omega⟩
  | factor => ⟨4, by omega⟩
  | postfixed => ⟨5, by omega⟩
  | unary => ⟨6, by omega⟩
  | power => ⟨7, by omega⟩

end Level

def markOperator? (s : String) : Option (Operator String) :=
  match s with
  | "=" => some (.infixed Level.equality.precedence .neither)
  | "+" => some (.infixed Level.term.precedence .left)
  | "-" => some (.prefixedOrInfixed Level.unary.precedence Level.term.precedence .left)
  | "*" => some (.infixed Level.factor.precedence .left)
  | "/" => some (.infixed Level.factor.precedence .left)
  | "?" => some (.postfixed Level.postfixed.precedence)
  | "!" => some (.prefixed Level.unary.precedence)
  | "^" => some (.infixed Level.power.precedence .right)
  | "|" => some (.circumfix Level.none.precedence "|")
  | "||" => some (.circumfix Level.none.precedence "||")
  | ":=" => some (.mixfix .postfixed Level.conditional.precedence ["in"] .right)
  | _ => none

def wordOperator? (s : String) : Option (Operator String) :=
  match s with
  | "mod" => some (.nilfixOrInfixed Level.factor.precedence .left)
  | "if" => some (.mixfix .prefixed Level.conditional.precedence ["then", "else"] .left)
  | "when" => some (.mixfix .infixed Level.conditional.precedence ["else"] .right)
  | "then" => some .interfix
  | "else" => some .interfix
  | "in" => some .interfix
  | _ => none

/-- The operator of a token; literals, identifiers and groups are operands. -/
def operator? (t : Token) : Option (Operator String) :=
  match t.kind with
  | .punct => markOperator? t.lexeme
  | .keyword => wordOperator? t.lexeme
  | _ => some .nilfix

def unaryKind? (s : String) : Option UnaryKind := UnaryKind.all.find? fun k => k.symbol = s

def binaryKind? (s : String) : Option BinaryKind := BinaryKind.all.find? fun k => k.symbol = s

def classify (t : Token) : Answer (Operator String) :=
  match operator? t with
  | some op => .value op
  | none => refuse (.unknownOperator t.lexeme)

/-- Reads the members of a group, which have to be one expression. -/
def readGroup (members : List Token) : Answer Expr := do
  let (node, rest) ← Callback.group (members.map .token) .whole none
  Callback.requireEnd rest
  pure node

def readLeaf (t : Token) : Answer Expr :=
  match t.kind with
  | .literal =>
    match Text.Numeral.read t.lexeme with
    | .ok n => .value (.int n)
    | .error e => .fault (.numeral e)
  | .ident | .keyword => .value (.ident t.lexeme)
  | .group => readGroup t.children
  | .punct => refuse (.noOperand t.lexeme)

def buildUnary (t : Token) (x : Expr) : Answer Expr :=
  match unaryKind? t.lexeme with
  | some k => .value (.unary k x)
  | none => refuse (.notUnary t.lexeme)

def buildBinary (t : Token) (l r : Expr) : Answer Expr :=
  match binaryKind? t.lexeme with
  | some k => .value (.binary k l r)
  | none => refuse (.notBinary t.lexeme)

/-- Only an identifier can be the target of a binding. -/
def buildBinding (target value body : Expr) : Answer Expr :=
  match target with
  | .ident _ => .value (.ternary .binding target value body)
  | _ => refuse .unboundTarget

def buildTernary (t : Token) (a b c : Expr) : Answer Expr :=
  match t.lexeme with
  | "if" => .value (.ternary .ifThenElse a b c)
  | "when" => .value (.ternary .ifThenElse b a c)
  | ":=" => buildBinding a b c
  | s => refuse (.notTernary s)

def isFollow (t : Token) (expected : String) : Bool :=
  (t.kind = .punct || t.kind = .keyword) && t.lexeme = expected

def grammar : Grammar Token String Expr Fault where
  query := classify
  nullary := readLeaf
  unary := buildUnary
  binary := buildBinary
  ternary := buildTernary
  isFollow t expected := .value (isFollow t expected)

def parser (config : Config) : Parser Token String Expr Fault := Parser.ofGrammar config grammar

/-- The stop predicate that holds of the tokens with the listed lexemes. -/
def stopAt (lexemes : List String) : Stop Token String Expr Fault := fun t =>
  .value (decide (t.lexeme ∈ lexemes))

/-- What can keep a text from being read as an expression. -/
inductive Refusal where
  | lexer (e : LexError)
  | parser (f : Failure)

/-- Parses tokens from the start; the session tells what was done. -/
def parseTokens (tokens : List Token) (config : Config) :
    EStateM.Result Failure (Session Token String Expr Fault) Expr :=
  (parser config).parseTokens tokens

def parseString (source file : String) (config : Config) : Except Refusal Expr :=
  match tokenize source file with
  | .error e => .error (.lexer e)
  | .ok tokens =>
    match parseTokens tokens config with
    | .ok e _ => .ok e
    | .error f _ => .error (.parser f)

end BindingPower.Calc
