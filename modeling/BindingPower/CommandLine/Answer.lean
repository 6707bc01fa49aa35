import BindingPower.Calc.Grammar
import BindingPower.Calc.Printer
import BindingPower.CommandLine.Settings

/-! # Answering a command line

Parses one expression and prints its tree or its source text. The answer is what the program
writes and the code it ends with: 0 for a tree, 1 for text that is no expression, 2 for a
command line that is not understood. -/
namespace BindingPower.CommandLine

structure Answer where
  code : Nat
  output : String
  errors : String
  deriving DecidableEq

def programVersion : String := "0.3.0"

def usage : String :=
  "usage: prattle [-h] [--tokens] [--source] [--strict] [--require-end]\n" ++
  "               [--max-depth MAX_DEPTH] [-v] [--version]\n" ++
  "               expression\n"

def helpText : String :=
  usage ++
  "\nParse a calc expression with the prattle Pratt engine\n" ++
  "\npositional arguments:\n" ++
  "  expression            Expression text to parse\n" ++
  "\noptions:\n" ++
  "  -h, --help            show this help message and exit\n" ++
  "  --tokens              Also print the token trees produced by the lexer\n" ++
  "  --source              Print fully parenthesized source instead of the tree\n" ++
  "  --strict              Treat missing then/else/in/closing bars as errors\n" ++
  "  --require-end         Reject input left over after the expression\n" ++
  "  --max-depth MAX_DEPTH\n" ++
  "                        Maximum operand nesting depth (default: 200)\n" ++
  "  -v, --verbose         Log every nud/led dispatch\n" ++
  "  --version             show program's version number and exit\n" ++
  "\nExamples:\n" ++
  "    prattle \"1 - 2 - 3\"                        # Left-associative chain\n" ++
  "    prattle \"if a then if b then c else d else e\"\n" ++
  "    prattle --require-end \"1 = 2 = 3\"          # Rejected: '=' does not chain\n" ++
  "        \n"

def Halt.answer : Halt → Answer
  | help => ⟨0, helpText, ""⟩
  | version => ⟨0, "prattle " ++ programVersion ++ "\n", ""⟩
  | usage e => ⟨2, "", CommandLine.usage ++ "prattle: error: " ++ e.message ++ "\n"⟩

/-- The log of a session, one line for each use of a token. -/
def logText {τ φ ν ε : Type} [Worded τ] (s : Session τ φ ν ε) : String :=
  String.join (s.events.filterMap fun e => e.line?.map fun l => "prattle.engine: " ++ l ++ "\n")

/-- Why there is no answer: no depth to compare with, or a failure that is no report. -/
inductive Crash where
  | noDepth
  | failure (f : Calc.Failure)

/-- Answers for the tokens of an expression. -/
def Settings.answerTokens (s : Settings) (config : Config) (tokens : List Calc.Token) :
    Except Crash Answer :=
  let shown := if s.tokens then "Tokens: " ++ Calc.listText tokens ++ "\n" else ""
  match Calc.parseTokens tokens config with
  | .ok e session =>
    .ok ⟨0, shown ++ (if s.source then e.toSource else e.dump 0) ++ "\n",
      if s.verbose then logText session else ""⟩
  | .error (.report r) session =>
    .ok ⟨1, shown, (if s.verbose then logText session else "") ++ r.render⟩
  | .error f _ => .error (.failure f)

def Invocation.answer (i : Invocation) : Except Crash Answer :=
  let s := i.settings
  match s.maxDepth with
  | none => .error .noDepth
  | some depth =>
    match Config.ofDepth? s.strict s.requireEnd depth with
    | none => .ok ⟨2, "", "error: " ++ Config.depthMessage depth ++ "\n"⟩
    | some config =>
      match Calc.tokenize i.expression "<argv>" with
      | .error e => .ok ⟨1, "", e.diagnostic.render⟩
      | .ok tokens => s.answerTokens config tokens

def answer (argv : List String) : Except Crash Answer :=
  match readArguments argv with
  | .error h => .ok h.answer
  | .ok i => i.answer

end BindingPower.CommandLine
