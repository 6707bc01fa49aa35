import BindingPower.Calc.Location
import BindingPower.Text.Case
import BindingPower.Text.Quoted

/-! # Diagnostics

Messages about a place in a source text, and the errors of the lexer as such messages. -/
namespace BindingPower.Calc

structure Diagnostic where
  message : String
  location : Location
  severity : String
  code : Option String
  help : Option String
  suggestions : Option (List String)
  deriving DecidableEq

namespace Diagnostic

def optionalText {α : Type} (text : α → String) : Option α → String
  | none => "None"
  | some a => text a

def locationText (l : Location) : String :=
  "SourceLocation(filename=" ++ Text.quoted l.file ++ ", line=" ++ toString l.line ++
    ", column=" ++ toString l.column ++ ", offset=" ++ toString l.offset ++ ")"

def listOf (items : List String) : String :=
  "[" ++ ", ".intercalate (items.map Text.quoted) ++ "]"

/-- The diagnostic with all its fields on one line. -/
def text (d : Diagnostic) : String :=
  "Diagnostic(message=" ++ Text.quoted d.message ++ ", location=" ++ locationText d.location ++
    ", severity=" ++ Text.quoted d.severity ++ ", code=" ++ optionalText Text.quoted d.code ++
    ", help_text=" ++ optionalText Text.quoted d.help ++ ", suggestions=" ++
    optionalText listOf d.suggestions ++ ")"

def helpLine : Option String → String
  | none => ""
  | some h => if h = "" then "" else "  help: " ++ h ++ "\n"

def suggestionLines : Option (List String) → String
  | none => ""
  | some [] => ""
  | some items => "  suggestions:\n" ++ String.join (items.map fun s => "    - " ++ s ++ "\n")

/-- The diagnostic as lines; an empty help text or list of suggestions has none. -/
def render (d : Diagnostic) : String :=
  String.ofList (Text.upper d.severity.toList) ++ ": " ++ d.message ++ "\n  --> " ++
    d.location.text ++ "\n" ++ helpLine d.help ++ suggestionLines d.suggestions

end Diagnostic

inductive LexError where
  | invalidCharacter (character : String) (location : Location)
  | unclosedGroup (opening current : Location)
  | unopenedGroup (location : Location)
  deriving DecidableEq

/-- What the codes of the lexer's errors stand for. -/
def lexerCodes : List (String × String) :=
  [("L001", "Invalid character"), ("L002", "Unbalanced parenthesis")]

def LexError.diagnostic : LexError → Diagnostic
  | invalidCharacter c l =>
    ⟨"Invalid character '" ++ c ++ "'", l, "error", some "L001",
      some "Operators are + - * / ^ = ? ! | || := and the keywords if then else when in mod.",
      none⟩
  | unclosedGroup opening current =>
    ⟨"Unclosed delimiter '('", current, "error", some "L002",
      some ("The opening '(' at " ++ opening.text ++ " was never closed."),
      some ["Add a closing ')'"]⟩
  | unopenedGroup l =>
    ⟨"Unmatched closing delimiter ')'", l, "error", some "L002", none,
      some ["Remove the ')' or add a matching '('"]⟩

end BindingPower.Calc
