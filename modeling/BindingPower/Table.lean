import BindingPower.Parse
import BindingPower.Symbol

/-! # Table grammars

A grammar over symbols that is given by a table of operators. Words of letters, digits and
underscores that are not in the table are leaves, as are numbers and the null token; a list
is a group, which is read by a run of its own. A table may plant failures in its callbacks. -/
namespace BindingPower

inductive FaultKind where
  | value
  | key
  | type
  | runtime
  | recursion
  | ended
  | plain
  | empty
  deriving DecidableEq

structure Fault where
  kind : FaultKind
  argument : Option Symbol
  deriving DecidableEq

def FaultKind.name : FaultKind → String
  | value => "ValueError"
  | key => "KeyError"
  | type => "TypeError"
  | runtime => "RuntimeError"
  | recursion => "RecursionError"
  | ended => "StopIteration"
  | plain => "PrattError"
  | empty => "EmptyInput"

/-- The argument of a fault; only a key is quoted if it is a word. -/
def Fault.message (f : Fault) : String :=
  match f.kind, f.argument with
  | .empty, _ => Report.emptyMessage
  | _, none => ""
  | .key, some a => a.text
  | _, some a => a.bare

/-- A fault that is told in words. -/
def Fault.worded (kind : FaultKind) (message : String) : Fault := ⟨kind, some (.word message)⟩

instance : Described Fault := ⟨fun f => f.kind.name, Fault.message⟩

instance : Worded Symbol := ⟨Symbol.text, fun s => s = .null⟩

/-- A tree over symbols in which groups and bracketed parts can be told apart. -/
inductive Node where
  | leaf (token : Symbol)
  | group (inner : Node)
  | bracketed (inner : Node)
  | unary (token : Symbol) (operand : Node)
  | binary (token : Symbol) (left right : Node)
  | ternary (token : Symbol) (first second third : Node)
  deriving DecidableEq

inductive GroupRule where
  | plain
  | until (rbp : Int) (stop : Option (List Symbol))
  | full (rbp : Int) (stop : Option (List Symbol))

inductive Matching where
  | exact
  | folded
  | any
  | never
  deriving DecidableEq

inductive CallKind where
  | query
  | nullary
  | unary
  | binary
  | ternary
  | isFollow
  | stop
  deriving DecidableEq

/-- A failure that a kind of call ends in, on every token or on one. -/
structure Plant where
  kind : CallKind
  token : Option Symbol
  failure : Failure Symbol Symbol Fault

structure Table where
  operators : List (String × Operator Symbol)
  groupRule : GroupRule
  brackets : Option (Symbol × Symbol)
  matching : Matching
  plants : List Plant

namespace Table

abbrev Answer (α : Type) := Callback Symbol Symbol Node Fault α

def isWordCharacter (c : Char) : Bool := c.isAlphanum || c = '_'

def isName (s : String) : Bool := !s.isEmpty && s.toList.all isWordCharacter

/-- The first failure planted for a call. -/
def planted? (table : Table) (kind : CallKind) (t : Symbol) : Option (Failure Symbol Symbol Fault) :=
  (table.plants.find? fun p => p.kind = kind && (p.token.isNone || p.token = some t)).map
    Plant.failure

def answer {α : Type} (table : Table) (kind : CallKind) (t : Symbol) (body : Answer α) : Answer α :=
  match table.planted? kind t with
  | some f => .fail f
  | none => body

def classify (table : Table) : Symbol → Answer (Operator Symbol)
  | .word s =>
    match table.operators.lookup s with
    | some op => .value op
    | none => if isName s then .value .nilfix else .fault ⟨.key, some (.word s)⟩
  | _ => .value .nilfix

/-- The stop predicate that holds of the listed symbols. -/
def stopAt (table : Table) (symbols : List Symbol) : StopTest Symbol Symbol Fault := fun t =>
  match table.planted? .stop t with
  | some f => .error f
  | none => .ok (decide (t ∈ symbols))

def item : Symbol → Item Symbol Fault
  | .broken reason => .fault ⟨.value, some reason⟩
  | s => .token s

def readGroup (table : Table) (items : List Symbol) : Answer Node :=
  match table.groupRule with
  | .plain => do
    let (node, _) ← Callback.group (items.map item) .whole none
    pure (.group node)
  | .until rbp stop => do
    let (node, _) ← Callback.group (items.map item) (.above rbp) (stop.map table.stopAt)
    pure (.group node)
  | .full rbp stop => do
    let (node, rest) ← Callback.group (items.map item) (.above rbp) (stop.map table.stopAt)
    Callback.requireEnd rest
    pure (.group node)

/-- Reads on in the main stream up to a closing symbol and consumes that. -/
def readBracketed (table : Table) (closing : Symbol) : Answer Node :=
  .parse ⟨none, .above 0, some (table.stopAt [closing])⟩ fun node _ =>
    .take fun t =>
      match t with
      | none => .fault (.worded .value "unclosed")
      | some _ => .value (.bracketed node)

def readLeaf (table : Table) (t : Symbol) : Answer Node :=
  match t, table.brackets with
  | .list items, _ => table.readGroup items
  | t, some (opening, closing) =>
    if t = opening then table.readBracketed closing else .value (.leaf t)
  | t, none => .value (.leaf t)

def accepts (table : Table) (t expected : Symbol) : Bool :=
  match table.matching with
  | .exact => t = expected
  | .folded => t.sameFolded expected
  | .any => true
  | .never => false

def grammar (table : Table) : Grammar Symbol Symbol Node Fault where
  query t := table.answer .query t (table.classify t)
  nullary t := table.answer .nullary t (table.readLeaf t)
  unary t x := table.answer .unary t (.value (.unary t x))
  binary t l r := table.answer .binary t (.value (.binary t l r))
  ternary t a b c := table.answer .ternary t (.value (.ternary t a b c))
  isFollow t expected := table.answer .isFollow t (.value (table.accepts t expected))

def parser (table : Table) (config : Config) : Parser Symbol Symbol Node Fault :=
  Parser.ofGrammar config table.grammar

end Table

end BindingPower
