import BindingPower.Cursor
import BindingPower.Report

/-! # Parsing sessions

The state of a parser between and during its runs: the streams it reads, how deep it is
nested, and a log of what it did. The state outlives a failure, so that what a failed run
consumed and recorded can still be seen. -/
namespace BindingPower

/-- A question to the grammar or to a stop predicate, with its arguments. -/
inductive Call (τ φ ν : Type) where
  | query (token : τ)
  | nullary (token : τ)
  | unary (token : τ) (operand : ν)
  | binary (token : τ) (left right : ν)
  | ternary (token : τ) (first second third : ν)
  | isFollow (token : τ) (expected : φ)
  | stop (token : τ)
  deriving DecidableEq

/-- `leading`, `continuing` and `separator` tell how a token is used. An operand is `opened`
and `closed`; a run is `entered` and `left` together with the levels it was charged. A call
that does not end in an answer has `failed`. -/
inductive Event (τ φ ν : Type) where
  | called (call : Call τ φ ν)
  | failed
  | leading (affix : Affix) (arity : Arity) (token : τ)
  | continuing (affix : Affix) (arity : Arity) (token : τ)
  | separator (token : τ)
  | opened
  | closed
  | entered (levels : Nat)
  | left (levels : Nat)
  deriving DecidableEq

namespace Call

variable {τ φ ν : Type}

def text [Worded τ] [Worded φ] : Call τ φ ν → String
  | query t => "query " ++ Worded.text t
  | nullary t => "nullary " ++ Worded.text t
  | unary t _ => "unary " ++ Worded.text t
  | binary t _ _ => "binary " ++ Worded.text t
  | ternary t _ _ _ => "ternary " ++ Worded.text t
  | isFollow t expected => "is_follow " ++ Worded.text t ++ " " ++ Worded.text expected
  | stop t => "stop " ++ Worded.text t

end Call

namespace Event

variable {τ φ ν : Type}

def call? : Event τ φ ν → Option (Call τ φ ν)
  | called c => some c
  | _ => none

/-- The log line of a token that has been put to use. -/
def line? [Worded τ] : Event τ φ ν → Option String
  | leading affix arity t =>
    some ("nud " ++ affix.label ++ "/" ++ arity.label ++ " " ++ Worded.text t)
  | continuing affix arity t =>
    some ("led " ++ affix.label ++ "/" ++ arity.label ++ " " ++ Worded.text t)
  | separator t => some ("interfix " ++ Worded.text t)
  | _ => none

end Event

/-- `side` is the stream of a group while one is read; otherwise the main stream is read. The
log has the newest event first, each with the depth at which it took place. -/
structure Session (τ φ ν ε : Type) where
  main : Cursor τ ε
  side : Option (Cursor τ ε)
  depth : Nat
  log : List (Nat × Event τ φ ν)

namespace Session

variable {τ φ ν ε : Type}

def start (main : Cursor τ ε) : Session τ φ ν ε := ⟨main, none, 0, []⟩

/-- The stream that is being read. -/
def cursor (s : Session τ φ ν ε) : Cursor τ ε := s.side.getD s.main

def withCursor (s : Session τ φ ν ε) (c : Cursor τ ε) : Session τ φ ν ε :=
  match s.side with
  | none => { s with main := c }
  | some _ => { s with side := some c }

def record (s : Session τ φ ν ε) (e : Event τ φ ν) : Session τ φ ν ε :=
  { s with log := (s.depth, e) :: s.log }

def deepen (s : Session τ φ ν ε) (levels : Nat) : Session τ φ ν ε :=
  { s with depth := s.depth + levels }

def surface (s : Session τ φ ν ε) (levels : Nat) : Session τ φ ν ε :=
  { s with depth := s.depth - levels }

/-- The log from the oldest event to the newest. -/
def events (s : Session τ φ ν ε) : List (Event τ φ ν) := (s.log.map Prod.snd).reverse

@[simp] theorem cursor_withCursor (s : Session τ φ ν ε) (c : Cursor τ ε) :
    (s.withCursor c).cursor = c := by
  cases s with
  | mk main side depth log => cases side <;> rfl

@[simp] theorem depth_withCursor (s : Session τ φ ν ε) (c : Cursor τ ε) :
    (s.withCursor c).depth = s.depth := by
  cases s with
  | mk main side depth log => cases side <;> rfl

@[simp] theorem log_withCursor (s : Session τ φ ν ε) (c : Cursor τ ε) :
    (s.withCursor c).log = s.log := by
  cases s with
  | mk main side depth log => cases side <;> rfl

@[simp] theorem cursor_record (s : Session τ φ ν ε) (e : Event τ φ ν) :
    (s.record e).cursor = s.cursor := rfl

@[simp] theorem depth_record (s : Session τ φ ν ε) (e : Event τ φ ν) :
    (s.record e).depth = s.depth := rfl

theorem depth_surface {s : Session τ φ ν ε} {d levels : Nat} (h : s.depth = d + levels) :
    (s.surface levels).depth = d := by
  change s.depth - levels = d
  rw [h]
  exact Nat.add_sub_cancel d levels

end Session

/-- A step of a parser: it ends in a result or a failure, and in a session either way. -/
abbrev Run (τ φ ν ε : Type) := EStateM (Failure τ φ ε) (Session τ φ ν ε)

namespace Run

variable {τ φ ν ε α : Type}

def record (e : Event τ φ ν) : Run τ φ ν ε Unit := fun s => .ok () (s.record e)

def report (r : Report τ φ ε) : Run τ φ ν ε α := fun s => .error (.report r) s

def ofExcept : Except (Failure τ φ ε) α → Run τ φ ν ε α
  | .ok a => pure a
  | .error f => throw f

/-- Reads from the stream in use. A fault of its source is no report. -/
def reading (f : Cursor τ ε → Except ε α × Cursor τ ε) : Run τ φ ν ε α := fun s =>
  match f s.cursor with
  | (.ok a, c) => .ok a (s.withCursor c)
  | (.error e, c) => .error (.other (.fault e)) (s.withCursor c)

/-- Reads from the main stream, whichever is in use. -/
def readingMain (f : Cursor τ ε → Except ε α × Cursor τ ε) : Run τ φ ν ε α := fun s =>
  match f s.main with
  | (.ok a, c) => .ok a { s with main := c }
  | (.error e, c) => .error (.other (.fault e)) { s with main := c }

/-- Runs `body` some levels deeper and comes back up, whether it fails or not. -/
def deeper (levels : Nat) (before after : Event τ φ ν) (body : Run τ φ ν ε α) : Run τ φ ν ε α :=
  fun s =>
    match body ((s.deepen levels).record before) with
    | .ok a t => .ok a ((t.surface levels).record after)
    | .error f t => .error f ((t.surface levels).record after)

/-- Runs `body` on a side stream, or on the main one for `none`, and hands out what is left
of that stream. -/
def within (side : Option (Cursor τ ε)) (body : Run τ φ ν ε α) : Run τ φ ν ε (α × Cursor τ ε) :=
  fun s =>
    match body { s with side := side } with
    | .ok a t => .ok (a, t.cursor) { t with side := s.side }
    | .error f t => .error f { t with side := s.side }

/-- Runs `body` and, if it fails, records that and changes the failure with a view to the
depth at which it arose. -/
def catching (change : Nat → Failure τ φ ε → Failure τ φ ε) (body : Run τ φ ν ε α) :
    Run τ φ ν ε α := fun s =>
  match body s with
  | .ok a t => .ok a t
  | .error f t => .error (change t.depth f) (t.record .failed)

end Run

end BindingPower
