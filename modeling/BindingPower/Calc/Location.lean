/-! # Places in a source text

A position counts lines and columns from one and characters from zero. A newline ends the
line it stands on. -/
namespace BindingPower.Calc

structure Position where
  line : Nat
  column : Nat
  offset : Nat
  deriving DecidableEq

namespace Position

def start : Position := ⟨1, 1, 0⟩

/-- The position behind a character. -/
def after (p : Position) (c : Char) : Position :=
  if c = '\n' then ⟨p.line + 1, 1, p.offset + 1⟩ else ⟨p.line, p.column + 1, p.offset + 1⟩

/-- The position behind a text. -/
def advance (p : Position) (cs : List Char) : Position := cs.foldl after p

@[simp] theorem advance_nil (p : Position) : p.advance [] = p := rfl

@[simp] theorem advance_cons (p : Position) (c : Char) (cs : List Char) :
    p.advance (c :: cs) = (p.after c).advance cs := rfl

theorem advance_append (p : Position) (cs ds : List Char) :
    p.advance (cs ++ ds) = (p.advance cs).advance ds := List.foldl_append

theorem after_offset (p : Position) (c : Char) : (p.after c).offset = p.offset + 1 := by
  unfold after
  split <;> rfl

theorem advance_offset (p : Position) (cs : List Char) :
    (p.advance cs).offset = p.offset + cs.length := by
  induction cs generalizing p with
  | nil => rfl
  | cons c cs ih => simp only [advance_cons, ih, after_offset, List.length_cons]; omega

end Position

/-- A place as it is told, which need not exist in any text. -/
structure Location where
  file : String
  line : Int
  column : Int
  offset : Int
  deriving DecidableEq

namespace Location

def text (l : Location) : String := l.file ++ ":" ++ toString l.line ++ ":" ++ toString l.column

end Location

def Position.within (p : Position) (file : String) : Location := ⟨file, p.line, p.column, p.offset⟩

end BindingPower.Calc
