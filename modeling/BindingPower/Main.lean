import BindingPower.CommandLine.Answer

/-! # The program

Writes the answer to its command line and ends with the code of the answer. -/

def main (argv : List String) : IO UInt32 := do
  match BindingPower.CommandLine.answer argv with
  | .error .noDepth => throw (IO.userError "the depth is not a number")
  | .error (.failure _) => throw (IO.userError "the parser failed without a report")
  | .ok a =>
    (← IO.getStdout).putStr a.output
    (← IO.getStderr).putStr a.errors
    return UInt32.ofNat a.code
