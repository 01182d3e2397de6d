import BottomUp.Calculator.CommandLine

/-!
# The calculator

Evaluates the expression on the command line and writes its value.
-/

/-- Write the response to the arguments and exit with its status. -/
def main (args : List String) : IO UInt32 := do
  let response := BottomUp.Calculator.respond args
  (← IO.getStdout).putStr response.output
  (← IO.getStderr).putStr response.complaint
  return response.exit.toUInt32
