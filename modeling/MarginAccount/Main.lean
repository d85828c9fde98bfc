import MarginAccount.Simulation

/-! # The simulation as a program -/

def main : IO UInt32 := do
  match MarginAccount.Simulation.lines with
  | .ok lines =>
    lines.forM IO.println
    pure 0
  | .error (.refused reason) =>
    IO.eprintln ("Error: " ++ reason.message)
    pure 1
  | .error (.fault f) =>
    IO.eprintln f.message
    pure 101
