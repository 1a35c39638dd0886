import RegisterColoring.Failure

namespace RegisterColoring

structure Settings where
  /-- The number of registers for coloring. -/
  colors : Nat := 4
  /-- Whether dead code is removed before allocation. -/
  deadCode : Bool := true
  /-- The bound on the passes of liveness and on the rounds of dead code elimination. -/
  maxIterations : Nat := 10000
  /-- The bound on allocation rounds; without one it is the number of temps plus one. -/
  maxRounds : Option Nat := none
deriving DecidableEq

/-- Settings with which the passes can work. -/
def Settings.validate (s : Settings) : Except Failure Unit :=
  if s.colors < 1 then .error (.config .noColors)
  else if s.maxIterations < 1 then .error (.config .noIterations)
  else .ok ()

end RegisterColoring
