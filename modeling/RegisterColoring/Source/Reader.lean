import RegisterColoring.Source.Machine
import RegisterColoring.Failure

namespace RegisterColoring.Source

/-- Line and column, both counted from one and columns in bytes, of the byte `place`. -/
def positionFrom (line column : Nat) : Nat → List Char → Nat × Nat
  | _, [] => (line, column)
  | 0, _ => (line, column)
  | place, '\n' :: rest => positionFrom (line + 1) 1 (place - 1) rest
  | place, c :: rest => positionFrom line (column + c.utf8Size) (place - c.utf8Size) rest

/-- The function named by failures that belong to the text as a whole. -/
def inputName : String := "<input>"

/-- Read a program from its text. -/
def parse (source : String) : Except Failure Program :=
  match Machine.start.run 0 (scan source) with
  | none => .error (.fault .symbolMismatch)
  | some (.ok program) => .ok program
  | some (.error e) =>
    let (line, column) := positionFrom 1 1 e.place source.toList
    .error (.malformed inputName (.unexpected line column e.found e.expected))

end RegisterColoring.Source
