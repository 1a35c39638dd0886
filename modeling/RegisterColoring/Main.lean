import RegisterColoring.Host

namespace RegisterColoring

/-- The environment variable that holds the filter of the journal. -/
def filterVariable : String := "RUST_LOG"

/-- The reason that the system gives for a file that cannot be read. -/
def reasonOf : IO.Error → ReadFailure
  | .inappropriateType _ code _ => if code = 20 then .notDirectory else .directory
  | .invalidArgument _ 36 _ => .nameTooLong
  | _ => .missing

/-- The text of a file. -/
def readText (path : String) : IO (Except ReadFailure String) := do
  try
    return decodeText (← IO.FS.readBinFile path)
  catch e =>
    return .error (reasonOf e)

/-- Write in order what a session gives. -/
def writeAll (start : Nat) : List Output → IO Unit
  | [] => return
  | first :: rest => do
    match first with
    | .out text => IO.print text
    | .err text => IO.eprint text
    | .elapsed => IO.print (((← IO.monoNanosNow) - start) / 1000)
    writeAll start rest

end RegisterColoring

open RegisterColoring

def main (arguments : List String) : IO UInt32 := do
  let start ← IO.monoNanosNow
  let outcome ← match Invocation.parse arguments with
    | .error stop => pure stop.outcome
    | .ok invocation =>
      let optionText ← match invocation.optionFile with
        | some path => readText path
        | none => pure (.ok "")
      let source ← readText invocation.file
      let filterSpec := (← IO.getEnv filterVariable).getD ""
      pure (invocation.run .standard optionText source filterSpec)
  writeAll start outcome.outputs
  return outcome.code.toUInt32
