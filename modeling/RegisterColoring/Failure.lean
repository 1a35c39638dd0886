import RegisterColoring.Lexeme
import RegisterColoring.Register

namespace RegisterColoring

/-- What is wrong with a written program. -/
inductive Defect
  /-- The token found, or the end of the text, cannot stand there. -/
  | unexpected (line column : Nat) (found : Option Lexeme) (expected : List Terminal)
  | duplicateParam (t : Temp)
  | unknownRegister (name : String)
  | unallocatable (r : Register)
  | noInstructions
  | duplicateLabel (label : String)
  | unknownLabel (label : String)
deriving DecidableEq

/-- Why a file gives no text. -/
inductive ReadFailure
  | missing
  /-- The path goes on after the name of a file. -/
  | notDirectory
  | directory
  | nameTooLong
  | notText
deriving DecidableEq

/-- What is wrong with the settings. -/
inductive Misconfiguration
  | noColors
  | tooFewColors (n : Int)
  | noIterations
  | pinBeyondColors (t : Temp) (func : String) (c : Color) (colors : Nat)
  | unnamedColor (c : Color) (func : String)
  | tooManyColors (n : Nat)
  /-- The first line of an option file that cannot be taken. -/
  | invalidOptions (line : Nat)
  | unreadableOptions (path : String) (reason : ReadFailure)
deriving DecidableEq

/-- Why the passes give up on a function. -/
inductive Breakdown
  | livenessUnsettled (passes : Nat)
  | deadCodeUnsettled (rounds : Nat)
  | allocationUnsettled (rounds : Nat)
  | sharedColor (t u : Temp) (c : Color)
  | crowded (t : Temp) (colors : Nat)
  | noCandidate
  | notANode (t : Temp)
deriving DecidableEq

/-- An operation without a result: a block that does not exist, a counter at its end, or a value
that is not of the kind its reader stands at. -/
inductive Fault
  | missingBlock
  | counterExhausted
  | symbolMismatch
deriving DecidableEq

/-- Why a run fails, for which function, and with which dump of the graph. -/
inductive Failure
  | config (reason : Misconfiguration)
  | malformed (func : String) (reason : Defect)
  | internal (func : String) (reason : Breakdown) (state : Option String)
  | fault (reason : Fault)
deriving DecidableEq

/-- A temp as a listing writes it. -/
def Temp.name (t : Temp) : String := "t" ++ toString t

def quoted (s : String) : String := "`" ++ s ++ "`"

def Defect.message : Defect → String
  | unexpected line column found expected =>
    let what := match found with
      | none => "end of input"
      | some x => x.token.kind ++ " " ++ quoted x.text
    "couldn't parse: unexpected " ++ what ++ " at " ++ toString line ++ ":" ++ toString column ++
      ", expected one of " ++ " ".intercalate (expected.map Terminal.name)
  | duplicateParam t => "duplicate parameter " ++ Temp.name t
  | unknownRegister name => "unknown register " ++ name
  | unallocatable r => r.name ++ " is not an allocatable register"
  | noInstructions => "function has no instructions"
  | duplicateLabel label => "duplicate label " ++ quoted label
  | unknownLabel label => "unknown label " ++ quoted label

def ReadFailure.message : ReadFailure → String
  | missing => "No such file or directory (os error 2)"
  | notDirectory => "Not a directory (os error 20)"
  | directory => "Is a directory (os error 21)"
  | nameTooLong => "File name too long (os error 36)"
  | notText => "stream did not contain valid UTF-8"

def Misconfiguration.message : Misconfiguration → String
  | noColors => "number of colors must be at least 1"
  | tooFewColors n => "number of colors must be at least 1, got " ++ toString n
  | noIterations => "max_iterations must be at least 1"
  | pinBeyondColors t func c colors =>
    Temp.name t ++ " in " ++ quoted func ++ " is pinned to color " ++ toString c ++ " but only " ++
      toString colors ++ " colors are available"
  | unnamedColor c func =>
    "color " ++ toString c ++ " of " ++ quoted func ++ " has no register, the pool holds " ++
      toString Register.pool.length
  | tooManyColors n =>
    toString n ++ " colors requested but only " ++ toString Register.pool.length ++
      " registers can be named"
  | invalidOptions line => "invalid backend config: line " ++ toString line ++ " sets no option"
  | unreadableOptions path reason => "cannot read " ++ path ++ ": " ++ reason.message

def Breakdown.message : Breakdown → String
  | livenessUnsettled passes =>
    "liveness did not converge within " ++ toString passes ++ " passes"
  | deadCodeUnsettled rounds =>
    "dead code elimination did not settle within " ++ toString rounds ++ " rounds"
  | allocationUnsettled rounds =>
    "allocation did not settle within " ++ toString rounds ++ " rounds"
  | sharedColor t u c =>
    "pre-colored " ++ Temp.name t ++ " and " ++ Temp.name u ++ " interfere but share color " ++
      toString c
  | crowded t colors =>
    "spill temp " ++ Temp.name t ++ " cannot be colored: more than " ++ toString colors ++
      " operands are live at once"
  | noCandidate => "empty spill candidate set"
  | notANode t => Temp.name t ++ " is not a node"

def Fault.message : Fault → String
  | missingBlock => "index out of bounds"
  | counterExhausted => "attempt to add with overflow"
  | symbolMismatch => "symbol type mismatch"

namespace Failure

def message : Failure → String
  | config reason => "configuration error: " ++ reason.message
  | malformed func reason => "malformed IR in function " ++ quoted func ++ ": " ++ reason.message
  | internal func reason _ =>
    "internal allocator inconsistency in function " ++ quoted func ++ ": " ++ reason.message
  | fault reason => reason.message

/-- Whether the failure ends the run for the functions that follow. -/
def isFatal : Failure → Bool
  | internal .. => true
  | _ => false

/-- The dump of the graph that a breakdown carries. -/
def state? : Failure → Option String
  | internal _ _ state => state
  | _ => none

end Failure

end RegisterColoring
