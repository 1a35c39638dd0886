import RegisterColoring.Settings

namespace RegisterColoring

structure Options where
  /-- The number of registers, which may be given as any number. -/
  colors : Int := 4
  deadCode : Bool := true
  maxIterations : Nat := 10000
  maxRounds : Option Nat := none
  /-- Whether the first parameters are pinned to the argument registers. -/
  pinParams : Bool := false
deriving DecidableEq

/-- The options that a file can set. -/
inductive OptionKey
  | colors | deadCode | maxIterations | maxRounds | pinParams
deriving DecidableEq

namespace OptionKey

def all : List OptionKey := [colors, deadCode, maxIterations, maxRounds, pinParams]

def name : OptionKey → String
  | colors => "num_colors"
  | deadCode => "dead_code_elim"
  | maxIterations => "max_iterations"
  | maxRounds => "max_rounds"
  | pinParams => "precolor_params"

def ofName? (name : String) : Option OptionKey := all.find? (·.name = name)

end OptionKey

/-- The value of an option in a file. -/
inductive OptionValue
  | integer (n : Int)
  | boolean (b : Bool)
deriving DecidableEq

namespace Options

/-- Set an option. Values of the wrong kind and negative bounds are refused. -/
def set? (o : Options) : OptionKey → OptionValue → Option Options
  | .colors, .integer n => some { o with colors := n }
  | .deadCode, .boolean b => some { o with deadCode := b }
  | .maxIterations, .integer n => if 0 ≤ n then some { o with maxIterations := n.toNat } else none
  | .maxRounds, .integer n => if 0 ≤ n then some { o with maxRounds := some n.toNat } else none
  | .pinParams, .boolean b => some { o with pinParams := b }
  | _, _ => none

/-- The settings that the options describe. -/
def settings (o : Options) : Except Failure Settings :=
  if o.colors < 1 then .error (.config (.tooFewColors o.colors))
  else
    let s : Settings := ⟨o.colors.toNat, o.deadCode, o.maxIterations, o.maxRounds⟩
    s.validate.map fun () => s

end Options

end RegisterColoring
