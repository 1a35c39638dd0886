import RegisterColoring.Func
import RegisterColoring.Source

namespace RegisterColoring

open Source (Param Statement Line Expr)

/-- The register to which a parameter is pinned. Without a written pin and if `automatic` is set,
the first parameters are pinned to the argument registers. -/
def pinOf (func : String) (automatic : Bool) (position : Nat) (p : Param) :
    Except Failure (Option Register) :=
  match p.reg with
  | some name =>
    match Register.ofName? name with
    | some r => .ok (some r)
    | none => .error (.malformed func (.unknownRegister name))
  | none => .ok (if automatic then Register.arguments[position]? else none)

/-- The pins of the parameters from `position` on; `seen` are the parameters before. -/
def pinsFrom (func : String) (automatic : Bool) :
    Nat → List Temp → List Param → IndexMap Color → Except Failure (IndexMap Color)
  | _, _, [], pins => .ok pins
  | position, seen, p :: rest, pins =>
    if p.temp ∈ seen then .error (.malformed func (.duplicateParam p.temp))
    else
      match pinOf func automatic position p with
      | .error e => .error e
      | .ok none => pinsFrom func automatic (position + 1) (p.temp :: seen) rest pins
      | .ok (some r) =>
        match r.color? with
        | none => .error (.malformed func (.unallocatable r))
        | some c =>
          pinsFrom func automatic (position + 1) (p.temp :: seen) rest (pins.insert p.temp c)

/-- Cut a body at labels and behind terminators. The block being filled has the label `label?` and
the statements `taken`. -/
def cutFrom : Option String → List Statement → List Line → List (Option String × List Statement)
  | label?, taken, [] => [(label?, taken)]
  | label?, taken, .label name :: rest =>
    if label?.isNone && taken.isEmpty then cutFrom (some name) [] rest
    else (label?, taken) :: cutFrom (some name) [] rest
  | label?, taken, .statement s :: rest =>
    if taken.getLast?.any (·.isTerminator) then (label?, taken) :: cutFrom none [s] rest
    else cutFrom label? (taken ++ [s]) rest

def cutBlocks (body : List Line) : List (Option String × List Statement) := cutFrom none [] body

/-- Name the blocks behind the first one; `count` of those before had no label. -/
def nameFrom (func : String) : Nat → List (Option String × List Statement) →
    List (String × List Statement)
  | _, [] => []
  | count, (some label, body) :: rest => (label, body) :: nameFrom func count rest
  | count, (none, body) :: rest =>
    ("." ++ func ++ "." ++ toString (count + 1), body) :: nameFrom func (count + 1) rest

/-- The blocks with a name for each. -/
def nameBlocks (func : String) : List (Option String × List Statement) →
    List (String × List Statement)
  | [] => []
  | (label?, body) :: rest => (label?.getD (func ++ ".entry"), body) :: nameFrom func 0 rest

/-- The first entry of a list that occurs before in `seen` or in the list. -/
def firstRepeat (seen : List String) : List String → Option String
  | [] => none
  | x :: rest => if x ∈ seen then some x else firstRepeat (x :: seen) rest

/-- The block of a label. -/
def blockOf (func : String) (labels : List String) (label : String) : Except Failure BlockId :=
  match labels.idxOf? label with
  | some b => .ok b
  | none => .error (.malformed func (.unknownLabel label))

def Source.Expr.instr (dest : Temp) : Expr → Instr
  | .binary op left right => .binary op dest left right
  | .unary op arg => .unary op dest arg
  | .move arg => .move dest arg
  | .load addr => .load dest addr
  | .addrOf var => .addrOf dest var
  | .slotAddr slot => .slotAddr dest slot
  | .spillLoad slot => .spillLoad dest slot
  | .call callee args => .call (some dest) callee args

/-- The instruction of a statement, with its labels looked up. -/
def resolveStatement (func : String) (labels : List String) : Statement → Except Failure Instr
  | .assign dest value => .ok (value.instr dest)
  | .store addr value => .ok (.store addr value)
  | .call callee args => .ok (.call none callee args)
  | .spillStore slot value => .ok (.spillStore slot value)
  | .goto label => (blockOf func labels label).map .jump
  | .branch cond yes no =>
    (blockOf func labels yes).bind fun y => (blockOf func labels no).map fun n => .branch cond y n
  | .ret value => .ok (.ret value)

/-- The instructions of a list of statements. -/
def resolveStatements (func : String) (labels : List String) :
    List Statement → Except Failure (List Instr)
  | [] => .ok []
  | s :: rest =>
    (resolveStatement func labels s).bind fun i =>
      (resolveStatements func labels rest).map fun later => i :: later

def resolveBlocks (func : String) (labels : List String) :
    List (String × List Statement) → Except Failure (List (String × List Instr))
  | [] => .ok []
  | (label, body) :: rest =>
    (resolveStatements func labels body).bind fun instrs =>
      (resolveBlocks func labels rest).map fun later => (label, instrs) :: later

/-- The control flow graph of a written function. -/
def Func.ofSource (f : Source.Func) (automatic : Bool) : Except Failure Func :=
  (pinsFrom f.name automatic 0 [] f.params ∅).bind fun pins =>
    let cut := cutBlocks f.body
    if cut.all (·.2.isEmpty) then .error (.malformed f.name .noInstructions)
    else
      let named := nameBlocks f.name cut
      let labels := named.map (·.1)
      match firstRepeat [] labels with
      | some label => .error (.malformed f.name (.duplicateLabel label))
      | none =>
        (resolveBlocks f.name labels named).bind fun blocks =>
          Func.ofBlocks f.name (f.params.map (·.temp)) pins blocks

/-- The functions of a program by name. Each one succeeds or fails on its own, but a fault leaves
nothing. -/
def resolveProgram (program : Source.Program) (automatic : Bool) :
    Except Failure (List (String × Except Failure Func)) :=
  match program with
  | [] => .ok []
  | f :: rest =>
    match Func.ofSource f automatic with
    | .error (.fault reason) => .error (.fault reason)
    | resolved => (resolveProgram rest automatic).map fun later => (f.name, resolved) :: later

end RegisterColoring
