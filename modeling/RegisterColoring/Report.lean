import RegisterColoring.Allocation
import RegisterColoring.Instr.Text

namespace RegisterColoring

/-- The names that a function uses for itself. -/
def Func.naming (f : Func) : Naming := ⟨Temp.name, f.blockName, Slot.name⟩

/-- What a report adds to the lines of a block. -/
structure Annotation where
  /-- Lines below the label. -/
  opening : BlockId → List String
  /-- The line of instruction `i` of a block, unless it is left out. -/
  line : BlockId → Nat → Instr → Option String
  /-- Lines at the end. -/
  closing : BlockId → List String

namespace Report

/-- A text of lines. -/
def unlines (lines : List String) : String := String.join (lines.map (· ++ "\n"))

/-- The lines of block `b`. -/
def blockLines (a : Annotation) (label : String) (b : BlockId) (block : Block) : List String :=
  (label ++ ":") :: a.opening b ++
    (block.instrs.mapIdx fun i instr => (a.line b i instr).toList).flatten ++ a.closing b

/-- The lines of a function. -/
def funcLines (f : Func) (params : List String) (a : Annotation) : List String :=
  ("fn " ++ f.name ++ "(" ++ ", ".intercalate params ++ ") \x7b") ::
    (f.blocks.mapIdx fun b block => blockLines a block.label b block).flatten ++ ["\x7d"]

/-- A parameter with its pin. -/
def paramText (f : Func) (p : Temp) : String :=
  match (f.pinned.get? p).bind Register.ofColor? with
  | some r => Temp.name p ++ ": " ++ r.name
  | none => Temp.name p

def paramTexts (f : Func) : List String := f.params.map (paramText f)

/-- The names of a set of temps, with a blank between them. -/
def tempNames (s : IndexSet) : String := " ".intercalate (s.toList.map Temp.name)

end Report

open Report

/-- The lines of the function in its textual form. -/
def Func.listingLines (f : Func) : List String :=
  funcLines f (paramTexts f)
    ⟨fun _ => [], fun _ _ i => some ("  " ++ i.text f.naming ++ ";"), fun _ => []⟩

/-- The function in its textual form. -/
def Func.listing (f : Func) : String := unlines f.listingLines

/-- The function with the temps live at the ends of the blocks and after each instruction. -/
def Liveness.report (l : Liveness) (f : Func) : String :=
  let settled := "// liveness of " ++ quoted f.name ++ " settled after " ++ toString l.passes ++ " passes"
  let unreachable (b : BlockId) := if b ∈ l.reachable then [] else ["  // unreachable"]
  unlines (settled :: funcLines f (paramTexts f)
    ⟨fun b => unreachable b ++ ["  // in: " ++ tempNames (l.liveIn b)],
     fun b i instr =>
       some ("  " ++ instr.text f.naming ++ ";  // live: " ++ tempNames (l.liveAfter b i)),
     fun b => ["  // out: " ++ tempNames (l.liveOut b)]⟩)

/-- The line of a removed instruction. -/
def Eliminated.line (f : Func) (e : Eliminated) : String :=
  "// removed from " ++ f.blockName e.block ++ ": " ++ e.instr.text f.naming

/-- The function that an elimination left, and what it removed. -/
def Func.deadCodeReport (f : Func) (gone : List Eliminated) : String :=
  unlines (f.listingLines ++ gone.map (·.line f) ++
    ["// eliminated " ++ toString gone.length ++ " instructions"])

namespace Allocation

/-- Registers and frame places instead of temps and slots. -/
def naming (a : Allocation) : Naming where
  temp t := match a.assignment.get? t with
    | some (.reg c) => ((Register.ofColor? c).map (·.name)).getD (Temp.name t)
    | some (.slot s) => Slot.operand s
    | none => Temp.name t
  block := a.func.blockName
  slot := Slot.operand

/-- A copy between two temps in one register. -/
def isNop (a : Allocation) (i : Instr) : Bool :=
  match i.copy? with
  | some (d, s) =>
    match a.assignment.get? d, a.assignment.get? s with
    | some (.reg c), some (.reg e) => c = e
    | _, _ => false
  | none => false

/-- The lines that tell what a round did. -/
def roundLines (r : Round) : List String :=
  ("// round " ++ toString r.number ++ ": " ++ toString r.nodes ++ " nodes, " ++ toString r.edges ++
    " edges, " ++ toString r.eliminated.length ++ " eliminated") ::
    r.trace.map ("//   " ++ ·.text)

/-- The rounds of an allocation and its function in physical registers. A color without a register
cannot be written. -/
def report (a : Allocation) (colors : Nat) : Except Failure String :=
  let text := unlines (("NUM_COLORS=" ++ toString colors) :: a.rounds.flatMap roundLines ++
    funcLines a.func (a.func.params.map a.naming.temp)
      ⟨fun _ => [],
       fun _ _ i => if a.isNop i then none else some ("  " ++ i.text a.naming ++ ";"),
       fun _ => []⟩)
  match a.assignment.largestColor? with
  | some c =>
    if Register.pool.length ≤ c then .error (.config (.unnamedColor c a.func.name)) else .ok text
  | none => .ok text

/-- The final assignment as data. -/
def dump (a : Allocation) (colors : Nat) : Dump :=
  .record
    [("function", .text a.func.name),
     ("num_colors", .number colors),
     ("rounds", .number a.rounds.length),
     ("spill_slots", .number a.func.numSlots),
     ("assignment", a.assignment.dump)]

end Allocation

end RegisterColoring
