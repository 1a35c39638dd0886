import RegisterColoring.Allocation
import RegisterColoring.Journal

namespace RegisterColoring

namespace Journal

/-- A temp in an entry. -/
def tempText (t : Temp) : String := "Temp(" ++ toString t ++ ")"

def listText (l : List String) : String := ", ".intercalate l

def setText (s : IndexSet) : String := "\x7b" ++ listText (s.toList.map tempText) ++ "\x7d"

def optionText : Option String → String
  | some s => "Some(" ++ s ++ ")"
  | none => "None"

def binOpText : BinOp → String
  | .add => "Add"
  | .sub => "Sub"
  | .mul => "Mul"
  | .div => "Div"
  | .mod => "Mod"
  | .bitAnd => "BitAnd"
  | .bitOr => "BitOr"
  | .bitXor => "BitXor"
  | .shiftLeft => "Shl"
  | .shiftRight => "Shr"
  | .less => "Lt"
  | .lessEqual => "Le"
  | .greater => "Gt"
  | .greaterEqual => "Ge"
  | .equal => "Eq"
  | .notEqual => "Neq"

def unOpText : UnOp → String
  | .neg => "Neg"
  | .not => "Not"
  | .bitNot => "BitNot"

def operandText : Operand → String
  | .const n => "Const(" ++ toString n ++ ")"
  | .temp t => "Temp(" ++ tempText t ++ ")"

def condText : Cond → String
  | .test arg => "Simp(" ++ operandText arg ++ ")"
  | .compare op left right =>
    "BinOp(" ++ listText [operandText left, binOpText op, operandText right] ++ ")"

/-- An instruction of a kind with named fields. -/
def recordText (kind : String) (fields : List (String × String)) : String :=
  kind ++ " \x7b " ++ listText (fields.map fun (name, value) => name ++ ": " ++ value) ++ " \x7d"

/-- An instruction in an entry, with its kind and its fields by name. -/
def instrText : Instr → String
  | .binary op dest left right =>
    recordText "BinOp" [("op", binOpText op), ("dest", tempText dest), ("src1", operandText left),
      ("src2", operandText right)]
  | .unary op dest arg =>
    recordText "UnOp" [("op", unOpText op), ("dest", tempText dest), ("src", operandText arg)]
  | .move dest arg => recordText "Mov" [("dest", tempText dest), ("src", operandText arg)]
  | .load dest addr => recordText "Load" [("dest", tempText dest), ("addr", tempText addr)]
  | .store addr value => recordText "Store" [("addr", tempText addr), ("src", operandText value)]
  | .addrOf dest var => recordText "AddrOf" [("dest", tempText dest), ("var", tempText var)]
  | .slotAddr dest slot => recordText "SlotAddr" [("dest", tempText dest), ("slot", toString slot)]
  | .call dest callee args =>
    recordText "Call" [("name", "\x22" ++ callee ++ "\x22"),
      ("args", "[" ++ listText (args.map operandText) ++ "]"), ("dest", optionText (dest.map tempText))]
  | .spillLoad dest slot => recordText "SpillLoad" [("dest", tempText dest), ("slot", toString slot)]
  | .spillStore slot value => recordText "SpillStore" [("slot", toString slot), ("src", tempText value)]
  | .jump target => recordText "Jmp" [("target", toString target)]
  | .branch cond yes no =>
    recordText "CondJmp" [("cond", condText cond), ("target_true", toString yes),
      ("target_false", toString no)]
  | .ret value => "Return(" ++ optionText (value.map operandText) ++ ")"

/-- A sweep of the liveness analysis. -/
def sweepEntry (f : Func) (pass : Nat) (changed : Bool) : Entry :=
  ⟨.trace, .liveness,
    "liveness pass " ++ toString pass ++ " of " ++ quoted f.name ++ " changed: " ++
      (if changed then "true" else "false")⟩

/-- The sets of a block. -/
def blockEntry (l : Liveness) (b : BlockId) (block : Block) : Entry :=
  ⟨.debug, .liveness,
    "Block " ++ block.label ++ ": in " ++ setText (l.liveIn b) ++ ", out " ++ setText (l.liveOut b)⟩

/-- The entries of a liveness analysis. Every sweep but the last of a settled one changes a set. -/
def liveness (bound : Nat) (f : Func) : List Entry :=
  match Liveness.analyze bound f with
  | .error _ => (List.range bound).map fun i => sweepEntry f (i + 1) true
  | .ok l =>
    (List.range l.passes).map (fun i => sweepEntry f (i + 1) (i + 1 < l.passes)) ++
      ⟨.debug, .liveness,
        "liveness of " ++ quoted f.name ++ " converged after " ++ toString l.passes ++ " passes"⟩ ::
      f.blocks.mapIdx (blockEntry l)

/-- The removal of an instruction. -/
def removalEntry (f : Func) (e : Eliminated) : Entry :=
  ⟨.trace, .deadCode, "dce removes " ++ instrText e.instr ++ " from " ++ f.blockName e.block⟩

/-- The entries of at most `left` more rounds of dead code elimination. -/
def deadCodeFrom (bound : Nat) : Nat → Nat → Func → List Entry
  | 0, _, _ => []
  | left + 1, rounds, f =>
    liveness bound f ++
      match Liveness.analyze bound f with
      | .error _ => []
      | .ok l =>
        let dead := f.deadCode l
        dead.map (removalEntry f) ++
          ⟨.debug, .deadCode,
            "dce round " ++ toString (rounds + 1) ++ " of " ++ quoted f.name ++ " removed " ++
              toString dead.length ++ " instructions"⟩ ::
          if dead.isEmpty then [] else deadCodeFrom bound left (rounds + 1) (f.withoutDead l)

/-- The entries of the steps before coloring. -/
def deadCode (s : Settings) (f : Func) : List Entry :=
  if s.deadCode then deadCodeFrom s.maxIterations s.maxIterations 0 f else liveness s.maxIterations f

/-- The size of an interference graph. -/
def graphEntry (f : Func) (g : Interference) : Entry :=
  ⟨.debug, .interference,
    "interference graph of " ++ quoted f.name ++ ": " ++ toString g.graph.size ++ " nodes, " ++
      toString g.graph.numEdges ++ " edges"⟩

/-- The entries of a coloring that succeeded, as round `number`. -/
def coloring (s : Settings) (number : Nat) (a : Attempt) : List Entry :=
  [⟨.debug, .coloring,
      "coloring of " ++ quoted a.func.name ++ " with " ++ toString s.colors ++ " colors: " ++
        toString a.coloring.colors.size ++ " colored, " ++ toString a.coloring.spilled.size ++
        " spilled"⟩,
    ⟨.debug, .pipeline,
      "round " ++ toString number ++ " of " ++ quoted a.func.name ++ ": " ++
        toString a.eliminated.length ++ " eliminated, " ++ toString a.coloring.spilled.size ++
        " spilled"⟩]

/-- The slots that spilled temps got. -/
def spillEntry (f : Func) (slots : IndexMap Slot) : Entry :=
  let pair (e : Temp × Slot) := tempText e.1 ++ ": " ++ toString e.2
  ⟨.debug, .spilling,
    "spilled [" ++ listText (slots.keys.toList.map tempText) ++ "] of " ++ quoted f.name ++ " to \x7b" ++
      listText (slots.entries.map pair) ++ "\x7d"⟩

/-- The graph that a round builds after elimination. -/
def graph (s : Settings) (f : Func) : List Entry :=
  match f.runDeadCode s with
  | (g, .ok (l, _)) =>
    match Interference.build g l with
    | .ok graph => [graphEntry g graph]
    | .error _ => []
  | (_, .error _) => []

/-- The entries of at most `left` more rounds of an allocation, from round `number` on. -/
def roundsFrom (s : Settings) : Nat → Nat → Func → List Entry
  | 0, _, _ => []
  | left + 1, number, f =>
    deadCode s f ++ graph s f ++
      match f.attempt s with
      | .error _ => []
      | .ok a =>
        coloring s number a ++
          match a.func.spill a.coloring.spilled.toList with
          | .error _ => []
          | .ok (slots, g) =>
            if slots.isEmpty then
              [⟨.info, .pipeline,
                "allocated " ++ quoted g.name ++ " in " ++ toString number ++ " rounds with " ++
                  toString g.numSlots ++ " spill slots"⟩]
            else spillEntry g slots :: roundsFrom s left (number + 1) g

/-- The entries of an allocation. -/
def allocation (s : Settings) (f : Func) : List Entry :=
  match f.pruneUnreachable with
  | .error _ => []
  | .ok (pruned, g) =>
    let dropped : Entry :=
      ⟨.info, .pipeline,
        "dropped " ++ toString pruned ++ " unreachable blocks of " ++ quoted g.name⟩
    (if 0 < pruned then [dropped] else []) ++ roundsFrom s (s.roundBound g) 1 g

end Journal

end RegisterColoring
