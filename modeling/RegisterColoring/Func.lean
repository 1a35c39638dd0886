import RegisterColoring.IndexMap
import RegisterColoring.Instr
import RegisterColoring.Lookup

namespace RegisterColoring

/-- A straight piece of code, and the blocks before and behind it as `link` computes them. -/
structure Block where
  /-- The number by which jumps name the block. -/
  id : BlockId
  label : String
  instrs : List Instr
  succs : List BlockId
  preds : List BlockId
deriving DecidableEq

/-- A function as its control flow graph. The position of a block is its number. -/
structure Func where
  name : String
  params : List Temp
  /-- Temps whose register is fixed. -/
  pinned : IndexMap Color
  blocks : List Block
  /-- Temps that spill code introduced. They are never spilled again. -/
  spillTemps : IndexSet
  /-- Spilled parameters, which arrive in their slot instead of a register. -/
  stackParams : IndexMap Slot
  numSlots : Nat
  /-- The number of the next fresh temp. -/
  nextTemp : Nat
deriving DecidableEq

/-- Whether control passes from the end of a block to the block below. -/
def fallsThrough (instrs : List Instr) : Bool :=
  match instrs.getLast? with
  | some last => !last.isTerminator
  | none => true

/-- The successors of block `b` of `count` blocks. -/
def successorsOf (count b : Nat) (instrs : List Instr) : List BlockId :=
  let jumps := match instrs.getLast? with
    | some last => last.targets
    | none => []
  if fallsThrough instrs && b + 1 < count then jumps ++ [b + 1] else jumps

/-- The blocks with their successors and predecessors computed afresh. A jump past the last block
has no result. -/
def link (blocks : List Block) : Except Failure (List Block) :=
  let succs := blocks.mapIdx fun b block => successorsOf blocks.length b block.instrs
  if succs.all (·.all (· < blocks.length)) then
    .ok (blocks.mapIdx fun b block =>
      { block with
        succs := succs.getD b []
        preds := (List.range blocks.length).filter fun p => b ∈ succs.getD p [] })
  else .error (.fault .missingBlock)

namespace Block

/-- The temps that the block writes. -/
def defs (block : Block) : IndexSet := .ofList (block.instrs.filterMap Instr.dest?)

end Block

namespace Func

/-- Every function starts at its first block. -/
def entry : BlockId := 0

/-- The function with its edges computed afresh. -/
def rebuildEdges (f : Func) : Except Failure Func := do
  let blocks ← link f.blocks
  return { f with blocks }

def succsM {m : Type → Type} [Lookup m] (f : Func) (b : BlockId) : m (List BlockId) :=
  Lookup.orElse (f.blocks[b]?.map (·.succs)) []

def predsM {m : Type → Type} [Lookup m] (f : Func) (b : BlockId) : m (List BlockId) :=
  Lookup.orElse (f.blocks[b]?.map (·.preds)) []

def succs (f : Func) (b : BlockId) : List BlockId := Id.run (f.succsM b)

def preds (f : Func) (b : BlockId) : List BlockId := Id.run (f.predsM b)

/-- The instructions of all blocks. -/
def instrs (f : Func) : List Instr := f.blocks.flatMap (·.instrs)

def instrCount (f : Func) : Nat := f.instrs.length

/-- The parameters that arrive in a register. -/
def registerParams (f : Func) : List Temp := f.params.filter fun p => !f.stackParams.contains p

/-- The blocks without successors. -/
def exits (f : Func) : List BlockId :=
  (List.range f.blocks.length).filter fun b => (f.succs b).isEmpty

/-- Every temp that a parameter, a pin or an instruction names. -/
def allTemps (f : Func) : IndexSet :=
  (f.pinned.keys.insertAll f.params).insertAll
    (f.instrs.flatMap fun i => i.dest?.toList ++ i.uses)

/-- How the function calls a block. -/
def blockName (f : Func) (b : BlockId) : String :=
  match f.blocks[b]? with
  | some block => block.label
  | none => ".b" ++ toString b

section Draws

variable {ε : Type} {m : Type → Type} [Pass ε m]

/-- The function with a number for a new temp. -/
def freshTempM (f : Func) : Except ε (Temp × Func) :=
  if f.nextTemp < maxIndex then .ok (f.nextTemp, { f with nextTemp := f.nextTemp + 1 })
  else .error (Pass.noTemp f.nextTemp)

/-- The function with a new temp that holds a spilled value for one instruction. -/
def freshSpillTempM (f : Func) : Except ε (Temp × Func) := do
  let (t, g) ← f.freshTempM
  return (t, { g with spillTemps := g.spillTemps.insert t })

/-- The function with a new slot. -/
def allocSlotM (f : Func) : Except ε (Slot × Func) :=
  if f.numSlots < maxIndex then .ok (f.numSlots, { f with numSlots := f.numSlots + 1 })
  else .error (Pass.noSlot f.numSlots)

end Draws

def freshTemp (f : Func) : Except Failure (Temp × Func) := f.freshTempM

def freshSpillTemp (f : Func) : Except Failure (Temp × Func) := f.freshSpillTempM

def allocSlot (f : Func) : Except Failure (Slot × Func) := f.allocSlotM

/-- The function with every instruction changed and its edges as they were. -/
def mapInstrs (f : Func) (g : Instr → Instr) : Func :=
  { f with blocks := f.blocks.map fun block => { block with instrs := block.instrs.map g } }

end Func

/-- One more than the largest entry of a list, zero if there is none. -/
def nextAbove (l : List Nat) : Nat := l.foldl (fun n x => max n (x + 1)) 0

/-- A function of labelled blocks. Its counters start above the temps and slots that it names. -/
def Func.ofBlocks (name : String) (params : List Temp) (pinned : IndexMap Color)
    (blocks : List (String × List Instr)) : Except Failure Func :=
  let f : Func :=
    { name, params, pinned
      blocks := blocks.mapIdx fun b (label, instrs) => ⟨b, label, instrs, [], []⟩
      spillTemps := ∅
      stackParams := ∅
      numSlots := 0
      nextTemp := 0 }
  let nextTemp := nextAbove f.allTemps.toList
  let numSlots := nextAbove (f.instrs.filterMap Instr.slot?)
  if maxIndex < nextTemp ∨ maxIndex < numSlots then .error (.fault .counterExhausted)
  else f.rebuildEdges.map fun linked => { linked with nextTemp, numSlots }

end RegisterColoring
