import RegisterColoring.Flow
import RegisterColoring.Weight

namespace RegisterColoring

/-- The temps that an instruction writes and reads. -/
def Instr.temps (i : Instr) : List Temp := i.dest?.toList ++ i.uses

namespace Func

/-- The cost of the occurrences of a temp in a block at loop depth `depth`: ten to the depth for each
time that it is written or read. -/
def blockCost (block : Block) (depth : Nat) (t : Temp) : Nat :=
  (block.instrs.flatMap Instr.temps).count t * Nat.pow 10 depth

/-- The cost of spilling a temp, given the blocks with their depths. A parameter that arrives in a
register costs one more. -/
def costIn (f : Func) (blocks : List (Block × Nat)) (t : Temp) : Cost :=
  if t ∈ f.spillTemps then .infinite
  else
    .finite (blocks.foldl (fun n (block, depth) => n + blockCost block depth t)
      (f.registerParams.count t))

section Runs

variable {m : Type → Type} [Lookup m]

/-- The blocks that can be reached, with their loop depths. -/
def weightedBlocksM (f : Func) : m (List (Block × Nat)) := do
  let depths ← f.loopDepthsM
  let reachable ← f.reachableM
  let numbered ← f.numberedM
  (numbered.filter (·.2 ∈ reachable)).mapM fun p => do
    let depth ← Lookup.orElse depths[p.2]? 0
    return (p.1, depth)

/-- The costs of all temps. -/
def spillCostsM (f : Func) : m (IndexMap Cost) := do
  let blocks ← f.weightedBlocksM
  return .ofKeys f.allTemps (f.costIn blocks)

end Runs

def weightedBlocks (f : Func) : List (Block × Nat) := Id.run f.weightedBlocksM

def spillCosts (f : Func) : IndexMap Cost := Id.run f.spillCostsM

theorem weightedBlocks_def (f : Func) : f.weightedBlocks =
    (f.blocks.zipIdx.filter (·.2 ∈ f.reachable)).map fun p => (p.1, f.loopDepths[p.2]?.getD 0) := by
  rw [← f.numbered_eq]
  exact List.idRun_mapM

theorem spillCosts_def (f : Func) : f.spillCosts = .ofKeys f.allTemps (f.costIn f.weightedBlocks) :=
  rfl

end Func

end RegisterColoring
