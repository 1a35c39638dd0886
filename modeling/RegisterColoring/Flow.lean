import RegisterColoring.Flow.DepthFirst
import RegisterColoring.Flow.Search
import RegisterColoring.Func

namespace RegisterColoring.Func

/-- Nesting beyond this depth does not make a temp more expensive to spill. -/
def maxLoopDepth : Nat := 8

/-- As many steps as a traversal along the given edges can take. -/
def stepsAlong (edges : List (List BlockId)) : Nat := edges.length + edges.flatten.length + 1

section Traversals

variable {m : Type → Type} [Lookup m]

/-- The blocks to which a path leads from the entry. -/
def reachableM (f : Func) : m IndexSet :=
  if f.blocks.isEmpty then pure ∅
  else searchM f.succsM .queue (stepsAlong (f.blocks.map (·.succs))) [entry] ∅

/-- The blocks that can be reached, successors before predecessors where no loop forbids it. -/
def postorderM (f : Func) : m (List BlockId) :=
  if f.blocks.isEmpty then pure []
  else leavingM f.succsM (stepsAlong (f.blocks.map (·.succs))) [(entry, 0)] (.ofList [entry]) []

/-- The header and the blocks that reach `tail` without passing through the header. -/
def naturalLoopM (f : Func) (header tail : BlockId) : m IndexSet :=
  searchM f.predsM .stack (stepsAlong (f.blocks.map (·.preds))) [tail] (.ofList [header])

/-- For each block to which an edge leads back the blocks of its loops. -/
def loopBodiesM (f : Func) : m (IndexMap IndexSet) :=
  if f.blocks.isEmpty then pure ∅
  else
    collectingM f.succsM f.naturalLoopM (stepsAlong (f.blocks.map (·.succs))) [(entry, 0)]
      (.ofList [entry]) (.ofList [entry]) ∅

/-- The depths with one block in one loop more. -/
def deepenM (depths : List Nat) (b : BlockId) : m (List Nat) := do
  let depth ← Lookup.orElse depths[b]? 0
  return depths.set b (min (depth + 1) maxLoopDepth)

/-- The number of loops around each block, at most `maxLoopDepth`. -/
def loopDepthsM (f : Func) : m (List Nat) := do
  let bodies ← f.loopBodiesM
  bodies.values.foldlM (fun depths body => body.toList.foldlM deepenM depths)
    (List.replicate f.blocks.length 0)

/-- The blocks with the numbers under which edges and tables know them, which are their places. -/
def numberedM (f : Func) : m (List (Block × BlockId)) :=
  f.blocks.zipIdx.mapM fun (block, b) => do
    let b ← Lookup.orElse (if block.id = b then some b else none) b
    return (block, b)

/-- The position of a block among the blocks kept. A block that is not kept has none, and keeps
its number. -/
def renumberM (kept : IndexSet) (b : BlockId) : m BlockId :=
  Lookup.orElse (kept.toList.idxOf? b) b

/-- The block with its own number and the targets of its last instruction renumbered. -/
def renumberBlockM (r : BlockId → m BlockId) (block : Block) : m Block := do
  let id ← r block.id
  match block.instrs.getLast? with
  | some last =>
    let last ← last.mapTargetsM r
    return { block with id, instrs := block.instrs.dropLast ++ [last] }
  | none => return { block with id }

/-- The function without the blocks that cannot be reached, and how many those were. -/
def pruneUnreachableM {ε : Type} [Pass ε m] (f : Func) : Except ε (Nat × Func) :=
  (Pass.look f.reachableM).bind fun kept =>
    let removed := f.blocks.length - kept.size
    if removed = 0 then .ok (0, f)
    else
      (Pass.look f.numberedM).bind fun numbered =>
        let blocks := (numbered.filter (·.2 ∈ kept)).map (·.1)
        (Pass.look (blocks.mapM (renumberBlockM (renumberM kept)))).bind fun blocks =>
          (Pass.lift { f with blocks }.rebuildEdges).map fun g => (removed, g)

end Traversals

def reachable (f : Func) : IndexSet := Id.run f.reachableM

def postorder (f : Func) : List BlockId := Id.run f.postorderM

def naturalLoop (f : Func) (header tail : BlockId) : IndexSet := Id.run (f.naturalLoopM header tail)

def loopBodies (f : Func) : IndexMap IndexSet := Id.run f.loopBodiesM

def loopDepths (f : Func) : List Nat := Id.run f.loopDepthsM

def renumber (kept : IndexSet) (b : BlockId) : BlockId := Id.run (renumberM kept b)

def renumberBlock (r : BlockId → BlockId) (block : Block) : Block := Id.run (renumberBlockM r block)

def pruneUnreachable (f : Func) : Except Failure (Nat × Func) := f.pruneUnreachableM

theorem numbered_eq (f : Func) : Id.run f.numberedM = f.blocks.zipIdx := by
  refine List.idRun_mapM.trans ((List.map_congr_left fun entry _ => ?_).trans (List.map_id' _))
  show (entry.1, (if entry.1.id = entry.2 then some entry.2 else none).getD entry.2) = entry
  split <;> rfl

end RegisterColoring.Func
