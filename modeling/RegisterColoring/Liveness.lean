import RegisterColoring.Flow
import RegisterColoring.Settings

namespace RegisterColoring

/-- The temps live before an instruction, from those live after it. -/
def Instr.liveBefore (i : Instr) (after : IndexSet) : IndexSet :=
  match i.dest? with
  | some d => (after.erase d).insertAll i.uses
  | none => after.insertAll i.uses

/-- The temps that a block reads before it writes them. -/
def Block.upwardUses (block : Block) : IndexSet := block.instrs.foldr Instr.liveBefore ∅

/-- The temps live before a row of instructions, and those live after each of them. -/
def livePoints (out : IndexSet) : List Instr → IndexSet × List IndexSet
  | [] => (out, [])
  | i :: rest =>
    let (after, later) := livePoints out rest
    (i.liveBefore after, after :: later)

/-- What a block does to the set at its end. -/
structure Transfer where
  /-- Temps read before they are written. -/
  gen : IndexSet
  /-- Temps written. -/
  kill : IndexSet
  succs : List BlockId
deriving DecidableEq

def Block.transfer (block : Block) : Transfer := ⟨block.upwardUses, block.defs, block.succs⟩

/-- The sets found so far. -/
structure FlowSets where
  /-- The temps live at the start of each block. -/
  atStart : List IndexSet
  /-- The temps live at the end of each block. -/
  atEnd : List IndexSet
  /-- Whether the sweep under way has enlarged a set at a start. -/
  changed : Bool

/-- Nothing is live in any of the blocks. -/
def FlowSets.start (count : Nat) : FlowSets :=
  ⟨List.replicate count ∅, List.replicate count ∅, false⟩

section Sweeps

variable {m : Type → Type} [Lookup m]

/-- The union of the sets at the starts of the given blocks. -/
def joinAtM (live : List IndexSet) (succs : List BlockId) : m IndexSet := do
  let sets ← succs.mapM fun s => Lookup.orElse live[s]? ∅
  return .unions sets

/-- The sets with those of block `b` computed again from its successors. A set only grows, so one of
the same size is the same set and stays. -/
def visitBlockM (transfers : List Transfer) (sets : FlowSets) (b : BlockId) : m FlowSets := do
  let t ← Lookup.orElse transfers[b]? ⟨∅, ∅, []⟩
  let out ← joinAtM sets.atStart t.succs
  let into := (out.diff t.kill) ∪ t.gen
  let old ← Lookup.orElse sets.atStart[b]? ∅
  let _ ← Lookup.orElse sets.atEnd[b]? ∅
  if into.size = old.size then return { sets with atEnd := sets.atEnd.set b out }
  else return ⟨sets.atStart.set b into, sets.atEnd.set b out, true⟩

/-- One sweep over the blocks in the given order. -/
def sweepM (transfers : List Transfer) (order : List BlockId) (sets : FlowSets) : m FlowSets :=
  order.foldlM (visitBlockM transfers) { sets with changed := false }

/-- Sweep until nothing changes, at most `bound` times; `passes` sweeps have been made before.
The result counts the last sweep too. -/
def settleM (step : FlowSets → m FlowSets) : Nat → Nat → FlowSets → m (Option (FlowSets × Nat))
  | 0, _, _ => return none
  | bound + 1, passes, sets => do
    let next ← step sets
    if next.changed then settleM step bound (passes + 1) next else return some (next, passes + 1)

end Sweeps

def joinAt (live : List IndexSet) (succs : List BlockId) : IndexSet := Id.run (joinAtM live succs)

def visitBlock (transfers : List Transfer) (sets : FlowSets) (b : BlockId) : FlowSets :=
  Id.run (visitBlockM transfers sets b)

def sweep (transfers : List Transfer) (order : List BlockId) (sets : FlowSets) : FlowSets :=
  Id.run (sweepM transfers order sets)

def settle (step : FlowSets → FlowSets) (bound passes : Nat) (sets : FlowSets) :
    Option (FlowSets × Nat) :=
  Id.run (settleM step bound passes sets)

theorem joinAt_def (live : List IndexSet) (succs : List BlockId) :
    joinAt live succs = .unions (succs.map fun s => live.getD s ∅) :=
  congrArg IndexSet.unions List.idRun_mapM

theorem visitBlock_def {transfers : List Transfer} {b : BlockId} {t : Transfer}
    (found : transfers.getD b ⟨∅, ∅, []⟩ = t) (sets : FlowSets) : visitBlock transfers sets b =
      if (((joinAt sets.atStart t.succs).diff t.kill) ∪ t.gen).size = (sets.atStart.getD b ∅).size
      then { sets with atEnd := sets.atEnd.set b (joinAt sets.atStart t.succs) }
      else
        ⟨sets.atStart.set b (((joinAt sets.atStart t.succs).diff t.kill) ∪ t.gen),
          sets.atEnd.set b (joinAt sets.atStart t.succs), true⟩ := by
  subst found
  rfl

theorem sweep_def (transfers : List Transfer) (order : List BlockId) (sets : FlowSets) :
    sweep transfers order sets =
      order.foldl (visitBlock transfers) { sets with changed := false } := List.idRun_foldlM

theorem settle_succ (step : FlowSets → FlowSets) (bound passes : Nat) (sets : FlowSets) :
    settle step (bound + 1) passes sets =
      if (step sets).changed then settle step bound (passes + 1) (step sets)
      else some (step sets, passes + 1) := rfl

/-- Liveness of one block. -/
structure BlockLiveness where
  liveIn : IndexSet
  liveOut : IndexSet
  /-- The temps live right after each instruction. -/
  liveAfter : List IndexSet
deriving DecidableEq

/-- Liveness of a function. -/
structure Liveness where
  blocks : List BlockLiveness
  reachable : IndexSet
  /-- Temps whose address is taken in code that can be reached. -/
  addressTaken : IndexSet
  /-- The number of sweeps, with the last one that changed nothing. -/
  passes : Nat
deriving DecidableEq

namespace Liveness

/-- Nothing is live in a block that cannot be reached. -/
def ofUnreachable (block : Block) : BlockLiveness := ⟨∅, ∅, block.instrs.map fun _ => ∅⟩

section Runs

variable {m : Type → Type} [Lookup m]

/-- The liveness of a block from the sets at its start and at its end. -/
def ofBlockM (addressTaken : IndexSet) (sets : FlowSets) (b : BlockId) (block : Block) :
    m BlockLiveness := do
  let out ← Lookup.orElse sets.atEnd[b]? ∅
  let into ← Lookup.orElse sets.atStart[b]? ∅
  return ⟨into ∪ addressTaken, out ∪ addressTaken,
    (livePoints out block.instrs).2.map (· ∪ addressTaken)⟩

/-- The temps whose address the given blocks take. -/
def addressTakenInM (f : Func) (order : List BlockId) : m IndexSet := do
  let temps ← order.mapM fun b =>
    Lookup.orElse (f.blocks[b]?.map fun block => block.instrs.filterMap Instr.addressTaken?) []
  return .ofList temps.flatten

/-- The liveness of all blocks, from the sets with which the sweeps end. -/
def rowsM (f : Func) (reachable addressTaken : IndexSet) (sets : FlowSets) :
    m (List BlockLiveness) := do
  let numbered ← f.numberedM
  numbered.mapM fun p =>
    if p.2 ∈ reachable then ofBlockM addressTaken sets p.2 p.1 else return ofUnreachable p.1

/-- The liveness of a function, unless it takes more than `bound` sweeps. -/
def analyzeM {ε : Type} [Pass ε m] (bound : Nat) (f : Func) : Except ε Liveness :=
  (Pass.look f.reachableM).bind fun reachable =>
    (Pass.look f.postorderM).bind fun order =>
      (Pass.look (addressTakenInM f order)).bind fun addressTaken =>
        let sweeps := settleM (sweepM (f.blocks.map Block.transfer) order) bound 0
          (.start f.blocks.length)
        (Pass.look sweeps).bind fun
          | none => Pass.lift (.error (.internal f.name (.livenessUnsettled bound) none))
          | some (sets, passes) =>
            (Pass.look (rowsM f reachable addressTaken sets)).bind fun blocks =>
              -- The journal names the sets of every block.
              (Pass.look (f.blocks.mapM fun block =>
                Lookup.orElse blocks[block.id]? (ofUnreachable block))).map fun _ =>
                { blocks, reachable, addressTaken, passes }

/-- The temps live right after instruction `i` of block `b`. -/
def liveAfterM (l : Liveness) (b : BlockId) (i : Nat) : m IndexSet :=
  Lookup.orElse (l.blocks[b]?.bind (·.liveAfter[i]?)) ∅

/-- The instructions of block `b`, each with the temps live after it. -/
def pairsM (l : Liveness) (b : BlockId) (block : Block) : m (List (Instr × IndexSet)) :=
  block.instrs.zipIdx.mapM fun p => do
    let live ← l.liveAfterM b p.2
    return (p.1, live)

/-- What is made of each block of `f`, by one function for those that can be reached and by another
for the rest. -/
def onBlocksM {β : Type} (l : Liveness) (f : Func)
    (live : BlockId → Block → List (Instr × IndexSet) → β) (other : Block → β) : m (List β) := do
  let numbered ← f.numberedM
  numbered.mapM fun p =>
    if p.2 ∈ l.reachable then do
      let points ← l.pairsM p.2 p.1
      return live p.2 p.1 points
    else return other p.1

/-- The instructions of all blocks of `f` that can be reached, with the temps live after them. -/
def pointsM (l : Liveness) (f : Func) : m (List (Instr × IndexSet)) := do
  let rows ← l.onBlocksM f (fun _ _ points => points) fun _ => []
  return rows.flatten

end Runs

def ofBlock (addressTaken : IndexSet) (sets : FlowSets) (b : BlockId) (block : Block) :
    BlockLiveness :=
  Id.run (ofBlockM addressTaken sets b block)

def addressTakenIn (f : Func) (order : List BlockId) : IndexSet := Id.run (addressTakenInM f order)

def analyze (bound : Nat) (f : Func) : Except Failure Liveness := analyzeM bound f

def liveIn (l : Liveness) (b : BlockId) : IndexSet :=
  match l.blocks[b]? with
  | some block => block.liveIn
  | none => ∅

def liveOut (l : Liveness) (b : BlockId) : IndexSet :=
  match l.blocks[b]? with
  | some block => block.liveOut
  | none => ∅

def liveAfter (l : Liveness) (b : BlockId) (i : Nat) : IndexSet := Id.run (l.liveAfterM b i)

def pairs (l : Liveness) (b : BlockId) (block : Block) : List (Instr × IndexSet) :=
  Id.run (l.pairsM b block)

def points (l : Liveness) (f : Func) : List (Instr × IndexSet) := Id.run (l.pointsM f)

/-- The temps live when the function starts. Without an entry block there is no answer. -/
def entryLiveIn (l : Liveness) : Except Failure IndexSet :=
  match l.blocks with
  | [] => .error (.fault .missingBlock)
  | block :: _ => .ok block.liveIn

theorem ofBlock_def (addressTaken : IndexSet) (sets : FlowSets) (b : BlockId) (block : Block) :
    ofBlock addressTaken sets b block =
      ⟨sets.atStart.getD b ∅ ∪ addressTaken, sets.atEnd.getD b ∅ ∪ addressTaken,
        (livePoints (sets.atEnd.getD b ∅) block.instrs).2.map (· ∪ addressTaken)⟩ := rfl

theorem addressTakenIn_def (f : Func) (order : List BlockId) : addressTakenIn f order =
    .ofList (order.flatMap fun b =>
      (f.blocks[b]?.map fun block => block.instrs.filterMap Instr.addressTaken?).getD []) := by
  rw [List.flatMap_def]
  exact congrArg (fun temps => IndexSet.ofList temps.flatten) List.idRun_mapM

theorem liveAfter_def (l : Liveness) (b : BlockId) (i : Nat) :
    l.liveAfter b i = (l.blocks[b]?.bind (·.liveAfter[i]?)).getD ∅ := rfl

theorem pairs_def (l : Liveness) (b : BlockId) (block : Block) :
    l.pairs b block = block.instrs.mapIdx fun i instr => (instr, l.liveAfter b i) := by
  rw [List.mapIdx_eq_zipIdx_map]
  exact List.idRun_mapM

theorem onBlocks_def {β : Type} (l : Liveness) (f : Func)
    (live : BlockId → Block → List (Instr × IndexSet) → β) (other : Block → β) :
    Id.run (l.onBlocksM f live other) = f.blocks.mapIdx fun b block =>
      if b ∈ l.reachable then live b block (l.pairs b block) else other block := by
  rw [List.mapIdx_eq_zipIdx_map, ← f.numbered_eq]
  refine List.idRun_mapM.trans (List.map_congr_left fun p _ => ?_)
  by_cases reach : p.2 ∈ l.reachable
  · simp only [if_pos reach]
    rfl
  · simp only [if_neg reach]
    rfl

theorem points_def (l : Liveness) (f : Func) : l.points f =
    (f.blocks.mapIdx fun b block => if b ∈ l.reachable then l.pairs b block else []).flatten :=
  congrArg List.flatten (l.onBlocks_def f (fun _ _ points => points) fun _ => [])

theorem rows_def (f : Func) (reachable addressTaken : IndexSet) (sets : FlowSets) :
    Id.run (rowsM f reachable addressTaken sets) = f.blocks.mapIdx fun b block =>
      if b ∈ reachable then ofBlock addressTaken sets b block else ofUnreachable block := by
  rw [List.mapIdx_eq_zipIdx_map, ← f.numbered_eq]
  refine List.idRun_mapM.trans (List.map_congr_left fun p _ => ?_)
  by_cases reach : p.2 ∈ reachable
  · simp only [if_pos reach]
    rfl
  · simp only [if_neg reach]
    rfl

/-- The sweeps of an analysis. -/
def sweeps (f : Func) (bound : Nat) : Option (FlowSets × Nat) :=
  settle (sweep (f.blocks.map Block.transfer) f.postorder) bound 0 (.start f.blocks.length)

/-- The result of an analysis whose sweeps end with the given sets. -/
def ofSets (f : Func) (sets : FlowSets) (passes : Nat) : Liveness where
  blocks := f.blocks.mapIdx fun b block =>
    if b ∈ f.reachable then ofBlock (addressTakenIn f f.postorder) sets b block
    else ofUnreachable block
  reachable := f.reachable
  addressTaken := addressTakenIn f f.postorder
  passes := passes

theorem analyze_of_none {bound : Nat} {f : Func} (unsettled : sweeps f bound = none) :
    analyze bound f = .error (.internal f.name (.livenessUnsettled bound) none) := by
  unfold analyze analyzeM
  simp only [Pass.look_id, Pass.lift_failure, Except.bind]
  split
  · rfl
  · rename_i sets passes run
    cases unsettled.symm.trans run

theorem analyze_of_some {bound passes : Nat} {f : Func} {sets : FlowSets}
    (settled : sweeps f bound = some (sets, passes)) :
    analyze bound f = .ok (ofSets f sets passes) := by
  unfold analyze analyzeM ofSets
  simp only [Pass.look_id, Pass.lift_failure, Except.bind, Except.map]
  split
  · rename_i run
    cases settled.symm.trans run
  · rename_i run
    cases settled.symm.trans run
    rw [← rows_def]
    rfl

end Liveness

end RegisterColoring
