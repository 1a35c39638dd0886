import RegisterColoring.Assignment
import RegisterColoring.Coloring
import RegisterColoring.DeadCode
import RegisterColoring.Spill

namespace RegisterColoring

/-- What one round did. -/
structure Round where
  number : Nat
  /-- The sweeps of the last liveness analysis. -/
  passes : Nat
  eliminated : List Eliminated
  nodes : Nat
  edges : Nat
  trace : List Event
  /-- The temps spilled, with their slots. -/
  spilled : IndexMap Slot

structure Allocation where
  /-- The function after elimination and spilling. -/
  func : Func
  assignment : Assignment
  rounds : List Round
  /-- The blocks dropped before the first round. -/
  prunedBlocks : Nat

namespace Allocation

def numSpilled (a : Allocation) : Nat := (a.rounds.flatMap (·.spilled.entries)).length

/-- The instructions removed in all rounds. -/
def eliminated (a : Allocation) : List Eliminated := a.rounds.flatMap (·.eliminated)

end Allocation

/-- A round before its spills are written into the function. -/
structure Attempt where
  /-- The function after elimination. -/
  func : Func
  liveness : Liveness
  eliminated : List Eliminated
  graph : Interference
  coloring : Coloring

/-- The report of an attempt as round `number`, once its temps are spilled. -/
def Attempt.round (a : Attempt) (number : Nat) (spilled : IndexMap Slot) : Round :=
  { number, spilled
    passes := a.liveness.passes
    eliminated := a.eliminated
    nodes := a.graph.graph.size
    edges := a.graph.graph.numEdges
    trace := a.coloring.trace }

namespace Allocation

/-- The final assignment: colors for what was colored, slots for what was spilled in any round. -/
def assignmentOf (colors : IndexMap Color) (slots : IndexMap Slot) : Assignment :=
  let registers : Assignment := .ofList (colors.entries.map fun (t, c) => (t, .reg c))
  registers.insertAll (slots.entries.map fun (t, s) => (t, .slot s))

end Allocation

/-- The bound on the rounds of an allocation of `f`. -/
def Settings.roundBound (s : Settings) (f : Func) : Nat := s.maxRounds.getD (f.allTemps.size + 1)

section Runs

variable {ε : Type} {m : Type → Type} [Lookup m] [Pass ε m]

/-- Remove dead code if the settings ask for it, and analyze liveness. The function is also given
if that fails. -/
def Func.runDeadCodeM (f : Func) (s : Settings) :
    Func × Except ε (Liveness × List Eliminated) :=
  match s.validate with
  | .error e => (f, Pass.lift (.error e))
  | .ok () =>
    if s.deadCode then
      let (g, outcome) := DeadCode.eliminateM s.maxIterations f
      (g, outcome.map fun d => (d.liveness, d.eliminated))
    else (f, (Liveness.analyzeM s.maxIterations f).map fun l => (l, []))

/-- Remove dead code and color. -/
def Func.attemptM (f : Func) (s : Settings) : Except ε Attempt :=
  let (func, outcome) := f.runDeadCodeM s
  outcome.bind fun (liveness, eliminated) =>
    (Interference.buildM func liveness).bind fun graph =>
      (graph.checkPinsM s.colors func.name).bind fun () =>
        (Pass.look func.spillCostsM).bind fun costs =>
          (graph.colorM (fun t => costs.getD t (.finite 0)) s.colors func).map fun coloring =>
            { func, liveness, eliminated, graph, coloring }

/-- At most `left` more rounds, after the given ones. -/
def Allocation.allocateFromM (s : Settings) (maxRounds prunedBlocks : Nat) :
    Nat → List Round → IndexMap Slot → Func → Except ε Allocation
  | 0, _, _, f => Pass.lift (.error (.internal f.name (.allocationUnsettled maxRounds) none))
  | left + 1, rounds, slots, f =>
    (f.attemptM s).bind fun a =>
      (a.func.spillM a.coloring.spilled.toList).bind fun (spilled, g) =>
        let rounds := rounds ++ [a.round (rounds.length + 1) spilled]
        let slots := slots.insertAll spilled.entries
        if spilled.isEmpty then
          .ok ⟨g, assignmentOf a.coloring.colors slots, rounds, prunedBlocks⟩
        else allocateFromM s maxRounds prunedBlocks left rounds slots g

/-- Allocate registers for a function: blocks that cannot be reached are dropped, then rounds of dead
code elimination, coloring and spilling follow one another until a round spills nothing. -/
def Func.allocateM (f : Func) (s : Settings) : Except ε Allocation :=
  (Pass.lift s.validate).bind fun () =>
    f.pruneUnreachableM.bind fun (prunedBlocks, g) =>
      let maxRounds := s.roundBound g
      Allocation.allocateFromM s maxRounds prunedBlocks maxRounds [] ∅ g

end Runs

namespace Func

def runDeadCode (f : Func) (s : Settings) : Func × Except Failure (Liveness × List Eliminated) :=
  f.runDeadCodeM s

def attempt (f : Func) (s : Settings) : Except Failure Attempt := f.attemptM s

def allocate (f : Func) (s : Settings) : Except Failure Allocation := f.allocateM s

end Func

def Allocation.allocateFrom (s : Settings) (maxRounds prunedBlocks left : Nat) (rounds : List Round)
    (slots : IndexMap Slot) (f : Func) : Except Failure Allocation :=
  allocateFromM s maxRounds prunedBlocks left rounds slots f

section Equations

variable {f : Func} {s : Settings}

theorem Func.runDeadCode_of_error {e : Failure} (invalid : s.validate = .error e) :
    f.runDeadCode s = (f, .error e) := by
  simp only [runDeadCode, runDeadCodeM, invalid, Pass.lift_failure]

theorem Func.runDeadCode_of_ok (valid : s.validate = .ok ()) : f.runDeadCode s =
    if s.deadCode then
      ((DeadCode.eliminate s.maxIterations f).1,
        (DeadCode.eliminate s.maxIterations f).2.map fun d => (d.liveness, d.eliminated))
    else (f, (Liveness.analyze s.maxIterations f).map fun l => (l, [])) := by
  simp only [runDeadCode, runDeadCodeM, valid]
  rfl

theorem Func.attempt_def (f : Func) (s : Settings) : f.attempt s =
    (f.runDeadCode s).2.bind fun found =>
      (Interference.build (f.runDeadCode s).1 found.1).bind fun graph =>
        (graph.checkPins s.colors (f.runDeadCode s).1.name).bind fun _ =>
          (graph.color (fun t => (f.runDeadCode s).1.spillCosts.getD t (.finite 0)) s.colors
            (f.runDeadCode s).1).map fun coloring =>
              { func := (f.runDeadCode s).1, liveness := found.1, eliminated := found.2, graph,
                coloring } := rfl

theorem Allocation.allocateFrom_succ (maxRounds prunedBlocks left : Nat) (rounds : List Round)
    (slots : IndexMap Slot) : allocateFrom s maxRounds prunedBlocks (left + 1) rounds slots f =
      (f.attempt s).bind fun a => (a.func.spill a.coloring.spilled.toList).bind fun spills =>
        if spills.1.isEmpty then
          .ok ⟨spills.2, assignmentOf a.coloring.colors (slots.insertAll spills.1.entries),
            rounds ++ [a.round (rounds.length + 1) spills.1], prunedBlocks⟩
        else allocateFrom s maxRounds prunedBlocks left
          (rounds ++ [a.round (rounds.length + 1) spills.1]) (slots.insertAll spills.1.entries)
          spills.2 := rfl

theorem Func.allocate_def (f : Func) (s : Settings) : f.allocate s =
    s.validate.bind fun _ => f.pruneUnreachable.bind fun pruned =>
      Allocation.allocateFrom s (s.roundBound pruned.2) pruned.1 (s.roundBound pruned.2) [] ∅
        pruned.2 := rfl

end Equations

end RegisterColoring
