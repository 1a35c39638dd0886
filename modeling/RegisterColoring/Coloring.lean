import RegisterColoring.Heap
import RegisterColoring.Interference
import RegisterColoring.SpillCost

namespace RegisterColoring

/-- A decision of the coloring. -/
inductive Event
  /-- Pushed with fewer neighbors left than there are colors. -/
  | simplify (t : Temp) (degree : Nat)
  /-- Pushed as the cheapest of those with many neighbors. -/
  | candidate (t : Temp) (weight : Weight)
  | assign (t : Temp) (c : Color)
  /-- Popped, and no color was left. -/
  | spill (t : Temp)
deriving DecidableEq

namespace Event

def text : Event → String
  | simplify t degree => "simplify " ++ Temp.name t ++ " (degree " ++ toString degree ++ ")"
  | candidate t weight => "potential spill " ++ Temp.name t ++ " (weight " ++ weight.text ++ ")"
  | assign t c => "assign " ++ Temp.name t ++ " -> " ++ toString c
  | spill t => "spill " ++ Temp.name t

/-- The temp that the decision is about. -/
def temp : Event → Temp
  | simplify t _ | candidate t _ | assign t _ | spill t => t

end Event

structure Coloring where
  colors : IndexMap Color
  /-- The temps that got no color. -/
  spilled : IndexSet
  trace : List Event

namespace Coloring

/-- The entry of least weight, the first of several. -/
def lightest (cost : Temp → Cost) : List (Temp × Nat) → Option (Temp × Weight)
  | [] => none
  | (t, degree) :: rest =>
    let weight := Weight.ofCost (cost t) degree
    match lightest cost rest with
    | some (u, other) => if other.lt weight then some (u, other) else some (t, weight)
    | none => some (t, weight)

/-- The next temp to push, of those that remain with their degrees. -/
def choose (cost : Temp → Cost) (colors : Nat) (remaining : List (Temp × Nat)) : Option Event :=
  match remaining.find? fun (_, degree) => degree < colors with
  | some (t, degree) => some (.simplify t degree)
  | none => (lightest cost remaining).map fun (t, weight) => .candidate t weight

/-- The table with the degree of a temp lowered by one, if it has one. -/
def lowerAt (degrees : IndexMap Nat) (t : Temp) : IndexMap Nat :=
  match degrees.get? t with
  | some degree => degrees.insert t (degree - 1)
  | none => degrees

def lower (degrees : IndexMap Nat) (temps : List Temp) : IndexMap Nat := temps.foldl lowerAt degrees

section Runs

variable {ε : Type} {m : Type → Type} [Lookup m] [Pass ε m]

/-- The temps that remain, with the degrees kept for them. -/
def entriesM (remaining : IndexSet) (degrees : IndexMap Nat) : m (List (Temp × Nat)) :=
  remaining.toList.mapM fun t => do
    let degree ← Lookup.orElse (degrees.get? t) 0
    return (t, degree)

/-- Push what remains, at most `steps` temps, and record the pushes in order. Each time it is the
lowest temp with fewer neighbors left than there are colors, or else the one of least weight as a
candidate for spilling. Its neighbors lose one degree. -/
def pushAllM (g : Interference) (cost : Temp → Cost) (colors : Nat) (func : String) :
    Nat → IndexSet → IndexMap Nat → Except ε (List Event)
  | 0, _, _ => .ok []
  | steps + 1, remaining, degrees =>
    if remaining.isEmpty then .ok []
    else
      (Pass.look (entriesM remaining degrees)).bind fun entries =>
        match choose cost colors entries with
        | none => Pass.lift (.error (.internal func .noCandidate none))
        | some event =>
          (Pass.look (g.neighborsM event.temp)).bind fun others =>
            (pushAllM g cost colors func steps (remaining.erase event.temp)
              (lower degrees others.toList)).map (event :: ·)

/-- The smallest number that is not the color of a neighbor of node `id`. -/
def freeColorM (g : Interference) (colors : IndexMap Color) (id : Nat) : m Color := do
  let others ← g.graph.neighborsAtM id
  return (Heap.ofList (others.filterMap colors.get?)).smallestAbsent.1

/-- Pop temps in the given order. Each gets the smallest color that none of its neighbors has, or is
spilled if that is no color at all. A temp of spill code has to get a color. -/
def popAllM (g : Interference) (colors : Nat) (f : Func) :
    List Temp → Coloring → Except ε Coloring
  | [], done => .ok done
  | t :: rest, done =>
    match g.graph.id? t with
    | none => Pass.lift (.error (.internal f.name (.notANode t) none))
    | some id =>
      (Pass.look (freeColorM g done.colors id)).bind fun c =>
        if c < colors then
          popAllM g colors f rest
            ⟨done.colors.insert t c, done.spilled, done.trace ++ [.assign t c]⟩
        else if t ∈ f.spillTemps then
          (Pass.look (g.dumpM f.name)).bind fun state =>
            Pass.lift (.error (.internal f.name (.crowded t colors) (some state.pretty)))
        else
          popAllM g colors f rest ⟨done.colors, done.spilled.insert t, done.trace ++ [.spill t]⟩

end Runs

def entries (remaining : IndexSet) (degrees : IndexMap Nat) : List (Temp × Nat) :=
  Id.run (entriesM remaining degrees)

def pushAll (g : Interference) (cost : Temp → Cost) (colors : Nat) (func : String) (steps : Nat)
    (remaining : IndexSet) (degrees : IndexMap Nat) : Except Failure (List Event) :=
  pushAllM g cost colors func steps remaining degrees

def freeColor (g : Interference) (colors : IndexMap Color) (id : Nat) : Color :=
  Id.run (freeColorM g colors id)

def popAll (g : Interference) (colors : Nat) (f : Func) (temps : List Temp) (done : Coloring) :
    Except Failure Coloring :=
  popAllM g colors f temps done

theorem entries_def (remaining : IndexSet) (degrees : IndexMap Nat) :
    entries remaining degrees = remaining.toList.map fun t => (t, (degrees.get? t).getD 0) :=
  List.idRun_mapM

theorem freeColor_def (g : Interference) (colors : IndexMap Color) (id : Nat) :
    freeColor g colors id =
      (Heap.ofList ((g.graph.neighborsAt id).filterMap colors.get?)).smallestAbsent.1 := rfl

section Steps

variable {g : Interference} {cost : Temp → Cost} {colors : Nat} {f : Func} {func : String}
  {steps : Nat} {remaining : IndexSet} {degrees : IndexMap Nat} {t : Temp} {done : Coloring}

theorem pushAll_of_isEmpty (empty : remaining.isEmpty = true) :
    pushAll g cost colors func steps remaining degrees = .ok [] := by
  cases steps with
  | zero => rfl
  | succ steps => simp only [pushAll, pushAllM, empty, if_true]

theorem pushAll_of_none (more : remaining.isEmpty = false)
    (stuck : choose cost colors (entries remaining degrees) = none) :
    pushAll g cost colors func (steps + 1) remaining degrees =
      .error (.internal func .noCandidate none) := by
  have found : choose cost colors (Id.run (entriesM remaining degrees)) = none := stuck
  simp only [pushAll, pushAllM, more, Pass.look_id, Except.bind]
  simp only [Id.run] at found
  simp only [found]
  rfl

theorem pushAll_of_some {event : Event} (more : remaining.isEmpty = false)
    (chosen : choose cost colors (entries remaining degrees) = some event) :
    pushAll g cost colors func (steps + 1) remaining degrees =
      (pushAll g cost colors func steps (remaining.erase event.temp)
        (lower degrees (g.neighbors event.temp).toList)).map (event :: ·) := by
  have found : choose cost colors (Id.run (entriesM remaining degrees)) = some event := chosen
  simp only [pushAll, pushAllM, more, Pass.look_id, Except.bind]
  simp only [Id.run] at found
  simp only [found]
  rfl

theorem popAll_nil : popAll g colors f [] done = .ok done := rfl

theorem popAll_of_none {rest : List Temp} (absent : g.graph.id? t = none) :
    popAll g colors f (t :: rest) done = .error (.internal f.name (.notANode t) none) := by
  simp only [popAll, popAllM, absent]
  rfl

theorem popAll_of_some {rest : List Temp} {id : Nat} (found : g.graph.id? t = some id) :
    popAll g colors f (t :: rest) done =
      if freeColor g done.colors id < colors then
        popAll g colors f rest ⟨done.colors.insert t (freeColor g done.colors id), done.spilled,
          done.trace ++ [.assign t (freeColor g done.colors id)]⟩
      else if t ∈ f.spillTemps then
        .error (.internal f.name (.crowded t colors) (some (g.dump f.name).pretty))
      else
        popAll g colors f rest ⟨done.colors, done.spilled.insert t, done.trace ++ [.spill t]⟩ := by
  simp only [popAll, popAllM, found, Pass.look_id, Except.bind]
  rfl

end Steps

end Coloring

namespace Interference

/-- The temps to push. -/
def unpinned (g : Interference) : IndexSet := g.temps.filter fun t => !g.pinned.contains t

section Runs

variable {ε : Type} {m : Type → Type} [Lookup m] [Pass ε m]

/-- The table of all degrees. -/
def degreesM (g : Interference) : m (IndexMap Nat) := do
  let entries ← g.temps.toList.mapM fun t => do
    let degree ← g.degreeM t
    return (t, degree)
  return .ofList entries

/-- Push all temps that are not pinned. -/
def pushesM (g : Interference) (cost : Temp → Cost) (colors : Nat) (func : String) :
    Except ε (List Event) :=
  (Pass.look g.degreesM).bind fun degrees =>
    Coloring.pushAllM g cost colors func g.unpinned.size g.unpinned degrees

/-- Color the graph with colors below `colors`. Pinned temps keep their color. -/
def colorM (g : Interference) (cost : Temp → Cost) (colors : Nat) (f : Func) :
    Except ε Coloring :=
  (g.pushesM cost colors f.name).bind fun pushes =>
    Coloring.popAllM g colors f (pushes.map (·.temp)).reverse ⟨g.pinned, ∅, pushes⟩

end Runs

def degrees (g : Interference) : IndexMap Nat := Id.run g.degreesM

def pushes (g : Interference) (cost : Temp → Cost) (colors : Nat) (func : String) :
    Except Failure (List Event) :=
  g.pushesM cost colors func

def color (g : Interference) (cost : Temp → Cost) (colors : Nat) (f : Func) :
    Except Failure Coloring :=
  g.colorM cost colors f

theorem degrees_def (g : Interference) :
    g.degrees = .ofList (g.temps.toList.map fun t => (t, g.degree t)) :=
  congrArg IndexMap.ofList List.idRun_mapM

theorem pushes_def (g : Interference) (cost : Temp → Cost) (colors : Nat) (func : String) :
    g.pushes cost colors func =
      Coloring.pushAll g cost colors func g.unpinned.size g.unpinned g.degrees := rfl

theorem color_def (g : Interference) (cost : Temp → Cost) (colors : Nat) (f : Func) :
    g.color cost colors f = (g.pushes cost colors f.name).bind fun pushes =>
      Coloring.popAll g colors f (pushes.map (·.temp)).reverse ⟨g.pinned, ∅, pushes⟩ := rfl

end Interference

end RegisterColoring
