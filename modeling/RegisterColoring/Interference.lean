import RegisterColoring.Dump
import RegisterColoring.Graph
import RegisterColoring.Liveness

namespace RegisterColoring

/-- The interference graph of a function: two temps are joined if one is defined while the other is
live. A copy does not join its destination to its source. Everything that is live on entry is
defined there, and so are the parameters that arrive in registers. -/
structure Interference where
  graph : Graph Temp
  /-- Temps with a fixed color. -/
  pinned : IndexMap Color
  /-- Destination and source of the copies between temps, in ascending order. -/
  copies : List (Temp × Temp)

/-- Put a pair into an ascending list of pairs, unless it is there. -/
def insertPair (p : Nat × Nat) : List (Nat × Nat) → List (Nat × Nat)
  | [] => [p]
  | q :: rest =>
    if p = q then q :: rest
    else if p.1 < q.1 ∨ p.1 = q.1 ∧ p.2 < q.2 then p :: q :: rest
    else q :: insertPair p rest

theorem mem_insertPair {p q : Nat × Nat} {l : List (Nat × Nat)} :
    q ∈ insertPair p l ↔ q = p ∨ q ∈ l := by
  induction l with
  | nil => simp [insertPair]
  | cons head rest ih =>
    unfold insertPair
    split
    · rename_i same
      subst same
      simp
    · split
      · simp
      · simp only [List.mem_cons, ih]
        exact or_left_comm

namespace Interference

/-- The temps that a definition meets: those live after it, without itself and without the source
if it is a copy. -/
def clashes (i : Instr) (d : Temp) (live : IndexSet) : List Temp :=
  live.toList.filter fun t => t ≠ d ∧ some t ≠ i.copy?.map (·.2)

/-- All nodes. -/
def temps (g : Interference) : IndexSet := .ofList g.graph.nodes

def interferes (g : Interference) (t u : Temp) : Bool := g.graph.hasEdge t u

/-- The first pinned temp whose color is not below `colors`. -/
def pinBeyond? (g : Interference) (colors : Nat) : Option (Temp × Color) :=
  g.pinned.entries.find? fun (_, c) => colors ≤ c

/-- The graph of a function before the edges: its parameters in registers and its pinned temps. -/
def named (f : Func) : Graph Temp :=
  f.pinned.keys.toList.foldl Graph.addNode (f.registerParams.foldl Graph.addNode Graph.empty)

/-- The copies of a row of instructions. -/
def copiesOf (instrs : List Instr) : List (Temp × Temp) :=
  (instrs.filterMap Instr.copy?).foldl (fun acc p => insertPair p acc) []

section Runs

variable {ε : Type} {m : Type → Type} [Lookup m] [Pass ε m]

/-- The graph with edges from `d` to all temps of a list. -/
def addEdgesM (g : Graph Temp) (d : Temp) (others : List Temp) : m (Graph Temp) :=
  others.foldlM (fun h t => h.addEdgeM d t) g

/-- The graph with an instruction added, after which the temps `live` are live. -/
def addInstrM (g : Graph Temp) (i : Instr) (live : IndexSet) : m (Graph Temp) :=
  let read := i.uses.foldl Graph.addNode g
  match i.dest? with
  | none => return read
  | some d => addEdgesM (read.addNode d) d (clashes i d live)

/-- The graph with what is defined on entry joined to what is live there. -/
def addEntryM (g : Graph Temp) (params : List Temp) (live : IndexSet) : m (Graph Temp) :=
  (params ++ live.toList).foldlM (fun h d => addEdgesM h d live.toList) g

/-- The interference graph of a function. -/
def buildM (f : Func) (l : Liveness) : Except ε Interference :=
  (Pass.lift l.entryLiveIn).bind fun entryLive =>
    (Pass.look (addEntryM (named f) f.registerParams entryLive)).bind fun entered =>
      (Pass.look (l.pointsM f)).bind fun points =>
        (Pass.look (points.foldlM (fun g p => addInstrM g p.1 p.2) entered)).map fun graph =>
          { graph, pinned := f.pinned, copies := copiesOf (points.map (·.1)) }

/-- The neighbors of a temp, none if it is not a node. -/
def neighborsM (g : Interference) (t : Temp) : m IndexSet :=
  match g.graph.id? t with
  | none => return ∅
  | some id => do
    let others ← g.graph.neighborsAtM id
    return .ofList others

def degreeM (g : Interference) (t : Temp) : m Nat :=
  match g.graph.id? t with
  | none => return 0
  | some id => Lookup.orElse (g.graph.degree? id) 0

def nodeDumpM (g : Interference) (t : Temp) : m Dump := do
  let others ← g.neighborsM t
  return .record
    [("temp", .number t),
     ("precolored", (g.pinned.get? t).elim .null .number),
     ("neighbors", .list (others.toList.map .number))]

/-- The graph as data, for reports of failures. -/
def dumpM (g : Interference) (func : String) : m Dump := do
  let nodes ← g.temps.toList.mapM g.nodeDumpM
  return .record
    [("function", .text func),
     ("nodes", .list nodes),
     ("copies", .list (g.copies.map fun (d, s) => .list [.number d, .number s]))]

/-- The first two pinned temps that interfere and share a color, with that color. -/
def sharedPinM (g : Interference) : m (Option (Temp × Temp × Color)) :=
  g.pinned.entries.findSomeM? fun (t, c) => do
    let others ← g.neighborsM t
    return (others.toList.find? fun u => t < u ∧ g.pinned.get? u = some c).map fun u => (t, u, c)

/-- Pins have to lie below `colors`, and pinned neighbors have to differ. -/
def checkPinsM (g : Interference) (colors : Nat) (func : String) : Except ε Unit :=
  match g.pinBeyond? colors with
  | some (t, c) => Pass.lift (.error (.config (.pinBeyondColors t func c colors)))
  | none =>
    (Pass.look g.sharedPinM).bind fun
      | some (t, u, c) =>
        (Pass.look (g.dumpM func)).bind fun state =>
          Pass.lift (.error (.internal func (.sharedColor t u c) (some state.pretty)))
      | none => .ok ()

end Runs

def addInstr (g : Graph Temp) (i : Instr) (live : IndexSet) : Graph Temp :=
  Id.run (addInstrM g i live)

def addEntry (g : Graph Temp) (params : List Temp) (live : IndexSet) : Graph Temp :=
  Id.run (addEntryM g params live)

def build (f : Func) (l : Liveness) : Except Failure Interference := buildM f l

def neighbors (g : Interference) (t : Temp) : IndexSet := Id.run (g.neighborsM t)

def degree (g : Interference) (t : Temp) : Nat := Id.run (g.degreeM t)

def dump (g : Interference) (func : String) : Dump := Id.run (g.dumpM func)

def sharedPin? (g : Interference) : Option (Temp × Temp × Color) := Id.run g.sharedPinM

def checkPins (g : Interference) (colors : Nat) (func : String) : Except Failure Unit :=
  g.checkPinsM colors func

theorem addInstr_of_none {g : Graph Temp} {i : Instr} (live : IndexSet) (reads : i.dest? = none) :
    addInstr g i live = i.uses.foldl Graph.addNode g := by
  unfold addInstr addInstrM
  simp only [reads]
  rfl

theorem addInstr_of_some {g : Graph Temp} {i : Instr} {d : Temp} (live : IndexSet)
    (writes : i.dest? = some d) : addInstr g i live =
      (clashes i d live).foldl (fun h t => h.addEdge d t) ((i.uses.foldl Graph.addNode g).addNode d) := by
  unfold addInstr addInstrM
  simp only [writes]
  exact List.idRun_foldlM

theorem addEntry_def (g : Graph Temp) (params : List Temp) (live : IndexSet) :
    addEntry g params live = (params ++ live.toList).foldl
      (fun h d => live.toList.foldl (fun h t => h.addEdge d t) h) g := by
  have edges : (fun h d => Id.run (addEdgesM h d live.toList)) =
      fun h d => live.toList.foldl (fun h t => Graph.addEdge h d t) h :=
    funext fun _ => funext fun _ => List.idRun_foldlM
  rw [← edges]
  exact List.idRun_foldlM

theorem build_def (f : Func) (l : Liveness) : build f l =
    l.entryLiveIn.map fun entryLive =>
      { graph := (l.points f).foldl (fun g p => addInstr g p.1 p.2)
          (addEntry (named f) f.registerParams entryLive)
        pinned := f.pinned
        copies := copiesOf ((l.points f).map (·.1)) } := by
  unfold build buildM
  rw [Pass.lift_failure]
  cases l.entryLiveIn with
  | error e => rfl
  | ok entryLive =>
    refine congrArg Except.ok ?_
    rw [Interference.mk.injEq]
    exact ⟨List.idRun_foldlM, rfl, rfl⟩

theorem neighbors_def (g : Interference) (t : Temp) :
    g.neighbors t = .ofList ((g.graph.neighbors? t).getD []) := by
  unfold neighbors neighborsM Graph.neighbors?
  cases g.graph.id? t <;> rfl

theorem degree_def (g : Interference) (t : Temp) :
    g.degree t = ((g.graph.id? t).bind g.graph.degree?).getD 0 := by
  unfold degree degreeM
  cases g.graph.id? t <;> rfl

theorem sharedPin?_def (g : Interference) : g.sharedPin? =
    g.pinned.entries.findSome? fun e =>
      ((g.neighbors e.1).toList.find? fun u => e.1 < u ∧ g.pinned.get? u = some e.2).map
        fun u => (e.1, u, e.2) := List.idRun_findSomeM? _ _

section Pins

variable {g : Interference} {colors : Nat} {t u : Temp} {c : Color}

theorem checkPins_of_beyond (func : String) (beyond : g.pinBeyond? colors = some (t, c)) :
    g.checkPins colors func = .error (.config (.pinBeyondColors t func c colors)) := by
  simp only [checkPins, checkPinsM, beyond, Pass.lift_failure]

theorem checkPins_of_shared (func : String) (below : g.pinBeyond? colors = none)
    (shared : g.sharedPin? = some (t, u, c)) : g.checkPins colors func =
      .error (.internal func (.sharedColor t u c) (some (g.dump func).pretty)) := by
  have found : (g.sharedPinM : Id _) = some (t, u, c) := shared
  simp only [checkPins, checkPinsM, below, found, Pass.look_id, Except.bind]
  rfl

theorem checkPins_of_none (func : String) (below : g.pinBeyond? colors = none)
    (apart : g.sharedPin? = none) : g.checkPins colors func = .ok () := by
  have found : (g.sharedPinM : Id _) = none := apart
  simp only [checkPins, checkPinsM, below, found, Pass.look_id, Except.bind]

end Pins

end Interference

end RegisterColoring
