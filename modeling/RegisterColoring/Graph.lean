import RegisterColoring.IndexSet
import RegisterColoring.Lookup

namespace RegisterColoring

/-- An undirected graph without loops. A node is known by its payload; its number is the position at
which it was added. -/
structure Graph (α : Type) where
  /-- The payloads, in the order of addition. -/
  nodes : List α
  /-- The numbers of the payloads. -/
  index : List (α × Nat)
  /-- For each node the numbers of its neighbors. -/
  adjacent : List IndexSet
deriving DecidableEq

namespace Graph

variable {m : Type → Type} [Lookup m] {α : Type}

def empty : Graph α := ⟨[], [], []⟩

def size (g : Graph α) : Nat := g.nodes.length

def isEmpty (g : Graph α) : Bool := g.nodes.isEmpty

/-- The payload of a number. -/
def node? (g : Graph α) (id : Nat) : Option α := g.nodes[id]?

/-- The numbers of the neighbors of a node given by its number. -/
def neighborIds? (g : Graph α) (id : Nat) : Option IndexSet := g.adjacent[id]?

def degree? (g : Graph α) (id : Nat) : Option Nat := (g.neighborIds? id).map (·.size)

/-- The number of edges: each one has been stored at both ends. -/
def numEdges (g : Graph α) : Nat := (g.adjacent.flatMap (·.toList)).length / 2

/-- The neighbors of the node with a number, in the order of their numbers. -/
def neighborsAtM (g : Graph α) (n : Nat) : m (List α) := do
  let ids ← Lookup.orElse (g.neighborIds? n) ∅
  let found ← ids.toList.mapM fun k => Lookup.orElse ((g.node? k).map some) none
  return found.filterMap id

def neighborsAt (g : Graph α) (n : Nat) : List α := Id.run (g.neighborsAtM n)

theorem neighborsAt_def (g : Graph α) (n : Nat) :
    g.neighborsAt n = ((g.neighborIds? n).getD ∅).toList.filterMap g.node? := by
  have found : Id.run (((g.neighborIds? n).getD ∅).toList.mapM fun k =>
      (Lookup.orElse ((g.node? k).map some) none : Id (Option α))) =
      ((g.neighborIds? n).getD ∅).toList.map g.node? := by
    refine List.idRun_mapM.trans (List.map_congr_left fun k _ => ?_)
    show ((g.node? k).map some).getD none = g.node? k
    cases g.node? k <;> rfl
  refine (congrArg (List.filterMap id) found).trans ?_
  rw [List.filterMap_map]
  rfl

/-- The graph with the numbers `i` and `j` made neighbors. -/
def connectM (g : Graph α) (i j : Nat) : m (Graph α) := do
  let _ ← Lookup.orElse (g.neighborIds? i) ∅
  let _ ← Lookup.orElse (g.neighborIds? j) ∅
  return { g with adjacent := (g.adjacent.modify i (·.insert j)).modify j (·.insert i) }

def connect (g : Graph α) (i j : Nat) : Graph α := Id.run (g.connectM i j)

theorem connect_def (g : Graph α) (i j : Nat) : g.connect i j =
    { g with adjacent := (g.adjacent.modify i (·.insert j)).modify j (·.insert i) } := rfl

variable [DecidableEq α]

/-- The number of a node. -/
def id? (g : Graph α) (x : α) : Option Nat := g.index.lookup x

def contains (g : Graph α) (x : α) : Bool := (g.id? x).isSome

/-- The neighbors of a node. -/
def neighbors? (g : Graph α) (x : α) : Option (List α) := (g.id? x).map g.neighborsAt

def hasEdge (g : Graph α) (x y : α) : Bool :=
  match g.id? x, g.id? y with
  | some i, some j => j ∈ (g.neighborIds? i).getD ∅
  | _, _ => false

/-- The graph with a node for `x`, which is added at the end unless there is one. -/
def addNode (g : Graph α) (x : α) : Graph α :=
  if g.contains x then g
  else ⟨g.nodes ++ [x], (x, g.nodes.length) :: g.index, g.adjacent ++ [∅]⟩

/-- The graph with an edge between `x` and `y`, which are added if need be. An edge from a node to
itself is left out. -/
def addEdgeM (g : Graph α) (x y : α) : m (Graph α) :=
  let both := (g.addNode x).addNode y
  match both.id? x, both.id? y with
  | some i, some j => if i = j then return both else both.connectM i j
  | _, _ => Lookup.orElse none both

def addEdge (g : Graph α) (x y : α) : Graph α := Id.run (g.addEdgeM x y)

theorem addEdge_def {g : Graph α} {x y : α} {i j : Nat}
    (left : ((g.addNode x).addNode y).id? x = some i)
    (right : ((g.addNode x).addNode y).id? y = some j) :
    g.addEdge x y = if i = j then (g.addNode x).addNode y
      else ((g.addNode x).addNode y).connect i j := by
  unfold addEdge addEdgeM
  simp only [left, right]
  split <;> rfl

end Graph

end RegisterColoring
