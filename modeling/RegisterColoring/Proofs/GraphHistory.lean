import Mathlib.Algebra.BigOperators.Fin
import Mathlib.Combinatorics.SimpleGraph.DegreeSum
import RegisterColoring.Proofs.Graphs

namespace RegisterColoring.Graph

variable {α : Type}

/-- A call that adds to a graph. -/
inductive Call (α : Type)
  | node (x : α)
  | edge (x y : α)

namespace Call

/-- The nodes that a call names. -/
def names : Call α → List α
  | node x => [x]
  | edge x y => [x, y]

/-- The two nodes that a call joins, in no order. -/
def pair? : Call α → Option (Sym2 α)
  | node _ => none
  | edge x y => some s(x, y)

end Call

/-- The numbers of the nodes, as a simple graph. -/
def Valid.simple {g : Graph α} (valid : g.Valid) : SimpleGraph (Fin g.nodes.length) where
  Adj i j := g.Joined i j
  symm := ⟨fun i j joined => valid.symm i j joined⟩
  loopless := ⟨fun i joined => valid.apart i joined⟩

instance {g : Graph α} (valid : g.Valid) : DecidableRel valid.simple.Adj := fun i j =>
  inferInstanceAs (Decidable ((j : Nat) ∈ (g.neighborIds? i).getD ∅))

/-- The degree of a node is the number of its stored neighbors. -/
theorem Valid.degree_simple {g : Graph α} (valid : g.Valid) (i : Fin g.nodes.length) :
    (g.degree? i).getD 0 = valid.simple.degree i := by
  have bound : (i : Nat) < g.adjacent.length := by
    rw [valid.length]
    exact i.isLt
  have stored := List.getElem?_eq_getElem bound
  have joined : ∀ j, g.Joined i j ↔ j ∈ g.adjacent[i].toList := by
    intro j
    unfold Joined neighborIds?
    rw [stored, Option.getD_some]
    exact Iff.rfl
  have members : (valid.simple.neighborFinset i).map Fin.valEmbedding =
      g.adjacent[i].toList.toFinset := by
    ext j
    rw [Finset.mem_map, List.mem_toFinset, ← joined]
    constructor
    · rintro ⟨k, adjacent, same⟩
      subst same
      exact (SimpleGraph.mem_neighborFinset ..).mp adjacent
    · intro edge
      exact ⟨⟨j, valid.inside i j edge⟩, (SimpleGraph.mem_neighborFinset ..).mpr edge, rfl⟩
  rw [degree?, neighborIds?, stored, Option.map_some, Option.getD_some,
    ← SimpleGraph.card_neighborFinset_eq_degree, ← Finset.card_map, members,
    List.toFinset_card_of_nodup g.adjacent[i].nodup_toList]
  rfl

theorem Valid.sum_degrees {g : Graph α} (valid : g.Valid) :
    ∑ i ∈ Finset.range g.size, (g.degree? i).getD 0 = 2 * valid.simple.edgeFinset.card := by
  rw [size, Finset.sum_range, ← SimpleGraph.sum_degrees_eq_twice_card_edges]
  exact Finset.sum_congr rfl fun i _ => valid.degree_simple i

/-- The stored neighbors are as many as the degrees say. -/
theorem Valid.length_neighbors {g : Graph α} (valid : g.Valid) :
    (g.adjacent.flatMap (·.toList)).length =
      ∑ i ∈ Finset.range g.size, (g.degree? i).getD 0 := by
  rw [List.length_flatMap, ← Fin.sum_univ_fun_getElem, size, Finset.sum_range]
  refine Fintype.sum_equiv (finCongr valid.length) _ _ fun i => ?_
  rw [degree?, neighborIds?, finCongr_apply_coe, List.getElem?_eq_getElem i.isLt]
  rfl

theorem Valid.sum_degrees_eq_numEdges {g : Graph α} (valid : g.Valid) :
    ∑ i ∈ Finset.range g.size, (g.degree? i).getD 0 = 2 * g.numEdges := by
  rw [numEdges, valid.length_neighbors, valid.sum_degrees]
  omega

variable [DecidableEq α]

/-- The edges between numbers are those between the nodes that have the numbers. -/
theorem Valid.mem_map_edges {g : Graph α} (valid : g.Valid) {x y : α} :
    s(x, y) ∈ valid.simple.edgeFinset.image (Sym2.map g.nodes.get) ↔ g.hasEdge x y = true := by
  rw [hasEdge_iff valid, Finset.mem_image]
  constructor
  · rintro ⟨edge, member, value⟩
    induction edge using Sym2.ind with
    | _ i j =>
      have joined : g.Joined i j := SimpleGraph.mem_edgeFinset.mp member
      have atI : g.nodes[(i : Nat)]? = some (g.nodes.get i) := List.getElem?_eq_getElem i.isLt
      have atJ : g.nodes[(j : Nat)]? = some (g.nodes.get j) := List.getElem?_eq_getElem j.isLt
      rw [Sym2.map_mk, Sym2.eq_iff] at value
      rcases value with ⟨first, second⟩ | ⟨first, second⟩
      · exact ⟨i, j, first ▸ atI, second ▸ atJ, joined⟩
      · exact ⟨j, i, second ▸ atJ, first ▸ atI, valid.symm i j joined⟩
  · rintro ⟨i, j, atX, atY, joined⟩
    obtain ⟨iBound, first⟩ := List.getElem?_eq_some_iff.mp atX
    obtain ⟨jBound, second⟩ := List.getElem?_eq_some_iff.mp atY
    exact ⟨s(⟨i, iBound⟩, ⟨j, jBound⟩), SimpleGraph.mem_edgeFinset.mpr joined,
      congrArg₂ (fun u v => s(u, v)) first second⟩

/-- The number of edges is that of the unordered pairs that are joined. -/
theorem Valid.numEdges_eq_card {g : Graph α} (valid : g.Valid) {pairs : Finset (Sym2 α)}
    (same : ∀ x y, s(x, y) ∈ pairs ↔ g.hasEdge x y = true) : g.numEdges = pairs.card := by
  have injective : Function.Injective g.nodes.get := List.nodup_iff_injective_get.mp valid.nodup
  have image : valid.simple.edgeFinset.image (Sym2.map g.nodes.get) = pairs := by
    ext pair
    induction pair using Sym2.ind with
    | _ x y => rw [valid.mem_map_edges, same]
  have twice := valid.sum_degrees_eq_numEdges
  rw [valid.sum_degrees] at twice
  rw [← image, Finset.card_image_of_injective _ (Sym2.map.injective injective)]
  omega

/-- The graph after a call. -/
def Call.apply (g : Graph α) : Call α → Graph α
  | node x => g.addNode x
  | edge x y => g.addEdge x y

/-- The graph that calls build from nothing. -/
def ofCalls (calls : List (Call α)) : Graph α := calls.foldl Call.apply empty

/-- The unordered pairs of different nodes that calls join. -/
def joinedPairs (calls : List (Call α)) : Finset (Sym2 α) :=
  (calls.filterMap Call.pair?).toFinset.filter (¬ ·.IsDiag)

theorem mem_joinedPairs {calls : List (Call α)} {x y : α} :
    s(x, y) ∈ joinedPairs calls ↔ x ≠ y ∧ (.edge x y ∈ calls ∨ .edge y x ∈ calls) := by
  have joins : ∀ c : Call α, c.pair? = some s(x, y) ↔ c = .edge x y ∨ c = .edge y x := by
    intro c
    cases c with
    | node z => simp [Call.pair?]
    | edge u v => simp [Call.pair?]
  unfold joinedPairs
  rw [Finset.mem_filter, List.mem_toFinset, List.mem_filterMap, Sym2.mk_isDiag_iff, and_comm]
  simp only [joins]
  grind

/-- A call adds the nodes that it names, and the edge between them. -/
theorem apply_extends {g : Graph α} (valid : g.Valid) (c : Call α) :
    Extends g (c.apply g) (· ∈ c.names) fun x y => c = .edge x y := by
  cases c with
  | node x => exact (addNode_extends valid x).congr (by simp [Call.names]) (by simp)
  | edge x y =>
    refine (addEdge_extends valid x y).congr (by simp [Call.names]) fun u v => ?_
    rw [Call.edge.injEq, eq_comm, eq_comm (a := v)]

theorem ofCalls_extends (calls : List (Call α)) :
    Extends empty (ofCalls calls) (fun x => ∃ c ∈ calls, x ∈ c.names)
      fun x y => ∃ c ∈ calls, c = .edge x y :=
  Extends.foldl Call.apply (fun _ valid c => apply_extends valid c) valid_empty calls

theorem nodes_addEdge (g : Graph α) (x y : α) :
    (g.addEdge x y).nodes = ((g.addNode x).addNode y).nodes := by
  unfold addEdge addEdgeM
  dsimp only
  split
  · split <;> rfl
  · rfl

/-- A node keeps its number through a call. -/
theorem apply_getElem? {g : Graph α} (c : Call α) {i : Nat} {x : α}
    (place : g.nodes[i]? = some x) : (c.apply g).nodes[i]? = some x := by
  cases c with
  | node y => exact addNode_getElem? y place
  | edge y z =>
    show (g.addEdge y z).nodes[i]? = some x
    rw [nodes_addEdge]
    exact addNode_getElem? z (addNode_getElem? y place)

theorem foldl_apply_getElem? {g : Graph α} (calls : List (Call α)) {i : Nat} {x : α}
    (place : g.nodes[i]? = some x) : (calls.foldl Call.apply g).nodes[i]? = some x := by
  induction calls generalizing g with
  | nil => exact place
  | cons c rest ih => exact ih (apply_getElem? c place)

/-- The graph represents what calls have added: its tables agree, its nodes are those that were
named, its edges those that were added in either direction, and half the sum of the degrees is the
number of different pairs that were joined. -/
structure Records (g : Graph α) (calls : List (Call α)) : Prop where
  valid : g.Valid
  index : ∀ x i, g.id? x = some i ↔ g.nodes[i]? = some x
  nodes : ∀ x, x ∈ g.nodes ↔ ∃ c ∈ calls, x ∈ c.names
  edges : ∀ x y, g.hasEdge x y = true ↔ x ≠ y ∧ (.edge x y ∈ calls ∨ .edge y x ∈ calls)
  degrees : ∑ i ∈ Finset.range g.size, (g.degree? i).getD 0 = 2 * g.numEdges
  numEdges : g.numEdges = (joinedPairs calls).card

theorem ofCalls_hasEdge (calls : List (Call α)) (x y : α) :
    (ofCalls calls).hasEdge x y = true ↔ x ≠ y ∧ (.edge x y ∈ calls ∨ .edge y x ∈ calls) := by
  have none : (empty : Graph α).hasEdge x y = false := rfl
  rw [(ofCalls_extends calls).edges, none]
  simp

theorem ofCalls_records (calls : List (Call α)) : (ofCalls calls).Records calls := by
  have all := ofCalls_extends calls
  refine ⟨all.valid, fun x i => id?_eq_some all.valid, fun x => ?_, ofCalls_hasEdge calls,
    all.valid.sum_degrees_eq_numEdges, all.valid.numEdges_eq_card fun x y => ?_⟩
  · rw [all.nodes]
    simp [empty]
  · rw [mem_joinedPairs, ofCalls_hasEdge]

/-- After any calls the graph records exactly what they added, later calls leave the numbers of its
nodes as they are, and the same calls in another order give the same edges. -/
theorem ofCalls_history (calls later : List (Call α)) :
    (ofCalls calls).Records calls ∧
    (∀ x i, (ofCalls calls).id? x = some i → (ofCalls (calls ++ later)).id? x = some i) ∧
    ∀ other, calls.Perm other → (ofCalls other).numEdges = (ofCalls calls).numEdges ∧
      ∀ x y, (ofCalls other).hasEdge x y = (ofCalls calls).hasEdge x y := by
  have records := ofCalls_records calls
  refine ⟨records, fun x i found => ?_, fun other same => ?_⟩
  · have place := (records.index x i).mp found
    refine ((ofCalls_records (calls ++ later)).index x i).mpr ?_
    rw [ofCalls, List.foldl_append]
    exact foldl_apply_getElem? later place
  · have pairs : joinedPairs other = joinedPairs calls := by
      ext pair
      induction pair using Sym2.ind with
      | _ x y => rw [mem_joinedPairs, mem_joinedPairs, same.mem_iff, same.mem_iff]
    refine ⟨?_, fun x y => ?_⟩
    · rw [records.numEdges, (ofCalls_records other).numEdges, pairs]
    · rw [Bool.eq_iff_iff, ofCalls_hasEdge, ofCalls_hasEdge, same.mem_iff, same.mem_iff]

/-- An edge in both directions, a loop, another edge, and a node without edges. -/
def crossedCalls : List (Call Nat) := [.edge 1 2, .edge 2 1, .edge 7 7, .edge 3 2, .node 4]

theorem crossedCalls_history :
    (ofCalls crossedCalls).Records crossedCalls ∧
    (ofCalls crossedCalls).nodes = [1, 2, 7, 3, 4] ∧ (ofCalls crossedCalls).numEdges = 2 ∧
    (ofCalls (crossedCalls ++ [.edge 9 4])).id? 3 = some 3 ∧
    (ofCalls crossedCalls.reverse).nodes = [4, 3, 2, 7, 1] ∧
    (ofCalls crossedCalls.reverse).numEdges = 2 := by
  obtain ⟨records, numbers, order⟩ := ofCalls_history crossedCalls [.edge 9 4]
  have count : (ofCalls crossedCalls).numEdges = 2 := by decide
  have reversed := (order crossedCalls.reverse crossedCalls.reverse_perm.symm).1
  exact ⟨records, by decide, count, numbers 3 3 (by decide), by decide, reversed.trans count⟩

end RegisterColoring.Graph
