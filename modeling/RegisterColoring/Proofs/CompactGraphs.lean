import RegisterColoring.Coloring
import RegisterColoring.Proofs.CompactDeadCode
import RegisterColoring.Proofs.InterferenceGraph

namespace RegisterColoring

namespace Func.Compacts

variable {f g : Func} {r : BlockId → BlockId}

theorem addInstr_mapTargets (graph : Graph Temp) (i : Instr) (live : IndexSet) :
    Interference.addInstr graph (i.mapTargets r) live = Interference.addInstr graph i live := by
  unfold Interference.addInstr Interference.addInstrM Interference.clashes
  simp only [Instr.uses_mapTargets, Instr.dest?_mapTargets, Instr.copy?_mapTargets]

theorem registerParams_eq (compacts : Compacts f g r) : g.registerParams = f.registerParams := by
  rw [compacts.prunes.fields]
  rfl

/-- The interference graph is the same, with its nodes in the same order. -/
theorem build_eq (compacts : Compacts f g r) {bound : Nat} {l m : Liveness}
    (first : Liveness.analyze bound f = .ok l) (second : Liveness.analyze bound g = .ok m)
    (agree : Liveness.Agree f r l m) : Interference.build g m = Interference.build f l := by
  have entryLive : m.entryLiveIn = l.entryLiveIn := by
    obtain ⟨block, found, placed⟩ :=
      agree.blocks entry (entry_mem_reachable compacts.wellFormed.nonempty)
    rw [compacts.prunes.entry] at placed
    rw [Liveness.entryLiveIn_eq compacts.wellFormed.nonempty first,
      Liveness.entryLiveIn_eq compacts.after.nonempty second]
    simp only [Liveness.liveIn, found, placed]
  have pinned : g.pinned = f.pinned := by rw [compacts.prunes.fields]
  rw [Interference.build_def, Interference.build_def]
  simp only [Interference.named, Interference.copiesOf, entryLive, pinned,
    compacts.registerParams_eq, compacts.points_eq first second agree, List.foldl_map, List.map_map,
    List.filterMap_map, Function.comp_def, addInstr_mapTargets, Instr.copy?_mapTargets]

theorem weightedBlocks_getElem? (inside : f.EdgesInside) (c : Nat) :
    f.weightedBlocks[c]? = (f.reachable.toList[c]?).bind fun b =>
      (f.blocks[b]?).map fun block => (block, f.loopDepths[b]?.getD 0) := by
  rw [weightedBlocks_def, List.getElem?_map,
    IndexSet.getElem?_selected fun b reach => reachable_lt inside reach]
  cases f.reachable.toList[c]? with
  | none => rfl
  | some b => cases found : f.blocks[b]? <;> simp [found]

theorem weightedBlocks_eq (compacts : Compacts f g r) (t : Temp) :
    g.weightedBlocks.map (fun p => blockCost p.1 p.2 t) =
      f.weightedBlocks.map fun p => blockCost p.1 p.2 t := by
  refine List.ext_getElem? fun c => ?_
  rw [List.getElem?_map, List.getElem?_map, weightedBlocks_getElem? compacts.inside,
    weightedBlocks_getElem? compacts.after.edgesInside, compacts.reachable_eq, List.getElem?_map]
  cases place : f.reachable.toList[c]? with
  | none => simp only [Option.map_none, Option.bind_none]
  | some b =>
    have reach : b ∈ f.reachable := List.mem_of_getElem? place
    obtain ⟨block, image, found, placed, instrs, _⟩ := compacts.place reach
    simp only [Option.map_some, Option.bind_some, found, placed, compacts.loopDepths_eq reach,
      blockCost, instrs, List.flatMap_map, Instr.temps_mapTargets]

/-- Every temp costs the same. -/
theorem costIn_eq (compacts : Compacts f g r) (t : Temp) :
    g.costIn g.weightedBlocks t = f.costIn f.weightedBlocks t := by
  have spillTemps : g.spillTemps = f.spillTemps := by rw [compacts.prunes.fields]
  have sums : ∀ (h : Func) (n : Nat),
      h.weightedBlocks.foldl (fun n p => n + blockCost p.1 p.2 t) n =
        (h.weightedBlocks.map fun p => blockCost p.1 p.2 t).foldl (· + ·) n := by
    intro h n
    rw [List.foldl_map]
  unfold costIn
  rw [spillTemps, compacts.registerParams_eq]
  split
  · rfl
  · exact congrArg Cost.finite ((sums g _).trans (by rw [compacts.weightedBlocks_eq, sums f]))

/-- The nodes of the interference graph have costs, which are the same. -/
theorem spillCosts_eq (compacts : Compacts f g r) {bound : Nat} {l m : Liveness}
    (first : Liveness.analyze bound f = .ok l) (second : Liveness.analyze bound g = .ok m)
    (agree : Liveness.Agree f r l m) {graph : Interference} (built : Interference.build f l = .ok graph)
    {t : Temp} (node : t ∈ graph.graph.nodes) :
    ∃ cost, f.spillCosts.get? t = some cost ∧ g.spillCosts.get? t = some cost := by
  have all : ∀ b < g.blocks.length, b ∈ g.reachable := fun b bound =>
    compacts.prunes.mem_reachable compacts.wellFormed bound
  obtain ⟨other, run, represents⟩ := Interference.build_represents compacts.after second
  rw [compacts.build_eq first second agree, built] at run
  cases run
  have named : t ∈ g.allTemps := by
    rw [mem_allTemps]
    rcases (represents.mem_nodes compacts.after second all t).mp node with param | pin | used
    · exact Or.inr (Or.inl (List.mem_of_mem_filter param))
    · exact Or.inl pin
    · exact Or.inr (Or.inr used)
  have old := compacts.prunes.allTemps_subset compacts.wellFormed named
  rw [spillCosts_def, spillCosts_def, IndexMap.get?_ofKeys, IndexMap.get?_ofKeys, if_pos named,
    if_pos old, compacts.costIn_eq]
  exact ⟨_, rfl, rfl⟩

end Func.Compacts

namespace Coloring

variable {cost other : Temp → Cost}

theorem lightest_congr {entries : List (Temp × Nat)} (same : ∀ p ∈ entries, cost p.1 = other p.1) :
    lightest cost entries = lightest other entries := by
  induction entries with
  | nil => rfl
  | cons entry rest ih =>
    have here := same entry List.mem_cons_self
    simp only [lightest, here, ih fun p member => same p (List.mem_cons_of_mem _ member)]

theorem pushAll_congr (g : Interference) (colors : Nat) (func : String) (steps : Nat)
    {remaining : IndexSet} (degrees : IndexMap Nat) (same : ∀ t ∈ remaining, cost t = other t) :
    pushAll g cost colors func steps remaining degrees =
      pushAll g other colors func steps remaining degrees := by
  induction steps generalizing remaining degrees with
  | zero => rfl
  | succ steps ih =>
    have choices : choose cost colors (entries remaining degrees) =
        choose other colors (entries remaining degrees) := by
      unfold choose
      rw [lightest_congr fun p member => ?_]
      rw [entries_def] at member
      obtain ⟨t, inside, rfl⟩ := List.mem_map.mp member
      exact same t inside
    cases more : remaining.isEmpty with
    | true => rw [pushAll_of_isEmpty more, pushAll_of_isEmpty more]
    | false =>
      cases chosen : choose other colors (entries remaining degrees) with
      | none => rw [pushAll_of_none more (choices.trans chosen), pushAll_of_none more chosen]
      | some event =>
        rw [pushAll_of_some more (choices.trans chosen), pushAll_of_some more chosen,
          ih _ fun t member => same t (IndexSet.mem_erase.mp member).1]

theorem popAll_congr (g : Interference) (colors : Nat) {f h : Func} (name : h.name = f.name)
    (spillTemps : h.spillTemps = f.spillTemps) (temps : List Temp) (done : Coloring) :
    popAll g colors h temps done = popAll g colors f temps done := by
  induction temps generalizing done with
  | nil => rfl
  | cons t rest ih =>
    cases found : g.graph.id? t with
    | none => rw [popAll_of_none found, popAll_of_none found, name]
    | some id =>
      rw [popAll_of_some found, popAll_of_some found]
      simp only [name, spillTemps, ih]

end Coloring

/-- Only the costs of the nodes matter, and of the function only its name and its spill temps. -/
theorem Interference.color_congr {g : Interference} {cost other : Temp → Cost}
    (same : ∀ t ∈ g.graph.nodes, cost t = other t) (colors : Nat) {f h : Func}
    (name : h.name = f.name) (spillTemps : h.spillTemps = f.spillTemps) :
    g.color cost colors h = g.color other colors f := by
  have waiting : ∀ t ∈ g.unpinned, cost t = other t := fun t member =>
    same t (IndexSet.mem_ofList.mp (IndexSet.mem_filter.mp member).1)
  simp only [color_def, pushes_def, name, Coloring.pushAll_congr g colors f.name _ _ waiting,
    Coloring.popAll_congr g colors name spillTemps]

end RegisterColoring
