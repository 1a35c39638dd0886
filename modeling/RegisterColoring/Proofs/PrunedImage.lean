import RegisterColoring.Proofs.Renumbering
import RegisterColoring.Proofs.Representation

namespace RegisterColoring

namespace Func

/-- Stored edges are those that the instructions ask for, blocks are numbered by their positions, and
control leaves a block only at its end. -/
structure Consistent (f : Func) : Prop where
  edges : f.rebuildEdges = .ok f
  ids : ∀ (b : BlockId) (block : Block), f.blocks[b]? = some block → block.id = b
  terminators : ∀ block ∈ f.blocks, TerminatorLast block.instrs

theorem Derived.consistent {f : Func} (derived : f.Derived) : f.Consistent :=
  ⟨derived.intact.edges, derived.intact.ids, derived.intact.terminators⟩

/-- The block under new numbers, without the predecessors that cannot be reached. -/
def imageBlock (f : Func) (r : BlockId → BlockId) (block : Block) : Block where
  id := r block.id
  label := block.label
  instrs := block.instrs.map (Instr.mapTargets r)
  succs := block.succs.map r
  preds := (block.preds.filter (· ∈ f.reachable)).map r

/-- `g` is the part of `f` that can be reached, under the numbers that `r` gives. -/
structure PrunesTo (f g : Func) (r : BlockId → BlockId) : Prop where
  reachable : ∀ b < f.blocks.length, b ∈ f.reachable ↔ Path f.succs entry b
  /-- The blocks that can be reached are numbered by their order. -/
  order : f.reachable.toList.map r = List.range g.blocks.length
  blocks : g.blocks = (f.blocks.filter (·.id ∈ f.reachable)).map (f.imageBlock r)
  preds : ∀ block ∈ g.blocks, block.preds.Pairwise (· < ·)
  fields : g = { f with blocks := g.blocks }
  entry : r entry = entry
  reached : ∀ c < g.blocks.length, Path g.succs Func.entry c
  again : g.pruneUnreachable = .ok (0, g)

variable {f g : Func} {r : BlockId → BlockId}

/-- The function with other counters. -/
def recount (f : Func) (temps slots : Nat) : Func := { f with nextTemp := temps, numSlots := slots }

/-- Pruning does not look at the counters. -/
theorem pruneUnreachable_recount (f : Func) (temps slots : Nat) :
    (f.recount temps slots).pruneUnreachable =
      f.pruneUnreachable.map fun result => (result.1, result.2.recount temps slots) := by
  rw [pruneUnreachable_def, pruneUnreachable_def]
  show (if f.blocks.length - f.reachable.size = 0 then _ else _) = _
  split
  · rfl
  · unfold rebuildEdges
    show (link f.renumbered >>= _).map _ = ((link f.renumbered >>= _).map _).map _
    cases link f.renumbered <;> rfl

theorem pruneUnreachable_of_full (full : f.blocks.length - f.reachable.size = 0) :
    f.pruneUnreachable = .ok (0, f) := by
  rw [pruneUnreachable_def, if_pos full]

/-- Pruning changes nothing but blocks. -/
theorem pruneUnreachable_fields {n : Nat} (run : f.pruneUnreachable = .ok (n, g)) :
    g = { f with blocks := g.blocks } := by
  rw [pruneUnreachable_def] at run
  split at run
  · cases run
    rfl
  · obtain ⟨h, rebuilt, same⟩ := map_eq_ok.mp run
    obtain ⟨blocks, _, value⟩ := bind_eq_ok.mp rebuilt
    cases same
    cases value
    rfl

/-- Counters that are large enough make a consistent function well-formed. -/
theorem Consistent.exists_recount (consistent : f.Consistent) (nonempty : f.blocks ≠ []) :
    ∃ temps slots, (f.recount temps slots).WellFormed := by
  have linked := rebuildEdges_eq_self.mp consistent.edges
  refine ⟨max (nextAbove f.allTemps.toList) (nextAbove f.spillTemps.toList),
    nextAbove (f.instrs.filterMap Instr.slot?), nonempty, linked, consistent.terminators,
    fun t member => ?_, fun t member => ?_, fun i member s named => ?_⟩
  · have bound : t < nextAbove f.allTemps.toList := lt_nextAbove (IndexSet.mem_toList.mpr member)
    exact Nat.lt_of_lt_of_le bound (Nat.le_max_left _ _)
  · have bound : t < nextAbove f.spillTemps.toList := lt_nextAbove (IndexSet.mem_toList.mpr member)
    exact Nat.lt_of_lt_of_le bound (Nat.le_max_right _ _)
  · exact lt_nextAbove (List.mem_filterMap.mpr ⟨i, member, named⟩)

/-- Blocks that are numbered by their positions can be selected by their numbers. -/
theorem filter_ids {kept : IndexSet}
    (ids : ∀ (b : BlockId) (block : Block), f.blocks[b]? = some block → block.id = b) :
    f.blocks.filter (·.id ∈ kept) = f.keptBlocks kept := by
  have numbered : f.blocks.zipIdx = f.blocks.map fun block => (block, block.id) := by
    refine List.ext_getElem? fun b => ?_
    rw [List.getElem?_zipIdx, List.getElem?_map, Nat.zero_add]
    cases found : f.blocks[b]? with
    | none => rfl
    | some block => simp only [Option.map_some, ids b block found]
  rw [keptBlocks, numbered, List.filter_map, List.map_map]
  exact (List.map_id' _).symm

theorem preds_ascending (linked : link f.blocks = .ok f.blocks) (b : BlockId) :
    (f.preds b).Pairwise (· < ·) := by
  cases found : f.blocks[b]? with
  | some block =>
    rw [preds_of_found found, ((link_self.mp linked).2 b block found).2]
    exact List.pairwise_lt_range.filter _
  | none =>
    rw [preds_def, found]
    exact .nil

namespace Compacts

/-- The new number of a block is its place among those that can be reached. -/
theorem number_eq (compacts : Compacts f g r) {b c : BlockId}
    (found : f.reachable.toList[c]? = some b) : r b = c := by
  have image : (f.reachable.toList.map r)[c]? = some (r b) := by
    rw [List.getElem?_map, found, Option.map_some]
  rw [compacts.order] at image
  obtain ⟨_, value⟩ := List.getElem?_eq_some_iff.mp image
  rw [← value, List.getElem_range]

theorem getElem?_number (compacts : Compacts f g r) {b : BlockId} (reach : b ∈ f.reachable) :
    f.reachable.toList[r b]? = some b := by
  obtain ⟨c, found⟩ := List.mem_iff_getElem?.mp (IndexSet.mem_toList.mpr reach)
  rwa [compacts.number_eq found]

theorem lt_iff (compacts : Compacts f g r) {b c : BlockId} (first : b ∈ f.reachable)
    (second : c ∈ f.reachable) : b < c ↔ r b < r c :=
  IndexSet.getElem?_lt (compacts.getElem?_number first) (compacts.getElem?_number second)

/-- The predecessors of a block that is left are the images of those that can be reached. -/
theorem preds_eq (compacts : Compacts f g r) {b : BlockId} (reach : b ∈ f.reachable) :
    g.preds (r b) = ((f.preds b).filter (· ∈ f.reachable)).map r := by
  have wf := compacts.wellFormed
  refine ascending_eq (preds_ascending compacts.after.linked (r b)) ?_ fun c => ?_
  · rw [List.pairwise_map]
    refine ((preds_ascending wf.linked b).filter _).imp_of_mem fun {x y} first second below => ?_
    have left := (List.mem_filter.mp first).2
    have right := (List.mem_filter.mp second).2
    exact (compacts.lt_iff (of_decide_eq_true left) (of_decide_eq_true right)).mp below
  · simp only [List.mem_map, List.mem_filter, decide_eq_true_eq]
    constructor
    · intro edge
      obtain ⟨p, reached, rfl⟩ := compacts.prunes.onto c (preds_lt_of_linked compacts.after.linked edge)
      exact ⟨p, ⟨(compacts.mem_preds reached reach).mp edge, reached⟩, rfl⟩
    · rintro ⟨p, ⟨edge, reached⟩, rfl⟩
      exact (compacts.mem_preds reached reach).mpr edge

/-- A block that can be reached has its image in its new place. -/
theorem blocks_getElem? (compacts : Compacts f g r) {b : BlockId} (reach : b ∈ f.reachable)
    {block : Block} (found : f.blocks[b]? = some block) :
    g.blocks[r b]? = some (f.imageBlock r block) := by
  obtain ⟨image, there, instrs⟩ := compacts.prunes.blocks b reach block found
  have heading := compacts.prunes.headings b reach _ _ (headings_getElem? found)
  rw [headings_getElem? there, Option.some.injEq, Prod.mk.injEq] at heading
  have succs := compacts.succs_eq reach
  have preds := compacts.preds_eq reach
  rw [succs_of_found there, succs_of_found found] at succs
  rw [preds_of_found there, preds_of_found found] at preds
  rw [there]
  exact congrArg some (Block.ext heading.1 heading.2 instrs succs preds)

/-- The blocks that are left are the images of those that can be reached, in their order. -/
theorem blocks_eq (compacts : Compacts f g r)
    (ids : ∀ (b : BlockId) (block : Block), f.blocks[b]? = some block → block.id = b) :
    g.blocks = (f.blocks.filter (·.id ∈ f.reachable)).map (f.imageBlock r) := by
  rw [filter_ids ids]
  refine List.ext_getElem? fun c => ?_
  rw [List.getElem?_map, keptBlocks_getElem? fun b => reachable_lt compacts.inside]
  cases found : f.reachable.toList[c]? with
  | none =>
    have outside := List.getElem?_eq_none_iff.mp found
    have length := congrArg List.length compacts.order
    rw [List.length_map, List.length_range] at length
    rw [length] at outside
    exact List.getElem?_eq_none outside
  | some b =>
    have reach := IndexSet.mem_toList.mp (List.mem_of_getElem? found)
    have old := List.getElem?_eq_getElem (reachable_lt compacts.inside reach)
    rw [Option.bind_some, old, Option.map_some, ← compacts.blocks_getElem? reach old,
      compacts.number_eq found]

/-- All blocks that are left can be reached. -/
theorem full (compacts : Compacts f g r) : g.blocks.length - g.reachable.size = 0 := by
  rw [IndexSet.size, compacts.reachable_eq, compacts.order, List.length_range, Nat.sub_self]

theorem path (compacts : Compacts f g r) {c : BlockId} (bound : c < g.blocks.length) :
    Path g.succs entry c :=
  (mem_reachable compacts.after.edgesInside compacts.after.nonempty).mp
    (compacts.prunes.mem_reachable compacts.wellFormed bound)

end Compacts

/-- The blocks that are removed are those that cannot be reached. -/
theorem countP_unreachable (inside : f.EdgesInside) :
    (List.range f.blocks.length).countP (· ∉ f.reachable) =
      f.blocks.length - f.reachable.size := by
  have kept : (List.range f.blocks.length).filter (· ∈ f.reachable) = f.reachable.toList := by
    refine ascending_eq (List.pairwise_lt_range.filter _) f.reachable.ascending fun b => ?_
    simp only [List.mem_filter, List.mem_range, decide_eq_true_eq]
    exact ⟨fun both => both.2, fun member => ⟨reachable_lt inside member, member⟩⟩
  have parts := List.length_eq_countP_add_countP (p := (· ∈ f.reachable))
    (l := List.range f.blocks.length)
  rw [List.countP_eq_length_filter, kept, List.length_range] at parts
  simp only [decide_eq_true_eq] at parts
  rw [IndexSet.size]
  omega

/-- Pruning a function with consistent edges counts the blocks that cannot be reached and leaves an
image of the others. -/
theorem pruneUnreachable_prunesTo (consistent : f.Consistent) : ∃ g r, f.pruneUnreachable =
    .ok ((List.range f.blocks.length).countP (· ∉ f.reachable), g) ∧ f.PrunesTo g r := by
  have linked := rebuildEdges_eq_self.mp consistent.edges
  have inside := edgesInside_of_linked linked
  by_cases empty : f.blocks = []
  · have full : f.blocks.length - f.reachable.size = 0 := by rw [empty, List.length_nil, Nat.zero_sub]
    have none : f.reachable = ∅ := by simp [reachable_def, empty]
    have pruned := pruneUnreachable_of_full full
    rw [countP_unreachable inside, full]
    exact ⟨f, id, pruned, {
      reachable := fun b bound => by simp [empty] at bound
      order := by rw [none, empty]; rfl
      blocks := by rw [empty]; rfl
      preds := fun block member => by simp [empty] at member
      fields := rfl
      entry := rfl
      reached := fun c bound => by simp [empty] at bound
      again := pruned }⟩
  · obtain ⟨temps, slots, wf⟩ := consistent.exists_recount empty
    obtain ⟨h, run, compacts⟩ := pruneUnreachable_compacts wf
    rw [pruneUnreachable_recount] at run
    obtain ⟨⟨n, g⟩, pruned, same⟩ := map_eq_ok.mp run
    obtain ⟨rfl, rfl⟩ := Prod.mk.inj same
    rw [countP_unreachable inside]
    exact ⟨g, renumber f.reachable, pruned, {
      reachable := fun b _ => mem_reachable inside empty
      order := compacts.order
      blocks := compacts.blocks_eq consistent.ids
      preds := fun block member => by
        obtain ⟨c, found⟩ := List.mem_iff_getElem?.mp member
        rw [← preds_of_found found]
        exact preds_ascending compacts.after.linked c
      fields := pruneUnreachable_fields pruned
      entry := compacts.prunes.entry
      reached := fun c bound => compacts.path bound
      again := pruneUnreachable_of_full compacts.full }⟩

end Func

/-- A body with lost blocks before the head of a loop and behind its branch, which falls off its
end. -/
def gapSource : Source.Func :=
  ⟨"gap", [⟨0, none⟩],
    [.statement (.assign 1 (.binary .add (.temp 0) (.const 1))),
      .statement (.assign 2 (.move (.const 5))),
      .statement (.goto "head"),
      .label "lost",
      .statement (.assign 1 (.move (.const 7))),
      .label "head",
      .statement (.branch (.test (.temp 1)) "head" "tail"),
      .statement (.goto "lost"),
      .label "tail",
      .statement (.store 0 (.temp 1))]⟩

/-- Two blocks go once a dead move has been removed and a temp spilled, and the others move up. -/
theorem gapSource_prunesTo : ∃ f g h r, Func.ofSource gapSource false = .ok f ∧
    Operation.applyAll f [.eliminate 9, .spill [1]] = .ok g ∧ g.Consistent ∧
    g.pruneUnreachable = .ok (2, h) ∧ g.PrunesTo h r ∧
    h.blocks.map (·.label) = ["gap.entry", "head", "tail"] ∧
    h.blocks.map (·.succs) = [[1], [1, 2], []] ∧ h.blocks.map (·.preds) = [[], [0, 1], [1]] := by
  have result : (Func.ofSource gapSource false).bind (fun f =>
      (Operation.applyAll f [.eliminate 9, .spill [1]]).bind fun g =>
        g.pruneUnreachable.map fun pruned =>
          (pruned.1, pruned.2.blocks.map (·.label), pruned.2.blocks.map (·.succs),
            pruned.2.blocks.map (·.preds))) =
      .ok (2, ["gap.entry", "head", "tail"], [[1], [1, 2], []], [[], [0, 1], [1]]) := by
    decide +kernel
  obtain ⟨f, resolved, rest⟩ := bind_eq_ok.mp result
  obtain ⟨g, run, rest⟩ := bind_eq_ok.mp rest
  obtain ⟨⟨n, h⟩, pruned, values⟩ := map_eq_ok.mp rest
  simp only [Prod.mk.injEq] at values
  obtain ⟨rfl, parts⟩ := values
  rcases Operation.applyAll_derived (.source resolved) [.eliminate 9, .spill [1]] with
    ⟨same, again, derived⟩ | failed
  · cases run.symm.trans again
    obtain ⟨image, r, counted, prunes⟩ := Func.pruneUnreachable_prunesTo derived.consistent
    obtain ⟨_, rfl⟩ := Prod.mk.inj (Except.ok.inj (pruned.symm.trans counted))
    exact ⟨f, g, h, r, resolved, run, derived.consistent, pruned, prunes, parts⟩
  · cases run.symm.trans failed

end RegisterColoring
