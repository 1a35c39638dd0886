import RegisterColoring.Proofs.KeptBlocks

namespace RegisterColoring

namespace Func

/-- The kept blocks with their numbers and jumps changed, not yet linked. -/
def renumbered (f : Func) : List Block :=
  (f.keptBlocks f.reachable).map (renumberBlock (renumber f.reachable))

theorem pruneUnreachable_def (f : Func) : f.pruneUnreachable =
    if f.blocks.length - f.reachable.size = 0 then .ok (0, f)
    else { f with blocks := f.renumbered }.rebuildEdges.map fun g =>
      (f.blocks.length - f.reachable.size, g) := by
  have blocks : Id.run ((((Id.run f.numberedM).filter (·.2 ∈ f.reachable)).map (·.1)).mapM
      (renumberBlockM (renumberM f.reachable))) = f.renumbered := by
    rw [numbered_eq, List.idRun_mapM]
    rfl
  rw [← blocks]
  rfl

theorem renumbered_getElem? {f : Func} (wf : f.WellFormed) {b : BlockId}
    (reach : b ∈ f.reachable) {block : Block} (found : f.blocks[b]? = some block) :
    f.renumbered[renumber f.reachable b]? = some
      { block with
        id := renumber f.reachable block.id
        instrs := block.instrs.map (Instr.mapTargets (renumber f.reachable)) } := by
  rw [renumbered, List.getElem?_map, keptBlocks_getElem? fun c => reachable_lt wf.edgesInside,
    IndexSet.getElem?_renumber reach, Option.bind_some, found, Option.map_some,
    renumberBlock_eq _ (wf.terminators block (List.mem_of_getElem? found))]

theorem renumbered_length {f : Func} (inside : f.EdgesInside) :
    f.renumbered.length = f.reachable.size := by
  have same : ∀ c : Nat, f.renumbered.length ≤ c ↔ f.reachable.toList.length ≤ c := by
    intro c
    unfold renumbered
    rw [List.length_map, ← List.getElem?_eq_none_iff, ← List.getElem?_eq_none_iff,
      keptBlocks_getElem? fun b => reachable_lt inside]
    cases place : f.reachable.toList[c]? with
    | none => simp
    | some b =>
      have bound := reachable_lt inside (List.mem_of_getElem? place)
      simp [List.getElem?_eq_getElem bound]
  have lower := same f.reachable.toList.length
  have upper := same f.renumbered.length
  unfold IndexSet.size
  omega

theorem renumber_onto {f : Func} (inside : f.EdgesInside) {c : BlockId}
    (bound : c < f.renumbered.length) : ∃ b ∈ f.reachable, renumber f.reachable b = c := by
  rw [renumbered_length inside] at bound
  have place := List.getElem?_eq_getElem bound
  exact ⟨_, List.mem_of_getElem? place, IndexSet.renumber_of_getElem? place⟩

theorem renumber_lt {f : Func} (inside : f.EdgesInside) {b : BlockId} (reach : b ∈ f.reachable) :
    renumber f.reachable b < f.renumbered.length := by
  obtain ⟨bound, _⟩ := List.getElem?_eq_some_iff.mp (IndexSet.getElem?_renumber reach)
  rw [renumbered_length inside]
  exact bound

theorem renumber_next {f : Func} {b : BlockId} (reach : b ∈ f.reachable)
    (below : b + 1 ∈ f.reachable) : renumber f.reachable (b + 1) = renumber f.reachable b + 1 :=
  IndexSet.getElem?_next (IndexSet.getElem?_renumber reach) (IndexSet.getElem?_renumber below)

theorem renumber_last {f : Func} (inside : f.EdgesInside) {b : BlockId} (reach : b ∈ f.reachable)
    (ends : b + 1 = f.blocks.length) : renumber f.reachable b + 1 = f.renumbered.length := by
  rw [renumbered_length inside]
  refine IndexSet.getElem?_last (IndexSet.getElem?_renumber reach) fun c member => ?_
  exact Nat.le_of_lt_succ (Nat.lt_of_lt_of_eq (reachable_lt inside member) ends.symm)

theorem renumber_entry {f : Func} (nonempty : f.blocks ≠ []) : renumber f.reachable entry = entry := by
  have first := IndexSet.getElem?_renumber (entry_mem_reachable nonempty)
  obtain ⟨bound, _⟩ := List.getElem?_eq_some_iff.mp first
  have zero := List.getElem?_eq_getElem (show 0 < f.reachable.toList.length by omega)
  refine Nat.eq_zero_of_not_pos fun positive => ?_
  have below := (IndexSet.getElem?_lt zero first).mpr positive
  exact Nat.not_lt_zero _ below

/-- A renumbered block asks for the images of the edges of the old one, or jumps to the images of
its targets. -/
theorem edgesOf_image {f : Func} (wf : f.WellFormed) {blocks : List Block}
    {r : BlockId → BlockId} {b : BlockId} {block image : Block} (reach : b ∈ f.reachable)
    (found : f.blocks[b]? = some block) (place : blocks[r b]? = some image)
    (instrs : image.instrs = block.instrs.map (Instr.mapTargets r))
    (next : b + 1 ∈ f.reachable → r (b + 1) = r b + 1 ∧ r (b + 1) < blocks.length)
    (last : b + 1 = f.blocks.length → r b + 1 = blocks.length) :
    edgesOf blocks (r b) = (f.succs b).map r ∨
      ∃ i : Instr, f.succs b = i.targets ∧ edgesOf blocks (r b) = (i.mapTargets r).targets := by
  have member := List.mem_of_getElem? found
  rw [wf.succs_eq]
  simp only [edgesOf, place, found, instrs]
  rcases (wf.terminators block member).straight_or with straight | ⟨init, i, ends, _, terminator⟩
  · left
    have image : Straight (block.instrs.map (Instr.mapTargets r)) := by
      intro j inside
      obtain ⟨old, oldMember, rfl⟩ := List.mem_map.mp inside
      rw [Instr.isTerminator_mapTargets]
      exact straight old oldMember
    have falls : edgesOf f.blocks b = if b + 1 < f.blocks.length then [b + 1] else [] := by
      simp only [edgesOf, found]
      exact successorsOf_straight straight
    rw [successorsOf_straight straight, successorsOf_straight image]
    have bound := (List.getElem?_eq_some_iff.mp found).1
    rcases Nat.lt_or_eq_of_le (Nat.succ_le_of_lt bound) with inner | final
    · have below : b + 1 ∈ f.reachable := by
        refine succ_mem_reachable wf.edgesInside reach ?_
        rw [wf.succs_eq, falls, if_pos inner]
        exact List.mem_singleton_self _
      obtain ⟨step, inside⟩ := next below
      rw [step] at inside
      rw [if_pos inner, if_pos inside, List.map_singleton, step]
    · have imageLast := last final
      rw [if_neg (Nat.not_lt.mpr (Nat.le_of_eq imageLast.symm)),
        if_neg (Nat.not_lt.mpr (Nat.le_of_eq final.symm)), List.map_nil]
  · right
    refine ⟨i, ?_, ?_⟩
    · rw [ends, successorsOf_append terminator]
    · rw [ends, List.map_append, List.map_singleton,
        successorsOf_append (by rw [Instr.isTerminator_mapTargets]; exact terminator)]

theorem mem_edgesOf_image {f : Func} (wf : f.WellFormed) {blocks : List Block}
    {r : BlockId → BlockId} {b c : BlockId} {block image : Block} (reach : b ∈ f.reachable)
    (found : f.blocks[b]? = some block) (place : blocks[r b]? = some image)
    (instrs : image.instrs = block.instrs.map (Instr.mapTargets r))
    (next : b + 1 ∈ f.reachable → r (b + 1) = r b + 1 ∧ r (b + 1) < blocks.length)
    (last : b + 1 = f.blocks.length → r b + 1 = blocks.length) :
    c ∈ edgesOf blocks (r b) ↔ ∃ s ∈ f.succs b, r s = c := by
  rcases edgesOf_image wf reach found place instrs next last with same | ⟨i, old, new⟩
  · rw [same, List.mem_map]
  · rw [old, new, Instr.mem_targets_mapTargets]

theorem mem_edgesOf_renumbered {f : Func} (wf : f.WellFormed) {b c : BlockId}
    (reach : b ∈ f.reachable) :
    c ∈ edgesOf f.renumbered (renumber f.reachable b) ↔
      ∃ s ∈ f.succs b, renumber f.reachable s = c := by
  have inside := wf.edgesInside
  have found := List.getElem?_eq_getElem (reachable_lt inside reach)
  exact mem_edgesOf_image wf reach found (renumbered_getElem? wf reach found) rfl
    (fun below => ⟨renumber_next reach below, renumber_lt inside below⟩)
    (renumber_last inside reach)

/-- Pruning numbers the blocks that can be reached by their order. -/
theorem pruneUnreachable_renumbers {f : Func} (wf : f.WellFormed) :
    ∃ g, f.pruneUnreachable = .ok (f.blocks.length - f.reachable.size, g) ∧
      Prunes f g (renumber f.reachable) := by
  have inside := wf.edgesInside
  rw [pruneUnreachable_def]
  split
  · rename_i full
    have all := all_reachable inside full
    rw [renumber_eq_id inside all, full]
    exact ⟨f, rfl, prunes_self wf all⟩
  · have linkable : ∀ c, ∀ s ∈ edgesOf f.renumbered c, s < f.renumbered.length := by
      intro c s edge
      have bound : c < f.renumbered.length := by
        by_contra outside
        simp [edgesOf, List.getElem?_eq_none (Nat.not_lt.mp outside)] at edge
      obtain ⟨b, reach, rfl⟩ := renumber_onto inside bound
      obtain ⟨old, oldEdge, rfl⟩ := (mem_edgesOf_renumbered wf reach).mp edge
      exact renumber_lt inside (succ_mem_reachable inside reach oldEdge)
    have linkRun := link_eq_ok.mpr ⟨linkable, rfl⟩
    refine ⟨_, map_eq_ok.mpr ⟨_, bind_eq_ok.mpr ⟨_, linkRun, rfl⟩, rfl⟩, ?_⟩
    refine ⟨fun b reach block found => ?_, fun c bound => ?_, renumber_entry wf.nonempty,
      fun b => renumber_next, fun b reach ends => ?_, fun b reach id label place => ?_,
      link_linked linkRun, rfl⟩
    · simp only [List.getElem?_mapIdx, renumbered_getElem? wf reach found, Option.map_some]
      exact ⟨_, rfl, rfl⟩
    · rw [List.length_mapIdx] at bound
      exact renumber_onto inside bound
    · rw [List.length_mapIdx]
      exact renumber_last inside reach ends
    · have found := List.getElem?_eq_getElem (reachable_lt inside reach)
      cases Option.some.inj (place.symm.trans (headings_getElem? found))
      simp only [headings, List.getElem?_map, List.getElem?_mapIdx,
        renumbered_getElem? wf reach found, Option.map_some]

/-- Pruning gives a result, which is an image of the part that can be reached. -/
theorem pruneUnreachable_prunes {f : Func} (wf : f.WellFormed) :
    ∃ n g r, f.pruneUnreachable = .ok (n, g) ∧ Prunes f g r := by
  obtain ⟨g, run, prunes⟩ := pruneUnreachable_renumbers wf
  exact ⟨_, g, _, run, prunes⟩

end Func

namespace Func.Prunes

variable {f g : Func} {r : BlockId → BlockId}

theorem place_lt (prunes : Prunes f g r) (wf : f.WellFormed) {b : BlockId}
    (reach : b ∈ f.reachable) : r b < g.blocks.length := by
  have found := List.getElem?_eq_getElem (reachable_lt wf.edgesInside reach)
  obtain ⟨image, place, _⟩ := prunes.blocks b reach _ found
  exact (List.getElem?_eq_some_iff.mp place).1

/-- Every block of the result is the image of one that can be reached. -/
theorem origin (prunes : Prunes f g r) (wf : f.WellFormed) {c : BlockId} {image : Block}
    (place : g.blocks[c]? = some image) :
    ∃ b ∈ f.reachable, r b = c ∧ ∃ block, f.blocks[b]? = some block ∧
      image.instrs = block.instrs.map (Instr.mapTargets r) := by
  obtain ⟨b, reach, rfl⟩ := prunes.onto c (List.getElem?_eq_some_iff.mp place).1
  have found := List.getElem?_eq_getElem (reachable_lt wf.edgesInside reach)
  obtain ⟨other, otherPlace, instrs⟩ := prunes.blocks b reach _ found
  cases Option.some.inj (place.symm.trans otherPlace)
  exact ⟨b, reach, rfl, _, found, instrs⟩

theorem mem_instrs (prunes : Prunes f g r) (wf : f.WellFormed) {i : Instr} (member : i ∈ g.instrs) :
    ∃ old ∈ f.instrs, i = old.mapTargets r := by
  obtain ⟨c, image, place, inside⟩ := Func.mem_instrs.mp member
  obtain ⟨b, _, _, block, found, instrs⟩ := prunes.origin wf place
  rw [instrs] at inside
  obtain ⟨old, oldMember, rfl⟩ := List.mem_map.mp inside
  exact ⟨old, Func.mem_instrs.mpr ⟨b, block, found, oldMember⟩, rfl⟩

theorem allTemps_subset (prunes : Prunes f g r) (wf : f.WellFormed) {t : Temp}
    (member : t ∈ g.allTemps) : t ∈ f.allTemps := by
  rw [mem_allTemps] at member ⊢
  rw [prunes.fields] at member
  refine member.imp_right (Or.imp_right ?_)
  rintro ⟨i, inside, named⟩
  rw [← prunes.fields] at inside
  obtain ⟨old, oldMember, rfl⟩ := prunes.mem_instrs wf inside
  rw [Instr.temps_mapTargets] at named
  exact ⟨old, oldMember, named⟩

theorem wellFormed (prunes : Prunes f g r) (wf : f.WellFormed) : g.WellFormed where
  nonempty := by
    have bound := prunes.place_lt wf (entry_mem_reachable wf.nonempty)
    exact List.ne_nil_of_length_pos (Nat.zero_lt_of_lt bound)
  linked := prunes.linked
  terminators image member := by
    obtain ⟨c, place⟩ := List.mem_iff_getElem?.mp member
    obtain ⟨b, _, _, block, found, instrs⟩ := prunes.origin wf place
    refine (wf.terminators block (List.mem_of_getElem? found)).of_map ?_
    rw [instrs, List.map_map]
    exact List.map_congr_left fun i _ => i.isTerminator_mapTargets r
  temps t member := by
    rw [prunes.fields]
    exact wf.temps t (prunes.allTemps_subset wf member)
  spillTemps t member := by
    rw [prunes.fields] at member ⊢
    exact wf.spillTemps t member
  slots i member s named := by
    obtain ⟨old, oldMember, rfl⟩ := prunes.mem_instrs wf member
    rw [Instr.slot?_mapTargets] at named
    rw [prunes.fields]
    exact wf.slots old oldMember s named

theorem mem_succs (prunes : Prunes f g r) (wf : f.WellFormed) {b c : BlockId}
    (reach : b ∈ f.reachable) : c ∈ g.succs (r b) ↔ ∃ s ∈ f.succs b, r s = c := by
  have found := List.getElem?_eq_getElem (reachable_lt wf.edgesInside reach)
  obtain ⟨image, place, instrs⟩ := prunes.blocks b reach _ found
  rw [(prunes.wellFormed wf).succs_eq]
  exact mem_edgesOf_image wf reach found place instrs
    (fun below => ⟨prunes.next b reach below, prunes.place_lt wf below⟩) (prunes.last b reach)

/-- Nothing that is left is out of reach. -/
theorem mem_reachable (prunes : Prunes f g r) (wf : f.WellFormed) {c : BlockId}
    (bound : c < g.blocks.length) : c ∈ g.reachable := by
  have after := prunes.wellFormed wf
  obtain ⟨b, reach, rfl⟩ := prunes.onto c bound
  have path := (Func.mem_reachable wf.edgesInside wf.nonempty).mp reach
  clear bound reach
  induction path with
  | refl =>
    rw [prunes.entry]
    exact entry_mem_reachable after.nonempty
  | @tail b s path edge ih =>
    have reach := (Func.mem_reachable wf.edgesInside wf.nonempty).mpr path
    exact succ_mem_reachable after.edgesInside ih ((prunes.mem_succs wf reach).mpr ⟨s, edge, rfl⟩)

end Func.Prunes

end RegisterColoring
