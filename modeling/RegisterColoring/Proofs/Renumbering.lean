import RegisterColoring.Proofs.LinkedBlocks
import RegisterColoring.Proofs.Pruning
import RegisterColoring.Proofs.WalkImages

namespace RegisterColoring

namespace Func

theorem walk_eq_follow (f : Func) (inside : f.EdgesInside) (nonempty : f.blocks ≠ []) {depth : Nat}
    (deep : stepsAlong (f.blocks.map (·.succs)) ≤ depth) :
    f.walk = Walk.follow f.succs depth [] [entry] .start := by
  have room := f.room_succs
  unfold walk
  rw [if_neg (by simpa using nonempty)]
  refine Walk.follow_depth (n := f.blocks.length) (fun b _ => inside b) ?_
    (fun b member => absurd member List.not_mem_nil) ?_ ?_
  · simpa [entry] using List.length_pos_iff.mpr nonempty
  · rw [List.length_singleton, Nat.add_comm]
    exact Nat.le_of_eq room
  · rw [List.length_singleton, Nat.add_comm]
    exact Nat.le_trans (Nat.le_of_eq room) deep

/-- `g` is `f` without the blocks that cannot be reached, and `r` numbers the others by their
order. -/
structure Compacts (f g : Func) (r : BlockId → BlockId) : Prop where
  wellFormed : f.WellFormed
  prunes : Prunes f g r
  order : f.reachable.toList.map r = List.range g.blocks.length

/-- Pruning gives the function without the blocks that cannot be reached. -/
theorem pruneUnreachable_compacts {f : Func} (wf : f.WellFormed) :
    ∃ g, f.pruneUnreachable = .ok (f.blocks.length - f.reachable.size, g) ∧
      Compacts f g (renumber f.reachable) := by
  obtain ⟨g, run, prunes⟩ := pruneUnreachable_renumbers wf
  have places : f.reachable.toList.map (renumber f.reachable) =
      List.range f.reachable.toList.length := by
    refine List.ext_getElem? fun c => ?_
    rw [List.getElem?_map]
    cases place : f.reachable.toList[c]? with
    | none =>
      have outside := List.getElem?_eq_none_iff.mp place
      rw [Option.map_none, List.getElem?_eq_none (by rwa [List.length_range])]
    | some b =>
      have bound := (List.getElem?_eq_some_iff.mp place).1
      rw [Option.map_some, IndexSet.renumber_of_getElem? place, List.getElem?_range bound]
  have length : f.reachable.toList.length = g.blocks.length := by
    refine Nat.le_antisymm (Nat.le_of_not_lt fun longer => ?_) (Nat.le_of_not_lt fun longer => ?_)
    · have member : g.blocks.length ∈ List.range f.reachable.toList.length :=
        List.mem_range.mpr longer
      rw [← places] at member
      obtain ⟨b, reach, same⟩ := List.mem_map.mp member
      have bound := prunes.place_lt wf reach
      rw [same] at bound
      exact absurd bound (Nat.lt_irrefl _)
    · obtain ⟨b, reach, same⟩ := prunes.onto _ longer
      have member : renumber f.reachable b ∈ f.reachable.toList.map (renumber f.reachable) :=
        List.mem_map.mpr ⟨b, reach, rfl⟩
      rw [places, same, List.mem_range] at member
      exact absurd member (Nat.lt_irrefl _)
  exact ⟨g, run, wf, prunes, by rw [places, length]⟩

namespace Compacts

variable {f g : Func} {r : BlockId → BlockId}

theorem injective (compacts : Compacts f g r) :
    ∀ b ∈ f.reachable, ∀ c ∈ f.reachable, r b = r c → b = c := by
  have nodup : (f.reachable.toList.map r).Nodup := by
    rw [compacts.order]
    exact List.nodup_range
  exact fun b first c second same => List.inj_on_of_nodup_map nodup first second same

theorem inside (compacts : Compacts f g r) : f.EdgesInside := compacts.wellFormed.edgesInside

theorem after (compacts : Compacts f g r) : g.WellFormed :=
  compacts.prunes.wellFormed compacts.wellFormed

theorem reachable_eq (compacts : Compacts f g r) : g.reachable.toList = f.reachable.toList.map r := by
  rw [compacts.order]
  refine ascending_eq g.reachable.ascending List.pairwise_lt_range fun c => ?_
  rw [List.mem_range]
  exact ⟨reachable_lt compacts.after.edgesInside, compacts.prunes.mem_reachable compacts.wellFormed⟩

theorem image_mem (compacts : Compacts f g r) {b : BlockId} (reach : b ∈ f.reachable) :
    r b ∈ g.reachable :=
  compacts.prunes.mem_reachable compacts.wellFormed (compacts.prunes.place_lt compacts.wellFormed reach)

/-- There is one function without the blocks that cannot be reached. -/
theorem unique {h : Func} (first : Compacts f g r) (second : Compacts f h r) : g = h := by
  have length : g.blocks.length = h.blocks.length := by
    have ranges := congrArg List.length (first.order.symm.trans second.order)
    rwa [List.length_range, List.length_range] at ranges
  have blocks : g.blocks = h.blocks := by
    refine link_ext first.prunes.linked second.prunes.linked length
      fun c image other place otherPlace => ?_
    obtain ⟨b, reach, rfl, block, found, instrs⟩ := first.prunes.origin first.wellFormed place
    obtain ⟨same, samePlace, otherInstrs⟩ := second.prunes.blocks b reach block found
    cases Option.some.inj (otherPlace.symm.trans samePlace)
    have heading := headings_getElem? found
    have left := first.prunes.headings b reach _ _ heading
    have right := second.prunes.headings b reach _ _ heading
    rw [headings_getElem? place] at left
    rw [headings_getElem? otherPlace] at right
    obtain ⟨ids, labels⟩ := Prod.mk.inj (Option.some.inj (left.trans right.symm))
    exact ⟨ids, labels, instrs.trans otherInstrs.symm⟩
  rw [first.prunes.fields, second.prunes.fields, blocks]

/-- The edges of a block that is left are the images of its old edges, in their order. -/
theorem succs_eq (compacts : Compacts f g r) {b : BlockId} (reach : b ∈ f.reachable) :
    g.succs (r b) = (f.succs b).map r := by
  have wf := compacts.wellFormed
  have prunes := compacts.prunes
  have found := List.getElem?_eq_getElem (reachable_lt wf.edgesInside reach)
  obtain ⟨image, place, instrs⟩ := prunes.blocks b reach _ found
  rw [compacts.after.succs_eq]
  rcases edgesOf_image wf reach found place instrs
    (fun below => ⟨prunes.next b reach below, prunes.place_lt wf below⟩) (prunes.last b reach)
    with same | ⟨i, old, new⟩
  · exact same
  · rw [new, old]
    refine Instr.targets_mapTargets_of_injOn fun x first y second => ?_
    rw [← old] at first second
    exact compacts.injective x (succ_mem_reachable wf.edgesInside reach first) y
      (succ_mem_reachable wf.edgesInside reach second)

/-- The walk stays with the blocks that can be reached. -/
theorem walk_within (compacts : Compacts f g r) : f.walk.Within f.reachable := by
  unfold walk
  split
  · exact ⟨fun b member => absurd member (IndexSet.not_mem_empty b),
      fun e member => absurd member List.not_mem_nil⟩
  · refine Walk.Within.follow (fun b reach c => succ_mem_reachable compacts.inside reach)
      ⟨fun b member => absurd member (IndexSet.not_mem_empty b),
        fun e member => absurd member List.not_mem_nil⟩ (fun b member => absurd member List.not_mem_nil)
      fun b member => ?_
    rw [List.mem_singleton.mp member]
    exact entry_mem_reachable compacts.wellFormed.nonempty

/-- The walk makes the same steps. -/
theorem walk_eq (compacts : Compacts f g r) : g.walk = f.walk.image r := by
  have nonempty := compacts.wellFormed.nonempty
  -- Both walks may nest as deep as the deeper one.
  obtain ⟨depth, deepF, deepG⟩ : ∃ depth, stepsAlong (f.blocks.map (·.succs)) ≤ depth ∧
      stepsAlong (g.blocks.map (·.succs)) ≤ depth :=
    ⟨max _ _, Nat.le_max_left _ _, Nat.le_max_right _ _⟩
  rw [f.walk_eq_follow compacts.inside nonempty deepF,
    g.walk_eq_follow compacts.after.edgesInside compacts.after.nonempty deepG]
  have start : Walk.start.Within f.reachable :=
    ⟨fun b member => absurd member (IndexSet.not_mem_empty b),
      fun e member => absurd member List.not_mem_nil⟩
  have steps : Walk.follow g.succs depth ([].map r) ([entry].map r) (Walk.start.image r) =
      (Walk.follow f.succs depth [] [entry] .start).image r := by
    refine Walk.follow_image compacts.injective (fun b reach => compacts.succs_eq reach)
      (fun b reach c => succ_mem_reachable compacts.inside reach) start
      (fun b member => absurd member List.not_mem_nil) fun b member => ?_
    rw [List.mem_singleton.mp member]
    exact entry_mem_reachable nonempty
  rw [List.map_nil, List.map_singleton, compacts.prunes.entry] at steps
  exact steps

theorem postorder_eq (compacts : Compacts f g r) : g.postorder = f.postorder.map r := by
  rw [postorder_eq_left compacts.after.edgesInside, postorder_eq_left compacts.inside,
    compacts.walk_eq]
  rfl

theorem mem_preds (compacts : Compacts f g r) {b c : BlockId} (first : b ∈ f.reachable)
    (second : c ∈ f.reachable) : r b ∈ g.preds (r c) ↔ b ∈ f.preds c := by
  rw [compacts.after.mem_preds, compacts.wellFormed.mem_preds, compacts.succs_eq first, List.mem_map]
  constructor
  · rintro ⟨d, edge, same⟩
    rw [← compacts.injective d (succ_mem_reachable compacts.inside first edge) c second same]
    exact edge
  · exact fun edge => ⟨c, edge, rfl⟩

/-- A block that can be reached lies in the same loops. -/
theorem mem_naturalLoop (compacts : Compacts f g r) {header tail b : BlockId}
    (headed : header ∈ f.reachable) (tailed : tail ∈ f.reachable) (reach : b ∈ f.reachable) :
    r b ∈ g.naturalLoop (r header) (r tail) ↔ b ∈ f.naturalLoop header tail := by
  have wf := compacts.wellFormed
  have place : ∀ {c}, c ∈ f.reachable → r c < g.blocks.length := fun member =>
    compacts.prunes.place_lt wf member
  rw [mem_naturalLoop_of_linked compacts.after.linked (place tailed),
    mem_naturalLoop_of_linked wf.linked (reachable_lt compacts.inside tailed)]
  refine or_congr ⟨compacts.injective b reach header headed, fun same => by rw [same]⟩ ?_
  constructor
  · intro path
    -- Every block of the result is an image, so the path is one of images.
    generalize image : r b = c at path
    induction path generalizing b with
    | refl => rw [compacts.injective b reach tail tailed image]
    | @tail d e _ edge ih =>
      obtain ⟨other, back⟩ := mem_intoLoop.mp edge
      rw [← image] at back
      have bound := compacts.after.edgesInside _ _ (compacts.after.mem_preds.mp back)
      obtain ⟨c, reached, rfl⟩ := compacts.prunes.onto d bound
      refine (ih reached rfl).tail (mem_intoLoop.mpr ⟨fun equal => other (by rw [equal]), ?_⟩)
      exact (compacts.mem_preds reach reached).mp back
  · intro path
    induction path with
    | refl => exact .refl
    | @tail c b _ edge ih =>
      obtain ⟨other, back⟩ := mem_intoLoop.mp edge
      -- The search goes against the edges, so it came here from a successor.
      have reached := succ_mem_reachable compacts.inside reach (wf.mem_preds.mp back)
      refine (ih reached).tail (mem_intoLoop.mpr ⟨fun equal => ?_, ?_⟩)
      · exact other (compacts.injective c reached header headed equal)
      · exact (compacts.mem_preds reach reached).mpr back

theorem mem_loopBody (compacts : Compacts f g r) {header b : BlockId}
    (headed : header ∈ f.reachable) (reach : b ∈ f.reachable) :
    r b ∈ g.loopBody g.walk.back (r header) ↔ b ∈ f.loopBody f.walk.back header := by
  have within := compacts.walk_within
  rw [Func.mem_loopBody, Func.mem_loopBody, compacts.walk_eq]
  simp only [Walk.image, List.mem_map]
  constructor
  · rintro ⟨_, ⟨e, member, rfl⟩, same, inside⟩
    obtain ⟨tailed, other⟩ := within.back e member
    have equal := compacts.injective e.2 other header headed same
    exact ⟨e, member, equal, (compacts.mem_naturalLoop headed tailed reach).mp inside⟩
  · rintro ⟨e, member, same, inside⟩
    obtain ⟨tailed, _⟩ := within.back e member
    exact ⟨_, ⟨e, member, rfl⟩, by rw [same],
      (compacts.mem_naturalLoop headed tailed reach).mpr inside⟩

/-- As many loops lie around a block that can be reached. -/
theorem countP_loops (compacts : Compacts f g r) {b : BlockId} (reach : b ∈ f.reachable) :
    g.loops.countP (r b ∈ ·) = f.loops.countP (b ∈ ·) := by
  have within := compacts.walk_within
  have headed : ∀ h ∈ IndexSet.ofList (f.walk.back.map (·.2)), h ∈ f.reachable := by
    intro h member
    obtain ⟨e, inside, same⟩ := List.mem_map.mp (IndexSet.mem_ofList.mp member)
    rw [← same]
    exact (within.back e inside).2
  have headers : ((IndexSet.ofList (f.walk.back.map (·.2))).toList.map r).Perm
      (IndexSet.ofList (g.walk.back.map (·.2))).toList := by
    refine (List.perm_ext_iff_of_nodup ?_ (IndexSet.nodup_toList _)).mpr fun c => ?_
    · refine (IndexSet.nodup_toList _).map_on fun x first y second same => ?_
      exact compacts.injective x (headed x first) y (headed y second) same
    · rw [IndexSet.mem_toList, IndexSet.mem_ofList, compacts.walk_eq]
      simp only [Walk.image, List.mem_map, IndexSet.mem_toList, IndexSet.mem_ofList]
      constructor
      · rintro ⟨h, ⟨e, member, rfl⟩, rfl⟩
        exact ⟨_, ⟨e, member, rfl⟩, rfl⟩
      · rintro ⟨_, ⟨e, member, rfl⟩, rfl⟩
        exact ⟨e.2, ⟨e, member, rfl⟩, rfl⟩
  simp only [loops, List.countP_map]
  rw [← headers.countP_eq, List.countP_map]
  refine List.countP_congr fun h member => ?_
  simpa using compacts.mem_loopBody (headed h member) reach

/-- Blocks that can be reached keep their loop depths. -/
theorem loopDepths_eq (compacts : Compacts f g r) {b : BlockId} (reach : b ∈ f.reachable) :
    g.loopDepths[r b]? = f.loopDepths[b]? := by
  rw [loopDepths_eq_map compacts.after.edgesInside, loopDepths_eq_map compacts.inside]
  simp only [List.getElem?_map]
  rw [List.getElem?_range (compacts.prunes.place_lt compacts.wellFormed reach),
    List.getElem?_range (reachable_lt compacts.inside reach), Option.map_some, Option.map_some,
    compacts.countP_loops reach]

end Compacts

end Func

end RegisterColoring
