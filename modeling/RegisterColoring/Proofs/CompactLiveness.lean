import RegisterColoring.Proofs.LiveRanges
import RegisterColoring.Proofs.Renumbering
import RegisterColoring.Proofs.Resolved

namespace RegisterColoring

/-- Two runs fail in the same way, or have related results. -/
inductive Alike {α β : Type} (R : α → β → Prop) : Except Failure α → Except Failure β → Prop
  | error (e : Failure) : Alike R (.error e) (.error e)
  | ok {a : α} {b : β} : R a b → Alike R (.ok a) (.ok b)

namespace Instr

variable (r : BlockId → BlockId)

@[simp] theorem copy?_mapTargets (i : Instr) : (i.mapTargets r).copy? = i.copy? := by
  cases i <;> rfl

@[simp] theorem liveBefore_mapTargets (i : Instr) (after : IndexSet) :
    (i.mapTargets r).liveBefore after = i.liveBefore after := by
  simp only [liveBefore, dest?_mapTargets, uses_mapTargets]

end Instr

theorem livePoints_mapTargets (r : BlockId → BlockId) (out : IndexSet) (instrs : List Instr) :
    livePoints out (instrs.map (Instr.mapTargets r)) = livePoints out instrs := by
  induction instrs with
  | nil => rfl
  | cons i rest ih => simp only [List.map_cons, livePoints, ih, Instr.liveBefore_mapTargets]

namespace Block

variable {block image : Block} {r : BlockId → BlockId}

theorem upwardUses_image (same : image.instrs = block.instrs.map (Instr.mapTargets r)) :
    image.upwardUses = block.upwardUses := by
  unfold upwardUses
  rw [same, List.foldr_map]
  simp only [Instr.liveBefore_mapTargets]

theorem defs_image (same : image.instrs = block.instrs.map (Instr.mapTargets r)) :
    image.defs = block.defs := by
  unfold defs
  rw [same, List.filterMap_map]
  simp only [Function.comp_def, Instr.dest?_mapTargets]

end Block

namespace Func

/-- The sets of two functions agree on the blocks that can be reached. -/
structure SetsAgree (f g : Func) (r : BlockId → BlockId) (s t : FlowSets) : Prop where
  starts : ∀ b ∈ f.reachable, t.atStart.getD (r b) ∅ = s.atStart.getD b ∅
  ends : ∀ b ∈ f.reachable, t.atEnd.getD (r b) ∅ = s.atEnd.getD b ∅
  changed : t.changed = s.changed
  lengths : s.atStart.length = f.blocks.length ∧ s.atEnd.length = f.blocks.length
  images : t.atStart.length = g.blocks.length ∧ t.atEnd.length = g.blocks.length

theorem setsAgree_start (f g : Func) (r : BlockId → BlockId) :
    SetsAgree f g r (.start f.blocks.length) (.start g.blocks.length) := by
  have empty : ∀ n b : Nat, (List.replicate n (∅ : IndexSet)).getD b ∅ = ∅ := by
    intro n b
    rw [List.getD_eq_getElem?_getD, List.getElem?_replicate]
    split <;> rfl
  refine ⟨fun b _ => ?_, fun b _ => ?_, rfl, ?_, ?_⟩
  · exact (empty _ _).trans (empty _ _).symm
  · exact (empty _ _).trans (empty _ _).symm
  · exact ⟨List.length_replicate, List.length_replicate⟩
  · exact ⟨List.length_replicate, List.length_replicate⟩

namespace Compacts

variable {f g : Func} {r : BlockId → BlockId}

/-- The image of a block that can be reached. -/
theorem place (compacts : Compacts f g r) {b : BlockId} (reach : b ∈ f.reachable) :
    ∃ block image, f.blocks[b]? = some block ∧ g.blocks[r b]? = some image ∧
      image.instrs = block.instrs.map (Instr.mapTargets r) ∧ image.succs = block.succs.map r := by
  have found := List.getElem?_eq_getElem (reachable_lt compacts.inside reach)
  obtain ⟨image, placed, instrs⟩ := compacts.prunes.blocks b reach _ found
  have succs := compacts.succs_eq reach
  rw [succs_of_found found, succs_of_found placed] at succs
  exact ⟨_, image, found, placed, instrs, succs⟩

theorem getD_set_image (compacts : Compacts f g r) {old new : List IndexSet} {b : BlockId}
    (reach : b ∈ f.reachable) (agree : ∀ c ∈ f.reachable, new.getD (r c) ∅ = old.getD c ∅)
    (oldLength : old.length = f.blocks.length) (newLength : new.length = g.blocks.length)
    (s : IndexSet) : ∀ c ∈ f.reachable, (new.set (r b) s).getD (r c) ∅ = (old.set b s).getD c ∅ := by
  intro c member
  rw [getD_set, getD_set, oldLength, newLength, agree c member]
  have bound := reachable_lt compacts.inside member
  have imageBound := compacts.prunes.place_lt compacts.wellFormed member
  by_cases same : b = c
  · rw [if_pos ⟨by rw [same], imageBound⟩, if_pos ⟨same, bound⟩]
  · rw [if_neg fun both => same (compacts.injective b reach c member both.1),
      if_neg fun both => same both.1]

theorem joinAt_eq (compacts : Compacts f g r) {s t : FlowSets} (agree : SetsAgree f g r s t)
    {b : BlockId} (reach : b ∈ f.reachable) {block image : Block} (found : f.blocks[b]? = some block)
    (succs : image.succs = block.succs.map r) :
    joinAt t.atStart image.succs = joinAt s.atStart block.succs := by
  rw [joinAt_def, joinAt_def, succs, List.map_map]
  refine congrArg _ (List.map_congr_left fun c edge => ?_)
  rw [← succs_of_found found] at edge
  exact agree.starts c (succ_mem_reachable compacts.inside reach edge)

/-- A visit of a block and one of its image do the same. -/
theorem visitBlock (compacts : Compacts f g r) {s t : FlowSets} (agree : SetsAgree f g r s t)
    {b : BlockId} (reach : b ∈ f.reachable) :
    SetsAgree f g r (visitBlock (f.blocks.map Block.transfer) s b)
      (visitBlock (g.blocks.map Block.transfer) t (r b)) := by
  obtain ⟨block, image, found, placed, instrs, succs⟩ := compacts.place reach
  have out : joinAt t.atStart image.transfer.succs = joinAt s.atStart block.transfer.succs :=
    compacts.joinAt_eq agree reach found succs
  have gen : image.transfer.gen = block.transfer.gen := Block.upwardUses_image instrs
  have kill : image.transfer.kill = block.transfer.kill := Block.defs_image instrs
  obtain ⟨starts, ends, changed, lengths, images⟩ := agree
  have stored : (f.blocks.map Block.transfer).getD b ⟨∅, ∅, []⟩ = block.transfer := by
    rw [List.getD_eq_getElem?_getD, List.getElem?_map, found]
    rfl
  have imageStored : (g.blocks.map Block.transfer).getD (r b) ⟨∅, ∅, []⟩ = image.transfer := by
    rw [List.getD_eq_getElem?_getD, List.getElem?_map, placed]
    rfl
  rw [visitBlock_def stored, visitBlock_def imageStored, out, gen, kill, starts b reach]
  split
  · exact ⟨starts, compacts.getD_set_image reach ends lengths.2 images.2 _, changed,
      ⟨lengths.1, by rw [List.length_set]; exact lengths.2⟩,
      ⟨images.1, by rw [List.length_set]; exact images.2⟩⟩
  · exact ⟨compacts.getD_set_image reach starts lengths.1 images.1 _,
      compacts.getD_set_image reach ends lengths.2 images.2 _, rfl,
      ⟨by rw [List.length_set]; exact lengths.1, by rw [List.length_set]; exact lengths.2⟩,
      ⟨by rw [List.length_set]; exact images.1, by rw [List.length_set]; exact images.2⟩⟩

theorem visits (compacts : Compacts f g r) {s t : FlowSets} (agree : SetsAgree f g r s t)
    {order : List BlockId} (reached : ∀ b ∈ order, b ∈ f.reachable) :
    SetsAgree f g r (order.foldl (RegisterColoring.visitBlock (f.blocks.map Block.transfer)) s)
      ((order.map r).foldl (RegisterColoring.visitBlock (g.blocks.map Block.transfer)) t) := by
  induction order generalizing s t with
  | nil => exact agree
  | cons b rest ih =>
    exact ih (compacts.visitBlock agree (reached b List.mem_cons_self))
      fun c member => reached c (List.mem_cons_of_mem b member)

theorem sweep (compacts : Compacts f g r) {s t : FlowSets} (agree : SetsAgree f g r s t) :
    SetsAgree f g r (sweep (f.blocks.map Block.transfer) f.postorder s)
      (sweep (g.blocks.map Block.transfer) g.postorder t) := by
  have restarted : SetsAgree f g r { s with changed := false } { t with changed := false } :=
    ⟨agree.starts, agree.ends, rfl, agree.lengths, agree.images⟩
  rw [sweep_def, sweep_def, compacts.postorder_eq]
  exact compacts.visits restarted fun b member => (mem_postorder compacts.inside).mp member

theorem settle (compacts : Compacts f g r) (bound passes : Nat) {s t : FlowSets}
    (agree : SetsAgree f g r s t) :
    (settle (RegisterColoring.sweep (f.blocks.map Block.transfer) f.postorder) bound passes s = none ∧
      settle (RegisterColoring.sweep (g.blocks.map Block.transfer) g.postorder) bound passes t = none) ∨
    ∃ s' t' count,
      settle (RegisterColoring.sweep (f.blocks.map Block.transfer) f.postorder) bound passes s =
        some (s', count) ∧
      settle (RegisterColoring.sweep (g.blocks.map Block.transfer) g.postorder) bound passes t =
        some (t', count) ∧ SetsAgree f g r s' t' := by
  induction bound generalizing passes s t with
  | zero => exact Or.inl ⟨rfl, rfl⟩
  | succ bound ih =>
    have next := compacts.sweep agree
    rw [settle_succ, settle_succ]
    simp only [next.changed]
    split
    · exact ih (passes + 1) next
    · exact Or.inr ⟨_, _, _, rfl, rfl, next⟩

theorem addressTakenIn_eq (compacts : Compacts f g r) :
    Liveness.addressTakenIn g g.postorder = Liveness.addressTakenIn f f.postorder := by
  rw [Liveness.addressTakenIn_def, Liveness.addressTakenIn_def, compacts.postorder_eq,
    List.flatMap_map]
  refine congrArg _ (List.flatMap_congr fun b member => ?_)
  obtain ⟨block, image, found, placed, instrs, _⟩ :=
    compacts.place ((mem_postorder compacts.inside).mp member)
  simp only [found, placed, Option.map_some, instrs, List.filterMap_map, Function.comp_def,
    Instr.addressTaken?_mapTargets]

end Compacts

end Func

/-- The liveness of two functions agrees on the blocks that can be reached. -/
structure Liveness.Agree (f : Func) (r : BlockId → BlockId) (l m : Liveness) : Prop where
  passes : m.passes = l.passes
  addressTaken : m.addressTaken = l.addressTaken
  blocks : ∀ b ∈ f.reachable, ∃ block, l.blocks[b]? = some block ∧ m.blocks[r b]? = some block

theorem Liveness.Agree.liveAfter_eq {f : Func} {r : BlockId → BlockId} {l m : Liveness}
    (agree : Agree f r l m) {b : BlockId} (reach : b ∈ f.reachable) (i : Nat) :
    m.liveAfter (r b) i = l.liveAfter b i := by
  obtain ⟨block, found, placed⟩ := agree.blocks b reach
  simp only [liveAfter_def, found, placed]

namespace Func.Compacts

variable {f g : Func} {r : BlockId → BlockId}

theorem name_eq (compacts : Compacts f g r) : g.name = f.name := by rw [compacts.prunes.fields]

/-- Liveness analysis takes as many sweeps and finds the same sets. -/
theorem analyze (compacts : Compacts f g r) (bound : Nat) :
    Alike (Liveness.Agree f r) (Liveness.analyze bound f) (Liveness.analyze bound g) := by
  rcases compacts.settle bound 0 (setsAgree_start f g r) with
    ⟨first, second⟩ | ⟨s, t, count, first, second, agree⟩
  · rw [Liveness.analyze_of_none first, Liveness.analyze_of_none second, compacts.name_eq]
    exact .error _
  · rw [Liveness.analyze_of_some first, Liveness.analyze_of_some second]
    refine .ok ⟨rfl, compacts.addressTakenIn_eq, fun b reach => ?_⟩
    obtain ⟨block, image, found, placed, instrs, _⟩ := compacts.place reach
    simp only [Liveness.ofSets, List.getElem?_mapIdx, found, placed, Option.map_some, if_pos reach,
      if_pos (compacts.image_mem reach)]
    refine ⟨_, rfl, congrArg some ?_⟩
    simp only [Liveness.ofBlock_def, compacts.addressTakenIn_eq, agree.starts b reach,
      agree.ends b reach, instrs, livePoints_mapTargets]

end Func.Compacts

end RegisterColoring
