import RegisterColoring.Proofs.StackLoops

namespace RegisterColoring.Func

/-- All stored edges lead to blocks of the function. -/
def EdgesInside (f : Func) : Prop := ∀ b, ∀ s ∈ f.succs b, s < f.blocks.length

theorem succs_def (f : Func) (b : BlockId) : f.succs b = (f.blocks[b]?.map (·.succs)).getD [] := rfl

theorem preds_def (f : Func) (b : BlockId) : f.preds b = (f.blocks[b]?.map (·.preds)).getD [] := rfl

theorem succs_of_found {f : Func} {b : BlockId} {block : Block} (found : f.blocks[b]? = some block) :
    f.succs b = block.succs := by
  rw [succs_def, found]
  rfl

theorem preds_of_found {f : Func} {b : BlockId} {block : Block} (found : f.blocks[b]? = some block) :
    f.preds b = block.preds := by
  rw [preds_def, found]
  rfl

theorem succs_of_missing {f : Func} {b : BlockId} (missing : f.blocks[b]? = none) :
    f.succs b = [] := by
  rw [succs_def, missing]
  rfl

theorem map_range_eq {α : Type} (blocks : List Block) (edges : Block → List α) :
    (List.range blocks.length).map (fun b => (blocks[b]?.map edges).getD []) = blocks.map edges := by
  refine List.ext_getElem (by simp) fun b below _ => ?_
  have bound : b < blocks.length := by simpa using below
  simp [List.getElem?_eq_getElem bound]

/-- As many steps as there are blocks and edges leave room for everything. -/
theorem room_blocks (blocks : List Block) (edges : Block → List BlockId) :
    room (fun b => (blocks[b]?.map edges).getD []) blocks.length ∅ + 1 =
      stepsAlong (blocks.map edges) := by
  have all : unmet blocks.length ∅ = List.range blocks.length := by
    simp [unmet]
  rw [room, all, List.length_range, List.flatMap_def, map_range_eq, stepsAlong, List.length_map]

theorem room_succs (f : Func) :
    room f.succs f.blocks.length ∅ + 1 = stepsAlong (f.blocks.map (·.succs)) :=
  room_blocks f.blocks (·.succs)

theorem room_preds (f : Func) :
    room f.preds f.blocks.length ∅ + 1 = stepsAlong (f.blocks.map (·.preds)) :=
  room_blocks f.blocks (·.preds)

theorem reachable_def (f : Func) : f.reachable = if f.blocks.isEmpty then ∅
    else search f.succs .queue (stepsAlong (f.blocks.map (·.succs))) [entry] ∅ := rfl

theorem postorder_def (f : Func) : f.postorder = if f.blocks.isEmpty then []
    else Id.run (leavingM f.succs (stepsAlong (f.blocks.map (·.succs))) [(entry, 0)]
      (.ofList [entry]) []) := rfl

theorem naturalLoop_def (f : Func) (header tail : BlockId) : f.naturalLoop header tail =
    search f.preds .stack (stepsAlong (f.blocks.map (·.preds))) [tail] (.ofList [header]) := rfl

theorem reachable_of_nonempty {f : Func} (nonempty : f.blocks ≠ []) : f.reachable =
    search f.succs .queue (stepsAlong (f.blocks.map (·.succs))) [entry] ∅ :=
  if_neg (by simpa using nonempty)

theorem mem_reachable {f : Func} {b : BlockId} (inside : f.EdgesInside) (nonempty : f.blocks ≠ []) :
    b ∈ f.reachable ↔ Path f.succs entry b := by
  have positive : 0 < f.blocks.length := List.length_pos_iff.mpr nonempty
  rw [reachable_of_nonempty nonempty, mem_search (n := f.blocks.length) (fun x _ => inside x),
    beyond_empty]
  · simp
  · simpa [entry] using positive
  · rw [List.length_singleton, ← room_succs]
    omega

theorem reachable_lt {f : Func} {b : BlockId} (inside : f.EdgesInside)
    (member : b ∈ f.reachable) : b < f.blocks.length := by
  by_cases empty : f.blocks = []
  · have none : f.reachable = ∅ := if_pos (by rw [empty]; rfl)
    rw [none] at member
    exact absurd member (IndexSet.not_mem_empty b)
  · have path := (mem_reachable inside empty).mp member
    cases path with
    | refl => exact List.length_pos_iff.mpr empty
    | tail _ edge => exact inside _ b edge

theorem entry_mem_reachable {f : Func} (nonempty : f.blocks ≠ []) : entry ∈ f.reachable := by
  rw [reachable_of_nonempty nonempty, stepsAlong,
    search_cons_of_not_mem (IndexSet.not_mem_empty entry)]
  exact subset_search (IndexSet.mem_insert.mpr (.inl rfl))

theorem succ_mem_reachable {f : Func} {b s : BlockId} (inside : f.EdgesInside)
    (member : b ∈ f.reachable) (edge : s ∈ f.succs b) : s ∈ f.reachable := by
  have nonempty : f.blocks ≠ [] := by
    intro empty
    have bound := inside b s edge
    rw [empty] at bound
    exact absurd bound (Nat.not_lt_zero s)
  exact (mem_reachable inside nonempty).mpr (((mem_reachable inside nonempty).mp member).tail edge)

section Congruence

variable {f g : Func} (length : g.blocks.length = f.blocks.length)
  (succs : ∀ b, g.succs b = f.succs b)
include length

theorem isEmpty_congr : g.blocks.isEmpty = f.blocks.isEmpty := by
  rw [Bool.eq_iff_iff, List.isEmpty_iff_length_eq_zero, List.isEmpty_iff_length_eq_zero, length]

include succs

theorem map_succs_congr : g.blocks.map (·.succs) = f.blocks.map (·.succs) := by
  have edges : (List.range g.blocks.length).map g.succs = (List.range f.blocks.length).map f.succs := by
    rw [length, funext succs]
  exact (map_range_eq g.blocks _).symm.trans (edges.trans (map_range_eq f.blocks _))

/-- Functions with the same edges reach the same blocks. -/
theorem reachable_congr : g.reachable = f.reachable := by
  rw [reachable_def, reachable_def, isEmpty_congr length, map_succs_congr length succs, funext succs]

/-- And they are walked in the same order. -/
theorem postorder_congr : g.postorder = f.postorder := by
  rw [postorder_def, postorder_def, isEmpty_congr length, map_succs_congr length succs, funext succs]

end Congruence

/-- The depth-first walk from the entry. -/
def walk (f : Func) : Walk :=
  if f.blocks.isEmpty then .start
  else Walk.follow f.succs (stepsAlong (f.blocks.map (·.succs))) [] [entry] .start

variable {f : Func} {b : BlockId}

/-- The loop over the stack ends with the nodes in the order in which the walk leaves them. -/
theorem postorder_eq_left (inside : f.EdgesInside) : f.postorder = f.walk.left := by
  unfold postorder postorderM walk
  split
  · rfl
  · rename_i some
    have positive : 0 < f.blocks.length := List.length_pos_iff.mpr (by simpa using some)
    have room := f.room_succs
    exact (stackLoop_leaving f.succs).run_eq (fun x _ => inside x) positive (by omega) (by omega)

/-- The walk leaves every block that can be reached. -/
theorem reachable_subset_postorder (inside : f.EdgesInside) (member : b ∈ f.reachable) :
    b ∈ f.postorder := by
  have bound := reachable_lt inside member
  have nonempty : f.blocks ≠ [] := List.ne_nil_of_length_pos (Nat.zero_lt_of_lt bound)
  have explored : Walk.Explores f.succs [entry] .start f.walk := by
    unfold walk
    rw [if_neg (by simpa using nonempty)]
    refine Walk.follow_explores (n := f.blocks.length) (fun x _ => inside x) ?_ (by simp) ?_
    · simpa [entry] using List.length_pos_iff.mpr nonempty
    · rw [List.length_singleton, ← room_succs, Nat.add_comm]
      exact Nat.le_refl _
  have seen : b ∈ f.walk.seen := by
    induction (mem_reachable inside nonempty).mp member with
    | refl => exact explored.todo entry (by simp)
    | @tail c d path edge ih =>
      have reached : c ∈ f.reachable := (mem_reachable inside nonempty).mpr path
      rcases explored.closed c (ih reached (reachable_lt inside reached)) with none | ⟨_, closed⟩
      · exact absurd none (IndexSet.not_mem_empty c)
      · exact closed d edge
  rw [postorder_eq_left inside]
  rcases explored.closed b seen with none | ⟨left, _⟩
  · exact absurd none (IndexSet.not_mem_empty b)
  · exact left

/-- The walk leaves exactly the blocks that can be reached. -/
theorem mem_postorder (inside : f.EdgesInside) : b ∈ f.postorder ↔ b ∈ f.reachable := by
  refine ⟨fun gone => ?_, reachable_subset_postorder inside⟩
  rw [postorder_eq_left inside] at gone
  unfold walk at gone
  split at gone
  · exact absurd gone List.not_mem_nil
  · rename_i nonempty
    have blocks : f.blocks ≠ [] := by simpa using nonempty
    rcases Walk.follow_left gone with none | ⟨y, start, leads⟩
    · exact absurd none List.not_mem_nil
    · rw [List.mem_singleton.mp start] at leads
      exact (mem_reachable inside blocks).mpr leads

end RegisterColoring.Func
