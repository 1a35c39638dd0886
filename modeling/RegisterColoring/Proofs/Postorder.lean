import RegisterColoring.Proofs.Resolved

namespace RegisterColoring

namespace Walk

variable {next : Nat → List Nat} {n depth x : Nat} {path todo : List Nat} {w : Walk}

/-- What a walk has recorded while the nodes of `path` are open. -/
structure Postordered (next : Nat → List Nat) (path : List Nat) (w : Walk) : Prop where
  nodup : w.left.Nodup
  entered : ∀ x ∈ w.left, x ∈ w.seen
  opened : ∀ x ∈ path, x ∈ w.seen ∧ x ∉ w.left
  seen : ∀ x ∈ w.seen, x ∈ w.left ∨ x ∈ path
  /-- An edge leads to a node that was left before, or it is recorded as leading back. -/
  edges : ∀ pre u rest, w.left = pre ++ u :: rest → ∀ v ∈ next u, v ∈ pre ∨ (u, v) ∈ w.back
  /-- What is recorded as leading back is an edge that closes a loop. -/
  back : ∀ e ∈ w.back, e.2 ∈ next e.1 ∧ Path next e.2 e.1

namespace Postordered

theorem start (next : Nat → List Nat) : Postordered next [] .start where
  nodup := .nil
  entered _ member := absurd member List.not_mem_nil
  opened _ member := absurd member List.not_mem_nil
  seen x member := absurd member (IndexSet.not_mem_empty x)
  edges pre u rest split := absurd split (by simp [Walk.start])
  back _ member := absurd member List.not_mem_nil

theorem enter (ordered : Postordered next path w) (new : x ∉ w.seen) :
    Postordered next (x :: path) { w with seen := w.seen.insert x } where
  nodup := ordered.nodup
  entered y member := IndexSet.mem_insert.mpr (.inr (ordered.entered y member))
  opened y member := by
    rcases List.mem_cons.mp member with rfl | later
    · exact ⟨IndexSet.mem_insert.mpr (.inl rfl), fun gone => new (ordered.entered y gone)⟩
    · obtain ⟨seen, left⟩ := ordered.opened y later
      exact ⟨IndexSet.mem_insert.mpr (.inr seen), left⟩
  seen y member := by
    rcases IndexSet.mem_insert.mp member with rfl | before
    · exact .inr List.mem_cons_self
    · exact (ordered.seen y before).imp_right (List.mem_cons_of_mem x)
  edges := ordered.edges
  back := ordered.back

/-- An edge that closes a loop may be recorded. -/
theorem record (ordered : Postordered next path w) {u v : Nat} (edge : v ∈ next u)
    (loop : Path next v u) : Postordered next path { w with back := w.back ++ [(u, v)] } where
  nodup := ordered.nodup
  entered := ordered.entered
  opened := ordered.opened
  seen := ordered.seen
  edges pre x rest split y next :=
    (ordered.edges pre x rest split y next).imp_right (List.mem_append_left _)
  back e member := by
    rcases List.mem_append.mp member with old | new
    · exact ordered.back e old
    · rw [List.mem_singleton.mp new]
      exact ⟨edge, loop⟩

/-- A node is left once its edges lead to nodes that were left before, or are recorded. -/
theorem leave (ordered : Postordered next (x :: path) w) (once : x ∉ path)
    (edges : ∀ v ∈ next x, v ∈ w.left ∨ (x, v) ∈ w.back) :
    Postordered next path { w with left := w.left ++ [x] } where
  nodup := by
    rw [List.nodup_append]
    refine ⟨ordered.nodup, List.pairwise_singleton _ x, fun y gone z last same => ?_⟩
    rw [List.mem_singleton.mp last] at same
    exact (ordered.opened x List.mem_cons_self).2 (same ▸ gone)
  entered y member := by
    rcases List.mem_append.mp member with before | last
    · exact ordered.entered y before
    · rw [List.mem_singleton.mp last]
      exact (ordered.opened x List.mem_cons_self).1
  opened y member := by
    obtain ⟨seen, left⟩ := ordered.opened y (List.mem_cons_of_mem x member)
    refine ⟨seen, fun gone => ?_⟩
    rcases List.mem_append.mp gone with before | last
    · exact left before
    · rw [List.mem_singleton.mp last] at member
      exact once member
  seen y member := by
    rcases ordered.seen y member with gone | here
    · exact .inl (List.mem_append_left _ gone)
    · rcases List.mem_cons.mp here with rfl | later
      · exact .inl (List.mem_append_right _ List.mem_cons_self)
      · exact .inr later
  edges pre u rest split v edge := by
    rcases List.eq_nil_or_concat rest with rfl | ⟨front, last, rfl⟩
    · obtain ⟨rfl, same⟩ := List.append_inj' split rfl
      cases same
      exact edges v edge
    · rw [List.concat_eq_append, ← List.cons_append, ← List.append_assoc] at split
      exact ordered.edges pre u front (List.append_inj' split rfl).1 v edge
  back := ordered.back

end Postordered

/-- The edges to `todo` are those of the node opened last, and all open nodes lead to that one. -/
def Following (next : Nat → List Nat) (path todo : List Nat) : Prop :=
  ∀ u rest, path = u :: rest → (∀ x ∈ todo, x ∈ next u) ∧ ∀ y ∈ path, Path next y u

theorem Following.rest (following : Following next path (x :: todo)) : Following next path todo := by
  intro u rest split
  obtain ⟨edges, leads⟩ := following u rest split
  exact ⟨fun y member => edges y (List.mem_cons_of_mem x member), leads⟩

theorem Following.enter (following : Following next path (x :: todo)) :
    Following next (x :: path) (next x) := by
  intro u rest split
  obtain ⟨rfl, rfl⟩ := List.cons.inj split
  refine ⟨fun y edge => edge, fun y member => ?_⟩
  rcases List.mem_cons.mp member with rfl | earlier
  · exact .refl
  · obtain ⟨v, others, opened⟩ := List.exists_cons_of_ne_nil (List.ne_nil_of_mem earlier)
    obtain ⟨edges, leads⟩ := following v others opened
    exact (leads y earlier).tail (edges x List.mem_cons_self)

/-- What following a list of edges does to the records. -/
structure Records (next : Nat → List Nat) (path todo : List Nat) (before after : Walk) : Prop where
  ordered : Postordered next path after
  kept : ∀ e ∈ before.back, e ∈ after.back
  /-- Edges to open nodes lead back. -/
  back : ∀ u rest, path = u :: rest → ∀ x ∈ todo, x ∈ path → (u, x) ∈ after.back

/-- A walk keeps its records in order. -/
theorem follow_records (inside : ∀ x < n, ∀ y ∈ next x, y < n) (bounded : ∀ x ∈ todo, x < n)
    (following : Following next path todo) (ordered : Postordered next path w)
    (deep : todo.length + room next n w.seen ≤ depth) :
    Records next path todo w (follow next depth path todo w) := by
  refine follow_induction (P := fun path todo before after => Following next path todo →
      Postordered next path before → Records next path todo before after) inside ?done ?back ?old
    ?enter bounded (fun x member => (ordered.opened x member).1) deep following ordered
  case done =>
    exact fun path w _ ordered =>
      ⟨ordered, fun e member => member, fun u rest _ x member => absurd member List.not_mem_nil⟩
  case back =>
    intro path x todo w after onPath _ rest following ordered
    obtain ⟨u, others, rfl⟩ := List.exists_cons_of_ne_nil (List.ne_nil_of_mem onPath)
    obtain ⟨edges, leads⟩ := following u others rfl
    have later := rest following.rest (ordered.record (edges x List.mem_cons_self) (leads x onPath))
    refine ⟨later.ordered, fun e member => later.kept e (List.mem_append_left _ member),
      fun v rest split y member opened => ?_⟩
    obtain ⟨rfl, rfl⟩ := List.cons.inj split
    rcases List.mem_cons.mp member with rfl | behind
    · exact later.kept _ (List.mem_append_right _ List.mem_cons_self)
    · exact later.back u others rfl y behind opened
  case old =>
    intro path x todo w after offPath _ rest following ordered
    have later := rest following.rest ordered
    refine ⟨later.ordered, later.kept, fun u others split y member opened => ?_⟩
    rcases List.mem_cons.mp member with rfl | behind
    · exact absurd opened offPath
    · exact later.back u others split y behind opened
  case enter =>
    intro path x todo w inner after _ once new explores visit rest following ordered
    have visited := visit following.enter (ordered.enter new)
    -- An edge of `x` leads to a node that was left, or that is open and then the edge was recorded.
    have left := visited.ordered.leave once fun v edge =>
      (visited.ordered.seen v (explores.todo v edge)).imp_right
        (visited.back x path rfl v edge)
    have later := rest following.rest left
    refine ⟨later.ordered, fun e member => later.kept e (visited.kept e member),
      fun u others split y member opened => ?_⟩
    rcases List.mem_cons.mp member with rfl | behind
    · exact absurd opened once
    · exact later.back u others split y behind opened

end Walk

namespace Func

variable {f : Func} {u v : BlockId}

theorem walk_postordered (edges : f.EdgesInside) : Walk.Postordered f.succs [] f.walk := by
  unfold walk
  split
  · exact .start f.succs
  · rename_i some
    have positive : 0 < f.blocks.length := List.length_pos_iff.mpr (by simpa using some)
    refine (Walk.follow_records (n := f.blocks.length) (fun x _ => edges x) ?_
      (fun u rest none => by cases none) (.start f.succs) ?_).ordered
    · intro x member
      rw [List.mem_singleton.mp member]
      exact positive
    · rw [List.length_singleton, ← room_succs, Nat.add_comm]
      exact Nat.le_refl _

theorem postorder_nodup (edges : f.EdgesInside) : f.postorder.Nodup := by
  rw [postorder_eq_left edges]
  exact (walk_postordered edges).nodup

/-- An edge leads to a block that was left before, or back. -/
theorem left_or_back (edges : f.EdgesInside) {pre rest : List BlockId}
    (split : f.postorder = pre ++ u :: rest) (edge : v ∈ f.succs u) :
    v ∈ pre ∨ (u, v) ∈ f.walk.back := by
  rw [postorder_eq_left edges] at split
  exact (walk_postordered edges).edges pre u rest split v edge

/-- The entry is left last. -/
theorem postorder_eq_append (edges : f.EdgesInside) (nonempty : f.blocks ≠ []) :
    ∃ front, f.postorder = front ++ [entry] := by
  have some : ¬ f.blocks.isEmpty = true := by simpa using nonempty
  rw [postorder_eq_left edges, walk, if_neg some, stepsAlong]
  simp only [Walk.follow, List.not_mem_nil, if_false, Walk.start, IndexSet.not_mem_empty,
    Walk.follow_nil]
  exact ⟨_, rfl⟩

/-- Of two blocks the first stands before the second in postorder. -/
abbrev LeftBefore (f : Func) (v u : BlockId) : Prop := List.Sublist [v, u] f.postorder

theorem leftBefore_of_split {pre rest : List BlockId} (split : f.postorder = pre ++ u :: rest)
    (member : v ∈ pre) : f.LeftBefore v u := by
  have pair := (List.singleton_sublist.mpr member).append
    (List.singleton_sublist.mpr (List.mem_cons_self (a := u) (l := rest)))
  rwa [← split] at pair

theorem mem_of_leftBefore {pre rest : List BlockId} (edges : f.EdgesInside)
    (split : f.postorder = pre ++ u :: rest) (before : f.LeftBefore v u) : v ∈ pre := by
  have nodup := postorder_nodup edges
  rw [LeftBefore, split] at before
  rw [split] at nodup
  clear split
  induction pre with
  | nil =>
    have again : u ∈ rest := by
      cases before with
      | cons _ later => exact later.subset (by simp)
      | cons_cons _ later => exact later.subset (by simp)
    exact absurd again (List.nodup_cons.mp nodup).1
  | cons first pre ih =>
    cases before with
    | cons _ later => exact List.mem_cons_of_mem first (ih later (List.nodup_cons.mp nodup).2)
    | cons_cons _ _ => exact List.mem_cons_self

/-- An edge whose head is not left before its tail closes a loop. -/
theorem path_of_not_leftBefore (edges : f.EdgesInside) (reach : u ∈ f.reachable)
    (edge : v ∈ f.succs u) (late : ¬ f.LeftBefore v u) : Path f.succs v u := by
  obtain ⟨pre, rest, split⟩ := List.append_of_mem ((mem_postorder edges).mpr reach)
  rcases left_or_back edges split edge with before | back
  · exact absurd (leftBefore_of_split split before) late
  · exact ((walk_postordered edges).back _ back).2

/-- No block that can be reached lies on a loop. -/
def LoopFree (f : Func) : Prop := ∀ u ∈ f.reachable, ∀ v ∈ f.succs u, ¬ Path f.succs v u

theorem LoopFree.leftBefore (free : f.LoopFree) (edges : f.EdgesInside) (reach : u ∈ f.reachable)
    (edge : v ∈ f.succs u) : f.LeftBefore v u := by
  by_contra late
  exact free u reach v edge (path_of_not_leftBefore edges reach edge late)

/-- The two traversals find the blocks to which paths lead, and the second one lists them in the
order in which a depth-first walk leaves them. -/
structure Traversed (f : Func) : Prop where
  reachable : ∀ b, b ∈ f.reachable ↔ Path f.succs entry b
  members : ∀ b, b ∈ f.postorder ↔ Path f.succs entry b
  nodup : f.postorder.Nodup
  last : f.postorder.getLast? = some entry
  edges : ∀ u ∈ f.reachable, ∀ v ∈ f.succs u, ¬ f.LeftBefore v u → Path f.succs v u
  loopFree : f.LoopFree → ∀ u ∈ f.reachable, ∀ v ∈ f.succs u, f.LeftBefore v u

/-- In every function with consistent edges the search and the walk agree with paths, and the order
of the walk is a postorder. -/
theorem traversed_of_consistent (consistent : f.rebuildEdges = .ok f) (nonempty : f.blocks ≠ []) :
    f.Traversed := by
  have edges := edgesInside_of_linked (rebuildEdges_eq_self.mp consistent)
  obtain ⟨front, split⟩ := postorder_eq_append edges nonempty
  refine ⟨fun b => mem_reachable edges nonempty, fun b => ?_, postorder_nodup edges, ?_,
    fun u reach v edge => path_of_not_leftBefore edges reach edge,
    fun free u reach v edge => free.leftBefore edges reach edge⟩
  · rw [mem_postorder edges, mem_reachable edges nonempty]
  · rw [split, List.getLast?_concat]

end Func

/-- A loop that is entered in two places, with an edge of a block to itself and a block that cannot be
reached. -/
def crossBlocks : List (String × List Instr) :=
  [("cross.entry", [.branch (.test (.temp 0)) 1 2]),
    (".left", [.binary .sub 0 (.temp 0) (.temp 1)]),
    (".right", [.branch (.test (.temp 0)) 1 3]),
    (".wait", [.branch (.test (.temp 0)) 3 5]),
    (".lost", [.jump 0]),
    (".done", [.ret none])]

/-- The edge from the third block to the second is the one that closes the loop. -/
theorem crossBlocks_traversed : ∃ f, Func.ofBlocks "cross" [0, 1] ∅ crossBlocks = .ok f ∧
    f.postorder = [5, 3, 2, 1, 0] ∧ f.blocks ≠ [] ∧ f.Traversed ∧ Path f.succs 1 2 := by
  have result : (Func.ofBlocks "cross" [0, 1] ∅ crossBlocks).map (fun f =>
      (f.postorder, f.reachable.toList, f.succs 2, f.blocks.isEmpty)) =
      .ok ([5, 3, 2, 1, 0], [0, 1, 2, 3, 5], [1, 3], false) := by decide +kernel
  obtain ⟨f, built, values⟩ := map_eq_ok.mp result
  simp only [Prod.mk.injEq] at values
  obtain ⟨order, reached, succs, some⟩ := values
  have nonempty : f.blocks ≠ [] := by simpa using some
  have traversed := Func.traversed_of_consistent (Func.ofBlocks_consistent built) nonempty
  refine ⟨f, built, order, nonempty, traversed, traversed.edges 2 ?_ 1 ?_ ?_⟩
  · rw [← IndexSet.mem_toList, reached]
    decide
  · rw [succs]
    decide
  · rw [Func.LeftBefore, order]
    decide

end RegisterColoring
