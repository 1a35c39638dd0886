import RegisterColoring.Proofs.Postorder
import RegisterColoring.Proofs.Renumbering

namespace RegisterColoring

/-- A path leads from the first node to the second, and none of its nodes is `h`. -/
inductive PathAvoiding (next : Nat → List Nat) (h : Nat) : Nat → Nat → Prop
  | stop {x : Nat} : x ≠ h → PathAvoiding next h x x
  | step {x y z : Nat} : x ≠ h → y ∈ next x → PathAvoiding next h y z → PathAvoiding next h x z

namespace PathAvoiding

variable {next : Nat → List Nat} {h x y z : Nat}

theorem path (avoiding : PathAvoiding next h x y) : Path next x y := by
  induction avoiding with
  | stop => exact .refl
  | step _ edge _ ih => exact ih.head edge

theorem start_ne (avoiding : PathAvoiding next h x y) : x ≠ h := by
  cases avoiding with
  | stop other => exact other
  | step other => exact other

theorem end_ne (avoiding : PathAvoiding next h x y) : y ≠ h := by
  induction avoiding with
  | stop other => exact other
  | step _ _ _ ih => exact ih

theorem trans (first : PathAvoiding next h x y) (second : PathAvoiding next h y z) :
    PathAvoiding next h x z := by
  induction first with
  | stop => exact second
  | step other edge _ ih => exact .step other edge (ih second)

end PathAvoiding

/-- A path avoids a node, or leads through it. -/
theorem Path.avoiding_or_through {next : Nat → List Nat} {x y : Nat} (path : Path next x y) (h : Nat) :
    PathAvoiding next h x y ∨ Path next x h ∧ Path next h y := by
  induction path using Relation.ReflTransGen.head_induction_on with
  | refl =>
    by_cases same : y = h
    · exact .inr (same ▸ ⟨.refl, .refl⟩)
    · exact .inl (.stop same)
  | @head x z edge rest ih =>
    by_cases same : x = h
    · exact .inr ⟨same ▸ .refl, same ▸ rest.head edge⟩
    · exact ih.imp (.step same edge) fun ⟨into, out⟩ => ⟨into.head edge, out⟩

/-- A path to another node first arrives there along some edge. -/
theorem Path.first_arrival {next : Nat → List Nat} {x h : Nat} (path : Path next x h) (other : x ≠ h) :
    ∃ p, PathAvoiding next h x p ∧ h ∈ next p := by
  induction path using Relation.ReflTransGen.head_induction_on with
  | refl => exact absurd rfl other
  | @head x z edge _ ih =>
    by_cases same : z = h
    · exact ⟨x, .stop other, same ▸ edge⟩
    · obtain ⟨p, avoiding, last⟩ := ih same
      exact ⟨p, .step other edge avoiding, last⟩

namespace Func

variable {f : Func} {b h u : BlockId}

/-- A path of at least one edge leads from the block to itself. -/
def OnCycle (f : Func) (b : BlockId) : Prop := ∃ s ∈ f.succs b, Path f.succs s b

/-- `h` stands on all paths from the entry to `u`. -/
def Dominates (f : Func) (h u : BlockId) : Prop := ¬ PathAvoiding f.succs h entry u

/-- Whatever the walk records as leading back leads to a block that cannot be bypassed. -/
def Reducible (f : Func) : Prop := ∀ e ∈ f.walk.back, f.Dominates e.2 e.1

/-- A natural loop is its header together with the blocks that reach its tail and avoid the header. -/
theorem mem_naturalLoop_iff (linked : link f.blocks = .ok f.blocks) (tailed : u < f.blocks.length) :
    b ∈ f.naturalLoop h u ↔ b = h ∨ PathAvoiding f.succs h b u := by
  rw [mem_naturalLoop_of_linked linked tailed]
  constructor
  · rintro (same | path)
    · exact .inl same
    induction path with
    | refl =>
      by_cases same : u = h
      · exact .inl same
      · exact .inr (.stop same)
    | @tail c b _ edge ih =>
      obtain ⟨other, back⟩ := mem_intoLoop.mp edge
      by_cases same : b = h
      · exact .inl same
      · exact .inr (.step same ((mem_preds_of_linked linked).mp back) (ih.resolve_left other))
  · rintro (same | avoiding)
    · exact .inl same
    · refine .inr ?_
      induction avoiding with
      | stop => exact .refl
      | step _ edge rest ih =>
        exact (ih tailed).tail (mem_intoLoop.mpr ⟨rest.start_ne, (mem_preds_of_linked linked).mpr edge⟩)

/-- Of the blocks that lie on cycles with `b`, one is left last. An edge to it from such a block leads
back. -/
theorem exists_last_around (edges : f.EdgesInside) (reach : b ∈ f.reachable) :
    ∃ h, Path f.succs b h ∧ Path f.succs h b ∧
      ∀ p, Path f.succs b p → h ∈ f.succs p → (p, h) ∈ f.walk.back := by
  have nodup := postorder_nodup edges
  have left : ∀ p, Path f.succs b p → p ∈ f.postorder := by
    intro p path
    refine (mem_postorder edges).mpr ?_
    induction path with
    | refl => exact reach
    | tail _ edge ih => exact succ_mem_reachable edges ih edge
  rcases none_or_last (fun x => Path f.succs b x ∧ Path f.succs x b) f.postorder with
    none | ⟨before, h, after, split, ⟨there, back⟩, later⟩
  · exact absurd ⟨.refl, .refl⟩ (none b (left b .refl))
  · refine ⟨h, there, back, fun p path edge => ?_⟩
    have member := left p path
    rw [split] at nodup member
    have apart := (List.nodup_append.mp nodup).2.2
    rcases List.mem_append.mp member with early | rest
    · obtain ⟨pre, middle, rfl⟩ := List.append_of_mem early
      rw [List.append_assoc, List.cons_append] at split
      refine (left_or_back edges split edge).resolve_left fun gone => ?_
      exact apart h (List.mem_append_left _ gone) h List.mem_cons_self rfl
    · rcases List.mem_cons.mp rest with same | late
      · rw [same] at edge ⊢
        refine (left_or_back edges split edge).resolve_left fun gone => ?_
        exact apart h gone h List.mem_cons_self rfl
      · exact absurd ⟨path, back.head edge⟩ (later p late)

/-- A block on a cycle lies in the natural loop of some edge that leads back. -/
theorem OnCycle.mem_naturalLoop (cycle : f.OnCycle b) (linked : link f.blocks = .ok f.blocks)
    (reach : b ∈ f.reachable) : ∃ e ∈ f.walk.back, b ∈ f.naturalLoop e.2 e.1 := by
  have edges := edgesInside_of_linked linked
  have inside : ∀ {p}, Path f.succs b p → p < f.blocks.length := by
    intro p path
    cases path with
    | refl => exact reachable_lt edges reach
    | tail _ edge => exact edges _ p edge
  obtain ⟨h, there, _, back⟩ := exists_last_around edges reach
  by_cases same : b = h
  · obtain ⟨s, edge, around⟩ := cycle
    obtain ⟨p, path, last⟩ : ∃ p, Path f.succs b p ∧ h ∈ f.succs p := by
      cases around with
      | refl => exact ⟨b, .refl, same ▸ edge⟩
      | @tail c _ path last => exact ⟨c, path.head edge, same ▸ last⟩
    exact ⟨(p, h), back p path last,
      (mem_naturalLoop_iff linked (inside path)).mpr (.inl same)⟩
  · obtain ⟨p, avoiding, last⟩ := there.first_arrival same
    exact ⟨(p, h), back p avoiding.path last,
      (mem_naturalLoop_iff linked (inside avoiding.path)).mpr (.inr avoiding)⟩

theorem onCycle_of_path {x : BlockId} (path : Path f.succs b x) (edge : b ∈ f.succs x) :
    f.OnCycle b := by
  rcases path.cases_head with same | ⟨s, first, rest⟩
  · exact ⟨b, same ▸ edge, .refl⟩
  · exact ⟨s, first, rest.tail edge⟩

/-- What lies in the natural loop of a header that cannot be bypassed lies on a cycle. -/
theorem onCycle_of_mem_naturalLoop (linked : link f.blocks = .ok f.blocks) {e : BlockId × BlockId}
    (back : e ∈ f.walk.back) (dominates : f.Dominates e.2 e.1) (path : Path f.succs entry b)
    (member : b ∈ f.naturalLoop e.2 e.1) : f.OnCycle b := by
  have edges := edgesInside_of_linked linked
  obtain ⟨edge, around⟩ := (walk_postordered edges).back e back
  have headed := edges e.1 e.2 edge
  have tailed : e.1 < f.blocks.length := by
    by_contra outside
    rw [succs_of_missing (List.getElem?_eq_none (Nat.not_lt.mp outside))] at edge
    exact absurd edge List.not_mem_nil
  rcases (mem_naturalLoop_iff linked tailed).mp member with same | avoiding
  · rw [same]
    exact onCycle_of_path around edge
  · -- A path to the block that avoided the header could be continued to the tail.
    have through : Path f.succs e.2 b := by
      rcases path.avoiding_or_through e.2 with bypass | ⟨_, out⟩
      · exact absurd (bypass.trans avoiding) dominates
      · exact out
    cases through with
    | refl => exact absurd rfl avoiding.start_ne
    | tail inner last => exact onCycle_of_path ((avoiding.path.tail edge).trans inner) last

theorem loopDepths_getElem? (edges : f.EdgesInside) (inside : b < f.blocks.length) :
    f.loopDepths[b]? = some (min maxLoopDepth (f.loops.countP (b ∈ ·))) := by
  rw [loopDepths_eq_map edges, List.getElem?_map, List.getElem?_range inside, Option.map_some]

/-- Some loop lies around a block that lies in a natural loop of an edge that leads back. -/
theorem countP_loops_pos :
    0 < f.loops.countP (b ∈ ·) ↔ ∃ e ∈ f.walk.back, b ∈ f.naturalLoop e.2 e.1 := by
  simp only [loops, List.countP_pos_iff, List.mem_map, IndexSet.mem_toList, IndexSet.mem_ofList,
    decide_eq_true_eq]
  constructor
  · rintro ⟨_, ⟨h, _, rfl⟩, member⟩
    obtain ⟨e, back, rfl, inside⟩ := mem_loopBody.mp member
    exact ⟨e, back, inside⟩
  · rintro ⟨e, back, inside⟩
    exact ⟨_, ⟨e.2, ⟨e, back, rfl⟩, rfl⟩, mem_loopBody.mpr ⟨e, back, rfl, inside⟩⟩

/-- The blocks collected for a header are those of the natural loops of the edges back to it. -/
theorem mem_loopBodies (edges : f.EdgesInside) :
    (∃ body, f.loopBodies.get? h = some body ∧ b ∈ body) ↔
      ∃ u, (u, h) ∈ f.walk.back ∧ b ∈ f.naturalLoop h u := by
  rw [loopBodies_eq edges, IndexMap.get?_ofKeys]
  constructor
  · intro collected
    obtain ⟨body, found, inside⟩ := collected
    obtain ⟨_, same⟩ := Option.ite_none_right_eq_some.mp found
    cases same
    obtain ⟨e, back, rfl, member⟩ := mem_loopBody.mp inside
    exact ⟨e.1, back, member⟩
  · intro recorded
    obtain ⟨u, back, member⟩ := recorded
    have header : h ∈ IndexSet.ofList (f.walk.back.map (·.2)) :=
      IndexSet.mem_ofList.mpr (List.mem_map.mpr ⟨_, back, rfl⟩)
    exact ⟨_, if_pos header, mem_loopBody.mpr ⟨_, back, rfl, member⟩⟩

/-- The loop depths tell the blocks on cycles, and the loops are what they are meant to be. -/
structure LoopsFound (f : Func) : Prop where
  recorded : ∀ h b, (∃ body, f.loopBodies.get? h = some body ∧ b ∈ body) ↔
    ∃ u, (u, h) ∈ f.walk.back ∧ b ∈ f.naturalLoop h u
  naturalLoop : ∀ h < f.blocks.length, ∀ u < f.blocks.length, ∀ b,
    b ∈ f.naturalLoop h u ↔ b = h ∨ PathAvoiding f.succs h b u
  depth : ∀ b < f.blocks.length, Path f.succs entry b → ∃ d, f.loopDepths[b]? = some d ∧ d ≤ 8 ∧
    (f.OnCycle b → 1 ≤ d) ∧ (f.Reducible → ¬ f.OnCycle b → d = 0)

/-- In every function with consistent edges a block on a cycle has a depth of at least one, and where
no header can be bypassed, the other blocks have none. -/
theorem loopsFound_of_consistent (consistent : f.rebuildEdges = .ok f) : f.LoopsFound := by
  have linked := rebuildEdges_eq_self.mp consistent
  have edges := edgesInside_of_linked linked
  refine ⟨fun h b => mem_loopBodies edges, fun h _ u tailed b => mem_naturalLoop_iff linked tailed,
    fun b inside path => ⟨_, loopDepths_getElem? edges inside, Nat.min_le_left _ _, fun cycle => ?_,
      fun reducible straight => ?_⟩⟩
  · have nonempty : f.blocks ≠ [] := List.ne_nil_of_length_pos (Nat.zero_lt_of_lt inside)
    have reach := (mem_reachable edges nonempty).mpr path
    have around := countP_loops_pos.mpr (cycle.mem_naturalLoop linked reach)
    exact Nat.le_min.mpr ⟨by decide, around⟩
  · have none : ¬ 0 < f.loops.countP (b ∈ ·) := by
      intro around
      obtain ⟨e, back, member⟩ := countP_loops_pos.mp around
      exact straight (onCycle_of_mem_naturalLoop linked back (reducible e back) path member)
    rw [Nat.eq_zero_of_not_pos none]
    rfl

end Func

/-- A loop inside another one, with a block that cannot be reached and leads into the inner one. -/
def nestBlocks : List (String × List Instr) :=
  [("nest.entry", [.move 0 (.const 3)]),
    (".outer", [.branch (.test (.temp 0)) 2 5]),
    (".inner", [.binary .sub 0 (.temp 0) (.temp 1), .branch (.test (.temp 0)) 2 3]),
    (".next", [.jump 1]),
    (".lost", [.jump 2]),
    (".done", [.ret none])]

/-- The headers cannot be bypassed, so the depths tell exactly which blocks lie on cycles. -/
theorem nestBlocks_loopsFound : ∃ f, Func.ofBlocks "nest" [1] ∅ nestBlocks = .ok f ∧
    f.loopDepths = [0, 1, 2, 1, 1, 0] ∧ f.Reducible ∧ f.LoopsFound ∧ f.OnCycle 2 ∧ ¬ f.OnCycle 5 := by
  have result : (Func.ofBlocks "nest" [1] ∅ nestBlocks).map (fun f =>
      (f.loopDepths, f.walk.back, f.blocks.length, f.succs 0, f.reachable.toList)) =
      .ok ([0, 1, 2, 1, 1, 0], [(2, 2), (3, 1)], 6, [1], [0, 1, 2, 3, 5]) := by decide +kernel
  obtain ⟨f, built, values⟩ := map_eq_ok.mp result
  simp only [Prod.mk.injEq] at values
  obtain ⟨depths, back, length, first, reached⟩ := values
  have consistent := Func.ofBlocks_consistent built
  have found := Func.loopsFound_of_consistent consistent
  have reducible : f.Reducible := by
    intro e member avoiding
    rw [back] at member
    rcases List.mem_cons.mp member with rfl | last
    · exact avoiding.end_ne rfl
    · cases List.mem_singleton.mp last
      cases avoiding with
      | step _ edge rest =>
        rw [Func.entry, first] at edge
        exact rest.start_ne (List.mem_singleton.mp edge)
  have edges := Func.edgesInside_of_linked (Func.rebuildEdges_eq_self.mp consistent)
  have nonempty : f.blocks ≠ [] := List.ne_nil_of_length_pos (by omega)
  have path : ∀ b ∈ [0, 1, 2, 3, 5], Path f.succs Func.entry b := by
    intro b member
    rw [← reached, IndexSet.mem_toList] at member
    exact (Func.mem_reachable edges nonempty).mp member
  obtain ⟨inner, atInner, _, _, straight⟩ := found.depth 2 (by omega) (path 2 (by decide))
  obtain ⟨done, atDone, _, cycle, _⟩ := found.depth 5 (by omega) (path 5 (by decide))
  rw [depths] at atInner atDone
  cases atInner
  cases atDone
  refine ⟨f, built, depths, reducible, found, ?_, fun on => absurd (cycle on) (by decide)⟩
  by_contra off
  exact absurd (straight reducible off) (by decide)

end RegisterColoring
