import RegisterColoring.Proofs.WellFormed

namespace RegisterColoring

theorem Func.renumber_def (kept : IndexSet) (b : BlockId) :
    renumber kept b = (kept.toList.idxOf? b).getD b := rfl

namespace IndexSet

theorem getElem?_lt {s : IndexSet} {i j x y : Nat} (first : s.toList[i]? = some x)
    (second : s.toList[j]? = some y) : x < y ↔ i < j := by
  obtain ⟨iBound, rfl⟩ := List.getElem?_eq_some_iff.mp first
  obtain ⟨jBound, rfl⟩ := List.getElem?_eq_some_iff.mp second
  have ordered := List.pairwise_iff_getElem.mp s.ascending
  constructor
  · intro below
    by_contra notBefore
    rcases Nat.lt_or_ge j i with before | same
    · exact absurd (ordered j i jBound iBound before) (by omega)
    · have equal : i = j := by omega
      subst equal
      exact Nat.lt_irrefl _ below
  · exact ordered i j iBound jBound

theorem getElem?_next {s : IndexSet} {i j x : Nat} (first : s.toList[i]? = some x)
    (second : s.toList[j]? = some (x + 1)) : j = i + 1 := by
  have after := (getElem?_lt first second).mp (Nat.lt_succ_self x)
  obtain ⟨bound, _⟩ := List.getElem?_eq_some_iff.mp second
  by_contra apart
  have between := List.getElem?_eq_getElem (show i + 1 < s.toList.length by omega)
  have above := (getElem?_lt first between).mpr (by omega)
  have under := (getElem?_lt between second).mpr (by omega)
  omega

theorem getElem?_last {s : IndexSet} {i x : Nat} (place : s.toList[i]? = some x)
    (largest : ∀ y ∈ s, y ≤ x) : i + 1 = s.size := by
  obtain ⟨bound, _⟩ := List.getElem?_eq_some_iff.mp place
  unfold size
  by_contra more
  have behind := List.getElem?_eq_getElem (show i + 1 < s.toList.length by omega)
  have above := (getElem?_lt place behind).mpr (by omega)
  have limit := largest _ (List.mem_of_getElem? behind)
  omega

theorem getElem?_renumber {kept : IndexSet} {b : BlockId} (member : b ∈ kept) :
    kept.toList[Func.renumber kept b]? = some b := by
  rw [Func.renumber_def]
  cases position : kept.toList.idxOf? b with
  | none => exact absurd member (List.idxOf?_eq_none_iff.mp position)
  | some c =>
    obtain ⟨bound, value, _⟩ := List.idxOf?_eq_some_iff.mp position
    rw [Option.getD_some, List.getElem?_eq_getElem bound, value]

theorem renumber_of_getElem? {kept : IndexSet} {b c : BlockId} (place : kept.toList[c]? = some b) :
    Func.renumber kept b = c := by
  have member : b ∈ kept := List.mem_of_getElem? place
  have other := getElem?_renumber member
  have before := getElem?_lt place other
  have after := getElem?_lt other place
  exact Nat.le_antisymm (by omega) (by omega)

/-- The entries of a list whose places are in a set. -/
theorem getElem?_selected {α : Type} {xs : List α} {kept : IndexSet}
    (inside : ∀ b ∈ kept, b < xs.length) (c : Nat) :
    (xs.zipIdx.filter (·.2 ∈ kept))[c]? =
      (kept.toList[c]?).bind fun b => (xs[b]?).map fun x => (x, b) := by
  have numbers : (xs.zipIdx.filter (·.2 ∈ kept)).map (·.2) = kept.toList := by
    refine ascending_eq ?_ kept.ascending fun b => ?_
    · refine List.pairwise_map.mpr (List.Pairwise.filter _ ?_)
      refine List.pairwise_map.mp ?_
      rw [List.zipIdx_map_snd]
      exact List.pairwise_lt_range'
    · simp only [List.mem_map, List.mem_filter, decide_eq_true_eq, Prod.exists]
      constructor
      · rintro ⟨entry, _, ⟨_, member⟩, rfl⟩
        exact member
      · intro member
        exact ⟨_, b, ⟨List.mem_zipIdx_iff_getElem?.mpr (List.getElem?_eq_getElem (inside b member)),
          member⟩, rfl⟩
  rw [← numbers, List.getElem?_map]
  cases place : (xs.zipIdx.filter (·.2 ∈ kept))[c]? with
  | none => rfl
  | some entry =>
    have member := (List.mem_filter.mp (List.mem_of_getElem? place)).1
    simp [List.mem_zipIdx_iff_getElem?.mp member]

end IndexSet

namespace Func

/-- The blocks of `f` that are kept, in their order. -/
def keptBlocks (f : Func) (kept : IndexSet) : List Block :=
  (f.blocks.zipIdx.filter (·.2 ∈ kept)).map (·.1)

theorem keptBlocks_getElem? {f : Func} {kept : IndexSet} (inside : ∀ b ∈ kept, b < f.blocks.length)
    (c : BlockId) : (f.keptBlocks kept)[c]? = (kept.toList[c]?).bind (f.blocks[·]?) := by
  rw [keptBlocks, List.getElem?_map, IndexSet.getElem?_selected inside]
  cases kept.toList[c]? with
  | none => rfl
  | some b => simp [Option.map_map, Function.comp_def]

/-- `g` consists of the blocks of `f` that can be reached, renumbered by `r`. -/
structure Prunes (f g : Func) (r : BlockId → BlockId) : Prop where
  blocks : ∀ b ∈ f.reachable, ∀ block, f.blocks[b]? = some block →
    ∃ image, g.blocks[r b]? = some image ∧ image.instrs = block.instrs.map (Instr.mapTargets r)
  onto : ∀ c < g.blocks.length, ∃ b ∈ f.reachable, r b = c
  entry : r entry = entry
  next : ∀ b ∈ f.reachable, b + 1 ∈ f.reachable → r (b + 1) = r b + 1
  last : ∀ b ∈ f.reachable, b + 1 = f.blocks.length → r b + 1 = g.blocks.length
  headings : ∀ b ∈ f.reachable, ∀ id label, f.headings[b]? = some (id, label) →
    g.headings[r b]? = some (r id, label)
  linked : link g.blocks = .ok g.blocks
  fields : g = { f with blocks := g.blocks }

theorem mapTargets_of_not_isTerminator (r : BlockId → BlockId) {i : Instr}
    (ordinary : i.isTerminator = false) : i.mapTargets r = i := by
  cases i with
  | jump target => cases ordinary
  | branch cond yes no => cases ordinary
  | _ => rfl

theorem map_mapTargets_of_straight (r : BlockId → BlockId) {instrs : List Instr}
    (straight : Straight instrs) : instrs.map (Instr.mapTargets r) = instrs := by
  rw [List.map_congr_left fun i member => mapTargets_of_not_isTerminator r (straight i member),
    List.map_id']

/-- Only the last instruction has targets, so all are renumbered with its own. -/
theorem renumberBlock_eq (r : BlockId → BlockId) {block : Block}
    (terminators : TerminatorLast block.instrs) : renumberBlock r block =
      { block with id := r block.id, instrs := block.instrs.map (Instr.mapTargets r) } := by
  obtain ⟨id, label, instrs, succs, preds⟩ := block
  rcases List.eq_nil_or_concat instrs with empty | ⟨init, i, ends⟩
  · subst empty
    rfl
  · rw [List.concat_eq_append] at ends
    subst ends
    have straight : Straight init := by
      rcases terminators.straight_or with all | ⟨first, last, same, early, _⟩
      · exact fun j member => all j (List.mem_append_left _ member)
      · rw [(List.append_inj' same rfl).1]
        exact early
    unfold renumberBlock renumberBlockM
    simp only [bind_id, List.getLast?_concat, List.dropLast_concat, List.map_append,
      List.map_singleton, map_mapTargets_of_straight r straight]
    rfl

theorem mapTargets_id (i : Instr) : i.mapTargets id = i := by
  cases i <;> rfl

theorem prunes_self {f : Func} (wf : f.WellFormed)
    (all : ∀ b < f.blocks.length, b ∈ f.reachable) : Prunes f f id where
  blocks b _ block found := by
    refine ⟨block, found, ?_⟩
    rw [show Instr.mapTargets id = id from funext mapTargets_id, List.map_id]
  onto c bound := ⟨c, all c bound, rfl⟩
  entry := rfl
  next _ _ _ := rfl
  last _ _ ends := ends
  headings _ _ _ _ place := place
  linked := wf.linked
  fields := rfl

theorem all_reachable {f : Func} (inside : f.EdgesInside)
    (full : f.blocks.length - f.reachable.size = 0) : ∀ b < f.blocks.length, b ∈ f.reachable := by
  intro b bound
  by_contra absent
  have smaller : f.reachable.size < (IndexSet.ofList (List.range f.blocks.length)).size := by
    refine IndexSet.size_lt_size (fun c member => ?_) absent (by simpa using bound)
    simpa using reachable_lt inside member
  have bounded : (IndexSet.ofList (List.range f.blocks.length)).size ≤ f.blocks.length := by
    have length := IndexSet.size_le_length
      (s := IndexSet.ofList (List.range f.blocks.length)) (l := List.range f.blocks.length)
      fun x member => by simpa using member
    simpa using length
  omega

/-- If all blocks can be reached they keep their numbers. -/
theorem renumber_eq_id {f : Func} (inside : f.EdgesInside)
    (all : ∀ b < f.blocks.length, b ∈ f.reachable) : renumber f.reachable = id := by
  have numbers : f.reachable.toList = List.range f.blocks.length := by
    refine ascending_eq f.reachable.ascending List.pairwise_lt_range fun b => ?_
    rw [List.mem_range]
    exact ⟨reachable_lt inside, all b⟩
  funext b
  by_cases bound : b < f.blocks.length
  · refine IndexSet.renumber_of_getElem? ?_
    rw [numbers, id_eq, List.getElem?_range bound]
  · have absent : f.reachable.toList.idxOf? b = none := by
      rw [numbers, List.idxOf?_eq_none_iff, List.mem_range]
      exact bound
    rw [renumber_def, absent]
    rfl

end Func

end RegisterColoring
