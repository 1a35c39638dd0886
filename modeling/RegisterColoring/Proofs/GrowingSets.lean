import RegisterColoring.Proofs.LiveRows

namespace RegisterColoring

namespace Func

/-- The set at the start of block `b` that the sets of its successors ask for. -/
def flowIn (f : Func) (live : List IndexSet) (b : BlockId) : IndexSet :=
  match f.blocks[b]? with
  | some block => liveRow block.instrs (joinAt live block.succs)
  | none => ∅

theorem transfer_eq_liveRow (live : List IndexSet) (block : Block) :
    ((joinAt live block.transfer.succs).diff block.transfer.kill) ∪ block.transfer.gen =
      liveRow block.instrs (joinAt live block.succs) := by
  ext t
  rw [mem_liveRow, IndexSet.mem_union, IndexSet.mem_diff]
  simp only [Block.transfer, Block.defs, IndexSet.mem_ofList, List.mem_filterMap, not_exists,
    not_and]
  exact or_comm

/-- Every set of the first row is contained in the set of the second at the same place. -/
def Below (live more : List IndexSet) : Prop := ∀ b, ∀ t ∈ live.getD b ∅, t ∈ more.getD b ∅

theorem flowIn_mono {f : Func} {live more : List IndexSet} (below : Below live more) {b : BlockId}
    {t : Temp} (member : t ∈ f.flowIn live b) : t ∈ f.flowIn more b := by
  unfold flowIn at member ⊢
  split at member
  · rw [mem_liveRow] at member ⊢
    refine member.imp_right fun ⟨joined, kept⟩ => ⟨?_, kept⟩
    obtain ⟨s, succ, inside⟩ := mem_joinAt.mp joined
    exact mem_joinAt.mpr ⟨s, succ, below s t inside⟩
  · exact absurd member (IndexSet.not_mem_empty t)

/-- The state of the sweeps: the sets ask for at least what they hold, and hold only live temps. -/
structure Growing (f : Func) (sets : FlowSets) : Prop where
  starts : sets.atStart.length = f.blocks.length
  ends : sets.atEnd.length = f.blocks.length
  below : ∀ b, ∀ t ∈ sets.atStart.getD b ∅, t ∈ f.flowIn sets.atStart b
  exact : ∀ b, ∀ t ∈ sets.atStart.getD b ∅,
    ∃ block, f.blocks[b]? = some block ∧ f.LiveAt t b block.instrs

theorem Growing.liveRow_exact {f : Func} {sets : FlowSets} (growing : f.Growing sets)
    {b : BlockId} {rest : List Instr} {t : Temp}
    (member : t ∈ liveRow rest (joinAt sets.atStart (f.succs b))) : f.LiveAt t b rest := by
  induction rest with
  | nil =>
    obtain ⟨s, succ, inside⟩ := mem_joinAt.mp member
    obtain ⟨block, found, live⟩ := growing.exact s t inside
    exact .edge succ found live
  | cons i rest ih =>
    rw [liveRow_cons, Instr.mem_liveBefore] at member
    rcases member with used | ⟨kept, later⟩
    · exact .read used
    · exact .pass kept (ih later)

theorem Growing.flowIn_exact {f : Func} {sets : FlowSets} (growing : f.Growing sets)
    {b : BlockId} {t : Temp} (member : t ∈ f.flowIn sets.atStart b) :
    ∃ block, f.blocks[b]? = some block ∧ f.LiveAt t b block.instrs := by
  unfold flowIn at member
  split at member
  · rename_i block found
    rw [← succs_of_found found] at member
    exact ⟨block, found, growing.liveRow_exact member⟩
  · exact absurd member (IndexSet.not_mem_empty t)

theorem getD_set {live : List IndexSet} {b c : BlockId} {s : IndexSet} :
    (live.set b s).getD c ∅ = if b = c ∧ c < live.length then s else live.getD c ∅ := by
  rw [List.getD_eq_getElem?_getD, List.getElem?_set, List.getD_eq_getElem?_getD]
  by_cases same : b = c
  · subst same
    by_cases inside : b < live.length
    · simp [inside]
    · simp [inside]
  · simp [same]

theorem set_getD_self {live : List IndexSet} (b : BlockId) : live.set b (live.getD b ∅) = live := by
  by_cases inside : b < live.length
  · have value : live.getD b ∅ = live.get ⟨b, inside⟩ := by simp [List.getElem?_eq_getElem inside]
    rw [value]
    exact List.set_getElem_self inside
  · exact List.set_eq_of_length_le (Nat.not_lt.mp inside)

/-- Comparing sizes is as good as comparing sets: a visit leaves behind what the successors ask for,
and it records a change exactly if that is something else than before. -/
theorem Growing.visitBlock_eq {f : Func} {sets : FlowSets} (growing : f.Growing sets) (b : BlockId) :
    visitBlock (f.blocks.map Block.transfer) sets b =
      ⟨sets.atStart.set b (f.flowIn sets.atStart b),
        sets.atEnd.set b (joinAt sets.atStart (f.succs b)),
        sets.changed || decide (sets.atStart.getD b ∅ ≠ f.flowIn sets.atStart b)⟩ := by
  cases found : f.blocks[b]? with
  | some block =>
    have asked : f.flowIn sets.atStart b =
        liveRow block.instrs (joinAt sets.atStart block.succs) := by
      simp only [flowIn, found]
    have stored : (f.blocks.map Block.transfer).getD b ⟨∅, ∅, []⟩ = block.transfer := by
      rw [List.getD_eq_getElem?_getD, List.getElem?_map, found]
      rfl
    have edges : block.transfer.succs = block.succs := rfl
    rw [visitBlock_def stored, transfer_eq_liveRow, ← asked, edges, succs_of_found found]
    split
    · rename_i sameSize
      have same : sets.atStart.getD b ∅ = f.flowIn sets.atStart b :=
        IndexSet.eq_of_size_eq (growing.below b) sameSize
      rw [← same, set_getD_self]
      simp
    · rename_i otherSize
      have other : sets.atStart.getD b ∅ ≠ f.flowIn sets.atStart b := fun same =>
        otherSize (by rw [same])
      simp only [ne_eq, other, not_false_eq_true, decide_true, Bool.or_true]
  | none =>
    have outside := List.getElem?_eq_none_iff.mp found
    have startsEnd : sets.atStart.length ≤ b := by rw [growing.starts]; exact outside
    have endsEnd : sets.atEnd.length ≤ b := by rw [growing.ends]; exact outside
    have empty : sets.atStart.getD b ∅ = f.flowIn sets.atStart b := by
      rw [List.getD_eq_getElem?_getD, List.getElem?_eq_none startsEnd]
      simp only [flowIn, found, Option.getD_none]
    have stored : (f.blocks.map Block.transfer).getD b ⟨∅, ∅, []⟩ = ⟨∅, ∅, []⟩ := by
      rw [List.getD_eq_getElem?_getD, List.getElem?_map, found]
      rfl
    have asked : f.flowIn sets.atStart b = ∅ := by simp only [flowIn, found]
    rw [visitBlock_def stored]
    simp only [List.set_eq_of_length_le startsEnd, List.set_eq_of_length_le endsEnd, empty, ne_eq,
      not_true_eq_false, decide_false, Bool.or_false, asked]
    exact if_pos rfl

/-- A visit takes nothing away. -/
theorem Growing.below_visit {f : Func} {sets : FlowSets} (growing : f.Growing sets) (b : BlockId) :
    Below sets.atStart (visitBlock (f.blocks.map Block.transfer) sets b).atStart := by
  rw [growing.visitBlock_eq b]
  intro c t member
  rw [getD_set]
  split
  · rename_i same
    rw [same.1]
    exact growing.below c t member
  · exact member

theorem Growing.visit {f : Func} {sets : FlowSets} (growing : f.Growing sets) (b : BlockId) :
    f.Growing (visitBlock (f.blocks.map Block.transfer) sets b) := by
  have below := growing.below_visit b
  rw [growing.visitBlock_eq b] at below ⊢
  refine ⟨?_, ?_, fun c t member => ?_, fun c t member => ?_⟩
  · rw [List.length_set]
    exact growing.starts
  · rw [List.length_set]
    exact growing.ends
  · simp only [getD_set] at member
    refine flowIn_mono below ?_
    split at member
    · rename_i same
      rw [← same.1]
      exact member
    · exact growing.below c t member
  · simp only [getD_set] at member
    split at member
    · rename_i same
      rw [← same.1]
      exact growing.flowIn_exact member
    · exact growing.exact c t member

/-- What visits to the blocks of `order` have led to from the sets `before`, if they have recorded
no change. -/
structure Unchanged (f : Func) (order : List BlockId) (before after : FlowSets) : Prop where
  earlier : before.changed = false
  starts : after.atStart = before.atStart
  stable : ∀ b ∈ order, before.atStart.getD b ∅ = f.flowIn before.atStart b
  visited : ∀ b ∈ order, b < f.blocks.length →
    after.atEnd.getD b ∅ = joinAt before.atStart (f.succs b)
  kept : ∀ b, b ∉ order → after.atEnd.getD b ∅ = before.atEnd.getD b ∅

theorem Growing.visits {f : Func} {sets : FlowSets} (growing : f.Growing sets)
    (order : List BlockId) :
    f.Growing (order.foldl (visitBlock (f.blocks.map Block.transfer)) sets) ∧
      ((order.foldl (visitBlock (f.blocks.map Block.transfer)) sets).changed = false →
        f.Unchanged order sets (order.foldl (visitBlock (f.blocks.map Block.transfer)) sets)) := by
  induction order generalizing sets with
  | nil =>
    refine ⟨growing, fun same => ⟨same, rfl, ?_, ?_, fun _ _ => rfl⟩⟩
    · exact fun b member => absurd member List.not_mem_nil
    · exact fun b member => absurd member List.not_mem_nil
  | cons b rest ih =>
    rw [List.foldl_cons]
    obtain ⟨grown, unchanged⟩ := ih (growing.visit b)
    refine ⟨grown, fun same => ?_⟩
    have later := unchanged same
    have value := growing.visitBlock_eq b
    -- The mark of a change is never taken back, so this visit has not made one either.
    have quiet := later.earlier
    rw [value] at quiet
    obtain ⟨earlier, equal⟩ := Bool.or_eq_false_iff.mp quiet
    have asked : sets.atStart.getD b ∅ = f.flowIn sets.atStart b := by simpa using equal
    have starts : (visitBlock (f.blocks.map Block.transfer) sets b).atStart = sets.atStart := by
      rw [value, ← asked]
      exact set_getD_self b
    have ends : (visitBlock (f.blocks.map Block.transfer) sets b).atEnd =
        sets.atEnd.set b (joinAt sets.atStart (f.succs b)) := by rw [value]
    refine ⟨earlier, later.starts.trans starts, fun c member => ?_, fun c member inside => ?_,
      fun c outside => ?_⟩
    · rcases List.mem_cons.mp member with same | inRest
      · rw [same]
        exact asked
      · have stable := later.stable c inRest
        rwa [starts] at stable
    · by_cases inRest : c ∈ rest
      · have visited := later.visited c inRest inside
        rwa [starts] at visited
      · have same := (List.mem_cons.mp member).resolve_right inRest
        rw [later.kept c inRest, ends, same, getD_set, if_pos]
        exact ⟨rfl, by rw [growing.ends, ← same]; exact inside⟩
    · have other : c ≠ b := fun same => outside (by rw [same]; exact List.mem_cons_self)
      have notInRest : c ∉ rest := fun inRest => outside (List.mem_cons_of_mem b inRest)
      rw [later.kept c notInRest, ends, getD_set, if_neg]
      exact fun same => other same.1.symm

theorem Growing.restart {f : Func} {sets : FlowSets} (growing : f.Growing sets) :
    f.Growing { sets with changed := false } :=
  ⟨growing.starts, growing.ends, growing.below, growing.exact⟩

theorem Growing.sweep {f : Func} {sets : FlowSets} (growing : f.Growing sets)
    (order : List BlockId) : f.Growing (sweep (f.blocks.map Block.transfer) order sets) := by
  rw [sweep_def]
  exact (growing.restart.visits order).1

theorem growing_start (f : Func) : f.Growing (.start f.blocks.length) := by
  have none : ∀ b, ∀ t ∈ (List.replicate f.blocks.length (∅ : IndexSet)).getD b ∅, False := by
    intro b t member
    rw [List.getD_eq_getElem?_getD, List.getElem?_replicate] at member
    split at member
    · exact absurd member (IndexSet.not_mem_empty t)
    · exact absurd member (IndexSet.not_mem_empty t)
  exact ⟨List.length_replicate, List.length_replicate, fun b t member => (none b t member).elim,
    fun b t member => (none b t member).elim⟩

end Func

end RegisterColoring
