import RegisterColoring.Proofs.CheckedRuns
import RegisterColoring.Proofs.Renumbering
import RegisterColoring.Proofs.Representation

namespace RegisterColoring

namespace Func

theorem Numbered.id_eq {f : Func} (numbered : f.Numbered) {b : BlockId} {block : Block}
    (found : f.blocks[b]? = some block) : block.id = b :=
  numbered.ids b _ _ (headings_getElem? found)

/-- A block of a numbered function is found by its number. -/
theorem Numbered.found {f : Func} (numbered : f.Numbered) {block : Block}
    (member : block ∈ f.blocks) : f.blocks[block.id]? = some block := by
  obtain ⟨b, found⟩ := List.mem_iff_getElem?.mp member
  rwa [numbered.id_eq found]

end Func

namespace Checked

variable {f : Func}

theorem finds_succs {b : BlockId} (bound : b < f.blocks.length) :
    Finds (f.succsM b) (f.succsM b) :=
  .orElse (congrArg (Option.map Block.succs) (List.getElem?_eq_getElem bound)) []

theorem finds_preds {b : BlockId} (bound : b < f.blocks.length) :
    Finds (f.predsM b) (f.predsM b) :=
  .orElse (congrArg (Option.map Block.preds) (List.getElem?_eq_getElem bound)) []

section WellFormed

variable (wf : f.WellFormed)
include wf

theorem entry_lt : Func.entry < f.blocks.length := List.length_pos_iff.mpr wf.nonempty

theorem finds_reachable : Finds f.reachableM f.reachableM := by
  unfold Func.reachableM
  split
  · exact .pure _
  · refine .searchM (fun b => finds_succs) (fun b _ => wf.edgesInside b) fun b member => ?_
    rw [List.mem_singleton.mp member]
    exact entry_lt wf

theorem finds_postorder : Finds f.postorderM f.postorderM := by
  unfold Func.postorderM
  split
  · exact .pure _
  · refine .leavingM (fun b => finds_succs) (fun b _ => wf.edgesInside b) fun e member => ?_
    rw [List.mem_singleton.mp member]
    exact entry_lt wf

theorem finds_naturalLoop (header : BlockId) {tail : BlockId} (bound : tail < f.blocks.length) :
    Finds (f.naturalLoopM header tail) (f.naturalLoopM header tail) := by
  refine .searchM (fun b => finds_preds) (fun b _ p edge => ?_) fun b member => ?_
  · exact Func.preds_lt_of_linked wf.linked edge
  · rw [List.mem_singleton.mp member]
    exact bound

theorem finds_loopBodies : Finds f.loopBodiesM f.loopBodiesM := by
  unfold Func.loopBodiesM
  split
  · exact .pure _
  · refine .collectingM (fun b => finds_succs) (fun b _ => wf.edgesInside b)
      (fun header _ tail bound => finds_naturalLoop wf header bound) fun e member => ?_
    rw [List.mem_singleton.mp member]
    exact entry_lt wf

/-- A loop consists of blocks of the function. -/
theorem naturalLoop_lt {header tail b : BlockId} (headerBound : header < f.blocks.length)
    (tailBound : tail < f.blocks.length) (member : b ∈ f.naturalLoop header tail) :
    b < f.blocks.length := by
  rcases (Func.mem_naturalLoop_of_linked wf.linked tailBound).mp member with same | path
  · rw [same]
    exact headerBound
  · cases path with
    | refl => exact tailBound
    | tail _ edge => exact Func.preds_lt_of_linked wf.linked (Func.mem_intoLoop.mp edge).2

theorem loopBodies_lt {body : IndexSet} (member : body ∈ f.loopBodies.values) :
    ∀ b ∈ body, b < f.blocks.length := by
  intro b inside
  rw [Func.values_loopBodies wf.edgesInside] at member
  obtain ⟨header, _, same⟩ := List.mem_map.mp member
  rw [← same] at inside
  obtain ⟨edge, back, ends, inLoop⟩ := Func.mem_loopBody.mp inside
  obtain ⟨g, _, compacts⟩ := Func.pruneUnreachable_compacts wf
  obtain ⟨tail, head⟩ := compacts.walk_within.back edge back
  have headerBound := Func.reachable_lt wf.edgesInside head
  rw [ends] at headerBound
  exact naturalLoop_lt wf headerBound (Func.reachable_lt wf.edgesInside tail) inLoop

/-- There is a depth for each block all the time. -/
theorem finds_loopDepths : Finds f.loopDepthsM f.loopDepthsM := by
  have deepens : ∀ b < f.blocks.length, ∀ depths : List Nat, depths.length = f.blocks.length →
      Finds (Func.deepenM depths b) (Func.deepenM depths b) ∧
        (Func.deepenM (m := Id) depths b).run.length = f.blocks.length := by
    intro b bound depths length
    refine ⟨.bind (.entry (by rwa [length]) 0) (.pure _), ?_⟩
    rw [← length]
    exact List.length_set
  refine (finds_loopBodies wf).bind ?_
  refine (Finds.foldlM (P := fun depths : List Nat => depths.length = f.blocks.length)
    (fun body member depths length => ?_) List.length_replicate).1
  exact Finds.foldlM (fun b inside => deepens b (loopBodies_lt wf member b inside)) length

end WellFormed

theorem finds_numbered (numbered : f.Numbered) : Finds f.numberedM f.numberedM := by
  refine .mapM fun entry member => .orElse_bind (if_pos ?_) (.pure _)
  exact numbered.id_eq (List.mem_zipIdx_iff_getElem?.mp member)

theorem finds_renumber {kept : IndexSet} {b : BlockId} (member : b ∈ kept) :
    Finds (Func.renumberM kept b) (Func.renumberM kept b) := by
  cases found : kept.toList.idxOf? b with
  | none => exact absurd member (List.idxOf?_eq_none_iff.mp found)
  | some n => exact .orElse found b

theorem finds_mapTargets {check : BlockId → Except Halt BlockId} {r : BlockId → Id BlockId}
    {i : Instr} (each : ∀ b ∈ i.targets, Finds (check b) (r b)) :
    Finds (i.mapTargetsM check) (i.mapTargetsM r) := by
  cases i with
  | jump target => exact (each target (by simp [Instr.targets])).bind (.pure _)
  | branch cond yes no =>
    exact (each yes (mem_distinct.mpr (by simp))).bind
      ((each no (mem_distinct.mpr (by simp))).bind (.pure _))
  | _ => exact .pure _

theorem finds_renumberBlock (wf : f.WellFormed) {b : BlockId} {block : Block}
    (reach : b ∈ f.reachable) (found : f.blocks[b]? = some block) (id : block.id = b) :
    Finds (Func.renumberBlockM (Func.renumberM f.reachable) block)
      (Func.renumberBlockM (Func.renumberM f.reachable) block) := by
  refine (finds_renumber (by rwa [id])).bind ?_
  cases last : block.instrs.getLast? with
  | none => exact .pure _
  | some i =>
    refine (finds_mapTargets fun target jumps => finds_renumber ?_).bind (.pure _)
    exact Func.succ_mem_reachable wf.edgesInside reach
      (wf.target_mem_succs found (List.mem_of_getLast? last) jumps)

theorem lifts_pruneUnreachable (wf : f.WellFormed) (numbered : f.Numbered) :
    Lifts f.pruneUnreachableM f.pruneUnreachableM := by
  refine .look_bind (finds_reachable wf) ?_
  simp only
  split
  · exact .ok _
  · refine .look_bind (finds_numbered numbered) (.look_bind (.mapM fun block member => ?_)
      ((Lifts.lift _).map _))
    obtain ⟨entry, kept, rfl⟩ := List.mem_map.mp member
    obtain ⟨inside, reach⟩ := List.mem_filter.mp kept
    rw [f.numbered_eq] at inside
    have found := List.mem_zipIdx_iff_getElem?.mp inside
    exact finds_renumberBlock wf (of_decide_eq_true reach) found (numbered.id_eq found)

end Checked

end RegisterColoring
