import RegisterColoring.Proofs.CheckedFlow
import RegisterColoring.Proofs.Elimination

namespace RegisterColoring.Checked

variable {f : Func}

theorem finds_joinAt {live : List IndexSet} {succs : List BlockId}
    (inside : ∀ s ∈ succs, s < live.length) : Finds (joinAtM live succs) (joinAtM live succs) :=
  .bind (.mapM fun s member => .entry (inside s member) ∅) (.pure _)

/-- A sweep keeps one set for each block, and the edges lead to blocks that have one. -/
theorem finds_visitBlock (wf : f.WellFormed) {sets : FlowSets} (growing : f.Growing sets)
    {b : BlockId} (bound : b < f.blocks.length) :
    Finds (visitBlockM (f.blocks.map Block.transfer) sets b)
      (visitBlockM (f.blocks.map Block.transfer) sets b) := by
  have found := List.getElem?_eq_getElem bound
  have transfer : (f.blocks.map Block.transfer)[b]? = some f.blocks[b].transfer := by
    rw [List.getElem?_map, found, Option.map_some]
  have inside : ∀ s ∈ f.blocks[b].transfer.succs, s < sets.atStart.length := by
    intro s edge
    rw [growing.starts]
    refine wf.edgesInside b s ?_
    rwa [Func.succs_of_found found]
  have startBound : b < sets.atStart.length := by rwa [growing.starts]
  have endBound : b < sets.atEnd.length := by rwa [growing.ends]
  refine .orElse_bind transfer (.bind (finds_joinAt inside)
    (.bind (.entry startBound ∅) (.bind (.entry endBound ∅) ?_)))
  split
  · exact .pure _
  · exact .pure _

theorem finds_sweep (wf : f.WellFormed) {order : List BlockId}
    (inside : ∀ b ∈ order, b < f.blocks.length) {sets : FlowSets} (growing : f.Growing sets) :
    Finds (sweepM (f.blocks.map Block.transfer) order sets)
      (sweepM (f.blocks.map Block.transfer) order sets) :=
  (Finds.foldlM (P := f.Growing)
    (fun b member _ growing => ⟨finds_visitBlock wf growing (inside b member), growing.visit b⟩)
    growing.restart).1

theorem Finds.settleM {check : FlowSets → Except Halt FlowSets} {step : FlowSets → Id FlowSets}
    {P : FlowSets → Prop} (each : ∀ sets, P sets → Finds (check sets) (step sets) ∧ P (step sets).run)
    {bound passes : Nat} {sets : FlowSets} (start : P sets) :
    Finds (settleM check bound passes sets) (settleM step bound passes sets) := by
  induction bound generalizing passes sets with
  | zero => rfl
  | succ bound ih =>
    obtain ⟨first, next⟩ := each sets start
    refine first.bind ?_
    split
    · exact ih next
    · exact .pure _

theorem finds_addressTakenIn {order : List BlockId} (inside : ∀ b ∈ order, b < f.blocks.length) :
    Finds (Liveness.addressTakenInM f order) (Liveness.addressTakenInM f order) := by
  refine .bind (.mapM fun b member => ?_) (.pure _)
  have found := List.getElem?_eq_getElem (inside b member)
  exact .orElse (congrArg (Option.map fun block => block.instrs.filterMap Instr.addressTaken?) found) []

theorem finds_rows (numbered : f.Numbered) (reachable addressTaken : IndexSet) {sets : FlowSets}
    (growing : f.Growing sets) : Finds (Liveness.rowsM f reachable addressTaken sets)
      (Liveness.rowsM f reachable addressTaken sets) := by
  refine (finds_numbered numbered).bind (.mapM fun p member => ?_)
  rw [f.numbered_eq] at member
  have bound := (List.getElem?_eq_some_iff.mp (List.mem_zipIdx_iff_getElem?.mp member)).1
  have startBound : p.2 < sets.atStart.length := by rwa [growing.starts]
  have endBound : p.2 < sets.atEnd.length := by rwa [growing.ends]
  split
  · exact .bind (.entry endBound ∅) (.bind (.entry startBound ∅) (.pure _))
  · exact .pure _

theorem lifts_analyze (wf : f.WellFormed) (numbered : f.Numbered) (bound : Nat) :
    Lifts (Liveness.analyzeM bound f) (Liveness.analyzeM bound f) := by
  have inside : ∀ b ∈ f.postorder, b < f.blocks.length := fun b member =>
    Func.reachable_lt wf.edgesInside ((Func.mem_postorder wf.edgesInside).mp member)
  refine .look_bind (finds_reachable wf) (.look_bind (finds_postorder wf)
    (.look_bind (finds_addressTakenIn inside) (.look_bind (Finds.settleM (P := f.Growing)
      (fun sets growing => ⟨finds_sweep wf inside growing, growing.sweep f.postorder⟩)
      (Func.growing_start f)) ?_)))
  split
  · exact .lift _
  · rename_i sets passes run
    refine .look_bind (finds_rows numbered _ _ (Func.settled_of_settle run).growing)
      ((Lifts.look (.mapM fun block member => .entry ?_ _)).map _)
    rw [Liveness.rows_def, List.length_mapIdx]
    exact (List.getElem?_eq_some_iff.mp (numbered.found member)).1

theorem length_livePoints (out : IndexSet) (instrs : List Instr) :
    (livePoints out instrs).2.length = instrs.length := by
  induction instrs with
  | nil => rfl
  | cons i rest ih => simp only [livePoints, List.length_cons, ih]

/-- The analysis has a row for each block, with a set for each instruction. -/
theorem row_of_analyze {bound : Nat} {l : Liveness} (run : Liveness.analyze bound f = .ok l)
    {b : BlockId} {block : Block} (found : f.blocks[b]? = some block) :
    ∃ row, l.blocks[b]? = some row ∧ row.liveAfter.length = block.instrs.length := by
  obtain ⟨sets, passes, _, rfl⟩ := Liveness.analyze_eq_ok.mp run
  rw [Liveness.ofSets, List.getElem?_mapIdx, found, Option.map_some]
  refine ⟨_, rfl, ?_⟩
  split
  · rw [Liveness.ofBlock_def, List.length_map, length_livePoints]
  · exact List.length_map _

variable {bound : Nat} {l : Liveness}

section Analyzed

variable (numbered : f.Numbered) (run : Liveness.analyze bound f = .ok l)
include run

theorem finds_pairs {b : BlockId} {block : Block} (found : f.blocks[b]? = some block) :
    Finds (l.pairsM b block) (l.pairsM b block) := by
  obtain ⟨row, stored, length⟩ := row_of_analyze run found
  refine .mapM fun p inside => ?_
  have small : p.2 < row.liveAfter.length := by
    rw [length]
    exact (List.getElem?_eq_some_iff.mp (List.mem_zipIdx_iff_getElem?.mp inside)).1
  have live : (l.blocks[b]?.bind (·.liveAfter[p.2]?)) = some row.liveAfter[p.2] := by
    rw [stored, Option.bind_some, List.getElem?_eq_getElem small]
  exact .orElse_bind live (.pure _)

include numbered

theorem finds_onBlocks {β : Type} (live : BlockId → Block → List (Instr × IndexSet) → β)
    (other : Block → β) : Finds (l.onBlocksM f live other) (l.onBlocksM f live other) := by
  refine (finds_numbered numbered).bind (.mapM fun p member => ?_)
  rw [f.numbered_eq] at member
  split
  · exact (finds_pairs run (List.mem_zipIdx_iff_getElem?.mp member)).bind (.pure _)
  · exact .pure _

theorem finds_points : Finds (l.pointsM f) (l.pointsM f) :=
  (finds_onBlocks numbered run _ _).bind (.pure _)

theorem finds_deadCode : Finds (f.deadCodeM l) (f.deadCodeM l) :=
  (finds_onBlocks numbered run _ _).bind (.pure _)

theorem finds_withoutDead : Finds (f.withoutDeadM l) (f.withoutDeadM l) :=
  (finds_onBlocks numbered run _ _).bind (.pure _)

end Analyzed

theorem lifts_eliminateFrom (wf : f.WellFormed) (numbered : f.Numbered) {left rounds : Nat}
    {gone : List Eliminated} :
    (DeadCode.eliminateFromM bound left rounds gone f : Func × Except Halt DeadCode) =
      ((DeadCode.eliminateFrom bound left rounds gone f).1,
        lift (DeadCode.eliminateFrom bound left rounds gone f).2) := by
  induction left generalizing rounds gone f with
  | zero => rfl
  | succ left ih =>
    have analysis : (Liveness.analyzeM bound f : Except Halt Liveness) =
        lift (Liveness.analyze bound f) := lifts_analyze wf numbered bound
    cases run : Liveness.analyze bound f with
    | error e =>
      rw [run] at analysis
      rw [DeadCode.eliminateFrom_of_error run]
      simp only [DeadCode.eliminateFromM, analysis, lift]
    | ok l =>
      have trims := withoutDead_trims wf run
      have dead : (Pass.look (f.deadCodeM l) : Except Halt (List Eliminated)) =
          .ok (f.deadCode l) := finds_deadCode numbered run
      have rest : (Pass.look (f.withoutDeadM l) : Except Halt Func) = .ok (f.withoutDead l) :=
        finds_withoutDead numbered run
      rw [run] at analysis
      rw [DeadCode.eliminateFrom_of_ok run]
      simp only [DeadCode.eliminateFromM, analysis, lift, dead, rest]
      split
      · rfl
      · exact ih (trims.wellFormed wf) (Func.numbered_of_headings numbered trims.headings)

end RegisterColoring.Checked
