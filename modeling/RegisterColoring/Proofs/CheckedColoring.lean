import RegisterColoring.Proofs.CheckedGraphs
import RegisterColoring.Proofs.Pushing

namespace RegisterColoring.Checked

/-- A temp that remains has an entry in the table of degrees. -/
theorem finds_entries {g : Interference} {remaining : IndexSet} {degrees : IndexMap Nat}
    (counted : Coloring.Counted g remaining degrees) :
    Finds (Coloring.entriesM remaining degrees) (Coloring.entriesM remaining degrees) :=
  .mapM fun t member =>
    .orElse_bind (counted.counts t (counted.nodes t member).1) (.pure _)

section Valid

variable {g : Interference} (valid : g.graph.Valid)
include valid

theorem lifts_pushAll (cost : Temp → Cost) (colors : Nat) (func : String) {steps : Nat}
    {remaining : IndexSet} {degrees : IndexMap Nat}
    (counted : Coloring.Counted g remaining degrees) :
    Lifts (Coloring.pushAllM g cost colors func steps remaining degrees)
      (Coloring.pushAllM g cost colors func steps remaining degrees) := by
  induction steps generalizing remaining degrees with
  | zero => exact .ok _
  | succ steps ih =>
    unfold Coloring.pushAllM
    split
    · exact .ok _
    · rename_i more
      have some : remaining.toList ≠ [] := fun empty => more (List.isEmpty_iff.mpr empty)
      obtain ⟨event, chosen, member, _⟩ := Coloring.choose_withDegrees g cost colors some
      rw [← counted.entries_eq] at chosen
      have next : Coloring.choose cost colors (Id.run (Coloring.entriesM remaining degrees)) =
        .some event := chosen
      refine .look_bind (finds_entries counted) ?_
      simp only [next]
      exact .look_bind (finds_neighbors valid event.temp) ((ih (counted.push valid member)).map _)

theorem lifts_popAll (colors : Nat) (f : Func) (temps : List Temp) (done : Coloring) :
    Lifts (Coloring.popAllM g colors f temps done) (Coloring.popAllM g colors f temps done) := by
  induction temps generalizing done with
  | nil => exact .ok _
  | cons t rest ih =>
    unfold Coloring.popAllM
    cases found : g.graph.id? t with
    | none => exact .lift _
    | some id =>
      refine .look_bind ((finds_neighborsAt valid found).bind (.pure _)) ?_
      split
      · exact ih _
      · split
        · exact .look_bind (finds_dump valid f.name) (.lift _)
        · exact ih _

theorem lifts_color (cost : Temp → Cost) (colors : Nat) (f : Func) :
    Lifts (g.colorM cost colors f) (g.colorM cost colors f) := by
  have degrees : Finds g.degreesM g.degreesM :=
    .bind (.mapM fun t _ => (finds_degree valid t).bind (.pure _)) (.pure _)
  have pushes : Lifts (g.pushesM cost colors f.name) (g.pushesM cost colors f.name) :=
    .look_bind degrees (lifts_pushAll valid cost colors f.name (.start valid))
  exact pushes.bind fun events _ => lifts_popAll valid colors f _ _

end Valid

theorem finds_weightedBlocks {f : Func} (wf : f.WellFormed) (numbered : f.Numbered) :
    Finds f.weightedBlocksM f.weightedBlocksM := by
  refine (finds_loopDepths wf).bind ((finds_reachable wf).bind ((finds_numbered numbered).bind
    (.mapM fun p member => .bind (.entry ?_ 0) (.pure _))))
  obtain ⟨inside, _⟩ := List.mem_filter.mp member
  rw [f.numbered_eq] at inside
  have length : f.loopDepths.length = f.blocks.length := by
    rw [Func.loopDepths_eq_map wf.edgesInside, List.length_map, List.length_range]
  have bound := (List.getElem?_eq_some_iff.mp (List.mem_zipIdx_iff_getElem?.mp inside)).1
  exact Nat.lt_of_lt_of_eq bound length.symm

theorem finds_spillCosts {f : Func} (wf : f.WellFormed) (numbered : f.Numbered) :
    Finds f.spillCostsM f.spillCostsM :=
  (finds_weightedBlocks wf numbered).bind (.pure _)

end RegisterColoring.Checked
