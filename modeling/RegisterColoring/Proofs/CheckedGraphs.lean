import RegisterColoring.Proofs.CheckedLiveness
import RegisterColoring.Proofs.InterferenceGraph

namespace RegisterColoring.Checked

/-- Both ends of an edge are nodes when they are joined. -/
theorem finds_addEdge {g : Graph Temp} (valid : g.Valid) (x y : Temp) :
    Finds (g.addEdgeM x y) (g.addEdgeM x y) := by
  have both := (Graph.addNode_extends valid x).trans
    (Graph.addNode_extends (Graph.valid_addNode valid x) y)
  obtain ⟨i, xId, atX⟩ :=
    Graph.exists_number both.valid ((both.nodes x).mpr (Or.inr (Or.inl rfl)))
  obtain ⟨j, yId, atY⟩ :=
    Graph.exists_number both.valid ((both.nodes y).mpr (Or.inr (Or.inr rfl)))
  have iBound := (List.getElem?_eq_some_iff.mp atX).1
  have jBound := (List.getElem?_eq_some_iff.mp atY).1
  rw [← both.valid.length] at iBound jBound
  unfold Graph.addEdgeM
  simp only [xId, yId]
  split
  · exact .pure _
  · exact .bind (.entry iBound ∅) (.bind (.entry jBound ∅) (.pure _))

theorem finds_addEdges {g : Graph Temp} (valid : g.Valid) (d : Temp) (others : List Temp) :
    Finds (Interference.addEdgesM g d others) (Interference.addEdgesM g d others) ∧
      (Interference.addEdgesM (m := Id) g d others).run.Valid :=
  Finds.foldlM (P := Graph.Valid) (fun t _ _ valid =>
    ⟨finds_addEdge valid d t, (Graph.addEdge_extends valid d t).valid⟩) valid

theorem finds_addInstr {g : Graph Temp} (valid : g.Valid) (i : Instr) (live : IndexSet) :
    Finds (Interference.addInstrM g i live) (Interference.addInstrM g i live) ∧
      (Interference.addInstrM (m := Id) g i live).run.Valid := by
  refine ⟨?_, (Interference.addInstr_extends valid i live).valid⟩
  have read := Graph.Extends.foldl Graph.addNode
    (fun g valid x => Graph.addNode_extends valid x) valid i.uses
  unfold Interference.addInstrM
  cases i.dest? with
  | none => exact .pure _
  | some d => exact (finds_addEdges (Graph.valid_addNode read.valid d) d _).1

theorem finds_addEntry {g : Graph Temp} (valid : g.Valid) (params : List Temp) (live : IndexSet) :
    Finds (Interference.addEntryM g params live) (Interference.addEntryM g params live) ∧
      (Interference.addEntryM (m := Id) g params live).run.Valid :=
  Finds.foldlM (P := Graph.Valid) (fun d _ _ valid => finds_addEdges valid d live.toList) valid

theorem lifts_build {f : Func} {bound : Nat} {l : Liveness} (numbered : f.Numbered)
    (run : Liveness.analyze bound f = .ok l) :
    Lifts (Interference.buildM f l) (Interference.buildM f l) := by
  refine (Lifts.lift _).bind fun live _ => ?_
  obtain ⟨entered, valid⟩ :=
    finds_addEntry (Interference.named_extends f).valid f.registerParams live
  refine .look_bind entered (.look_bind (finds_points numbered run) ((Lifts.look ?_).map _))
  exact (Finds.foldlM (P := Graph.Valid) (fun p _ _ valid => finds_addInstr valid p.1 p.2) valid).1

section Graphs

variable {g : Interference} (valid : g.graph.Valid)
include valid

theorem stored_of_id {t : Temp} {id : Nat} (found : g.graph.id? t = some id) :
    id < g.graph.adjacent.length := by
  rw [valid.length]
  exact (List.getElem?_eq_some_iff.mp ((Graph.id?_eq_some valid).mp found)).1

/-- Only numbers of nodes are stored as neighbors. -/
theorem finds_neighborsAt {t : Temp} {id : Nat} (found : g.graph.id? t = some id) :
    Finds (g.graph.neighborsAtM id) (g.graph.neighborsAtM id) := by
  have stored := List.getElem?_eq_getElem (stored_of_id valid found)
  refine .orElse_bind stored (.bind (.mapM fun n member => ?_) (.pure _))
  have inside : n < g.graph.nodes.length := by
    refine valid.inside id n ?_
    rw [Graph.Joined, Graph.neighborIds?, stored, Option.getD_some]
    exact member
  exact .orElse (congrArg (Option.map some) (List.getElem?_eq_getElem inside)) none

theorem finds_neighbors (t : Temp) : Finds (g.neighborsM t) (g.neighborsM t) := by
  unfold Interference.neighborsM
  cases found : g.graph.id? t with
  | none => exact .pure _
  | some id => exact (finds_neighborsAt valid found).bind (.pure _)

theorem finds_degree (t : Temp) : Finds (g.degreeM t) (g.degreeM t) := by
  unfold Interference.degreeM
  cases found : g.graph.id? t with
  | none => exact .pure _
  | some id =>
    have stored := List.getElem?_eq_getElem (stored_of_id valid found)
    exact .orElse (congrArg (Option.map IndexSet.size) stored) 0

theorem finds_dump (func : String) : Finds (g.dumpM func) (g.dumpM func) :=
  .bind (.mapM fun t _ => (finds_neighbors valid t).bind (.pure _)) (.pure _)

theorem finds_sharedPin : Finds g.sharedPinM g.sharedPinM :=
  .findSomeM? fun entry _ => (finds_neighbors valid entry.1).bind (.pure _)

theorem lifts_checkPins (colors : Nat) (func : String) :
    Lifts (g.checkPinsM colors func) (g.checkPinsM colors func) := by
  unfold Interference.checkPinsM
  cases g.pinBeyond? colors with
  | some pin => exact .lift _
  | none =>
    refine .look_bind (finds_sharedPin valid) ?_
    split
    · exact .look_bind (finds_dump valid func) (.lift _)
    · exact .ok _

end Graphs

end RegisterColoring.Checked
