import RegisterColoring.Proofs.CompactGraphs

namespace RegisterColoring

/-- The passes find the same in `f` and in `g`, which is `f` without `n` blocks that cannot be
reached. -/
structure Func.AnalyzedAlike (f g : Func) (n : Nat) : Prop where
  /-- The same passes, temps with an address and live sets. -/
  liveness : ∀ bound, Alike (Liveness.Agree f (renumber f.reachable)) (Liveness.analyze bound f)
    (Liveness.analyze bound g)
  /-- The same rounds and eliminated instructions, and the same function without such blocks. -/
  deadCode : ∀ bound f' g' x y, DeadCode.eliminate bound f = (f', x) →
    DeadCode.eliminate bound g = (g', y) →
    f'.pruneUnreachable = .ok (n, g') ∧ Alike (DeadCode.Agree f (renumber f.reachable)) x y
  loopDepths : ∀ b ∈ f.reachable, ∃ depth, f.loopDepths[b]? = some depth ∧
    g.loopDepths[renumber f.reachable b]? = some depth
  /-- The same graph, costs of its nodes and coloring. -/
  coloring : ∀ bound l m, Liveness.analyze bound f = .ok l → Liveness.analyze bound g = .ok m →
    ∃ graph, Interference.build f l = .ok graph ∧ Interference.build g m = .ok graph ∧
      (∀ t ∈ graph.graph.nodes,
        ∃ cost, f.spillCosts.get? t = some cost ∧ g.spillCosts.get? t = some cost) ∧
      ∀ colors, graph.color (fun t => g.spillCosts.getD t (.finite 0)) colors g =
        graph.color (fun t => f.spillCosts.getD t (.finite 0)) colors f

/-- Blocks that cannot be reached have no influence on what the passes find. -/
theorem Func.unreachable_irrelevant {src : Source.Func} {automatic : Bool} {f : Func}
    (resolved : Func.ofSource src automatic = .ok f) :
    ∃ n g, f.pruneUnreachable = .ok (n, g) ∧ f.AnalyzedAlike g n := by
  have wf := Func.ofSource_wellFormed resolved
  obtain ⟨g, pruned, compacts⟩ := pruneUnreachable_compacts wf
  refine ⟨_, g, pruned, compacts.analyze, ?_, fun b reach => ?_, ?_⟩
  · intro bound f' g' x y run imageRun
    obtain ⟨after, reachable, length, alike⟩ := compacts.eliminateFrom bound bound 0 [] run imageRun
    rw [← reachable] at after
    refine ⟨?_, alike⟩
    rw [after.pruneUnreachable_eq, reachable, length]
  · have bound : b < f.loopDepths.length := by
      rw [loopDepths_eq_map wf.edgesInside, List.length_map, List.length_range]
      exact reachable_lt wf.edgesInside reach
    have deep := List.getElem?_eq_getElem bound
    exact ⟨_, deep, (compacts.loopDepths_eq reach).trans deep⟩
  · intro bound l m first second
    have alike := compacts.analyze bound
    rw [first, second] at alike
    cases alike with
    | ok agree =>
      obtain ⟨graph, built, _⟩ := Interference.build_represents wf first
      have costs : ∀ t ∈ graph.graph.nodes, ∃ cost, f.spillCosts.get? t = some cost ∧
          g.spillCosts.get? t = some cost :=
        fun t node => compacts.spillCosts_eq first second agree built node
      refine ⟨graph, built, (compacts.build_eq first second agree).trans built, costs, fun colors => ?_⟩
      refine Interference.color_congr (fun t node => ?_) colors compacts.name_eq
        (by rw [compacts.prunes.fields])
      obtain ⟨cost, old, new⟩ := costs t node
      rw [IndexMap.getD, IndexMap.getD, old, new]

/-- A loop into which a block leads that cannot be reached, and which takes an address there. -/
def sideEntrySource : Source.Func :=
  ⟨"f", [⟨0, none⟩],
    [.statement (.assign 1 (.move (.temp 0))), .statement (.goto "head"), .label "side",
      .statement (.assign 9 (.addrOf 1)), .statement (.goto "body"), .label "head",
      .statement (.branch (.compare .less (.temp 1) (.const 10)) "body" "done"), .label "body",
      .statement (.assign 2 (.binary .add (.temp 1) (.const 1))),
      .statement (.assign 3 (.move (.const 7))), .statement (.assign 1 (.move (.temp 2))),
      .statement (.goto "head"), .label "done", .statement (.ret (some (.temp 1)))]⟩

theorem sideEntrySource_alike :
    ∃ f g, Func.ofSource sideEntrySource false = .ok f ∧ f.pruneUnreachable = .ok (1, g) ∧
      f.AnalyzedAlike g 1 := by
  have removed : (Func.ofSource sideEntrySource false).bind
      (fun f => f.pruneUnreachable.map (·.1)) = .ok 1 := by decide +kernel
  obtain ⟨f, resolved, counted⟩ := bind_eq_ok.mp removed
  obtain ⟨n, g, pruned, alike⟩ := Func.unreachable_irrelevant resolved
  rw [pruned] at counted
  cases counted
  exact ⟨f, g, resolved, pruned, alike⟩

end RegisterColoring
