import RegisterColoring.Proofs.InterferenceGraph
import RegisterColoring.Proofs.Passes
import RegisterColoring.Proofs.Trails

namespace RegisterColoring

/-- Every trail from the start of the function to the point before instruction `k` of block `b`
writes `u` or `v`, and the last time by a copy of one to the other. -/
def Func.LastCopied (f : Func) (u v : Temp) (b : BlockId) (k : Nat) : Prop :=
  ∀ passed, f.Trail entry 0 passed b k → ∃ before i after, passed = before ++ i :: after ∧
    (i = .move u (.temp v) ∨ i = .move v (.temp u)) ∧
      ∀ j ∈ after, j.dest? ≠ some u ∧ j.dest? ≠ some v

namespace Interference

variable {f : Func} {l : Liveness} {g : Interference} {bound : Nat} {u v : Temp}

/-- What writes a temp while another is live joins them, or copies the other. -/
theorem Represents.copy_of_apart (graph : g.Represents f l) (edges : f.EdgesInside)
    (run : Liveness.analyze bound f = .ok l) {b : BlockId} {k : Nat} {i : Instr}
    (path : Path f.succs Func.entry b) (here : f.instrAt b k = some i) (writes : i.dest? = some u)
    (live : v ∈ l.liveAfter b k) (different : u ≠ v) (apart : g.interferes u v = false) :
    i = .move u (.temp v) := by
  have point := (Liveness.mem_points_iff edges run).mpr ⟨b, k, path, here, rfl⟩
  refine (Instr.copySource_eq_iff writes).mp ?_
  by_contra other
  have meets : Meets f l u v := Or.inr ⟨_, point, writes, live, other⟩
  have joined := (graph.edges u v).mpr ⟨different, Or.inl meets⟩
  exact Bool.false_ne_true (apart.symm.trans joined)

/-- What is live on entry is joined. -/
theorem Represents.joined_on_entry (graph : g.Represents f l) (first : u ∈ l.liveIn Func.entry)
    (second : v ∈ l.liveIn Func.entry) (different : u ≠ v) : g.interferes u v = true :=
  (graph.edges u v).mpr ⟨different, Or.inl (Or.inl ⟨Or.inr first, second⟩)⟩

/-- Two temps that are live together and are not joined are copies, on every trail. -/
theorem Represents.lastCopied (graph : g.Represents f l) (wf : f.WellFormed)
    (run : Liveness.analyze bound f = .ok l) {b : BlockId} {k : Nat} (different : u ≠ v)
    (first : f.AddressTaken u ∨ f.ReadAhead u b k) (second : f.AddressTaken v ∨ f.ReadAhead v b k)
    (apart : g.interferes u v = false) : f.LastCopied u v b k := by
  intro passed trail
  have edges := wf.edgesInside
  have start := Func.entry_mem_reachable wf.nonempty
  rcases none_or_last (fun i => i.dest? = some u ∨ i.dest? = some v) passed with
    none | ⟨before, i, after, rfl, writes, later⟩
  -- Nothing on the trail writes them, so both are live where the function starts.
  · obtain ⟨block, found⟩ := wf.entry_block
    have liveU : u ∈ l.liveIn Func.entry := by
      refine (Liveness.mem_liveIn_iff edges run start found).mpr (first.imp_right fun ahead => ?_)
      exact ahead.back trail fun j member same => none j member (Or.inl same)
    have liveV : v ∈ l.liveIn Func.entry := by
      refine (Liveness.mem_liveIn_iff edges run start found).mpr (second.imp_right fun ahead => ?_)
      exact ahead.back trail fun j member same => none j member (Or.inr same)
    exact absurd (apart.symm.trans (graph.joined_on_entry liveU liveV different)) Bool.false_ne_true
  -- Both are live behind the last instruction that writes one of them.
  · obtain ⟨c, m, front, here, back⟩ := trail.cut
    have reach := front.reachable edges start
    have path := Func.path_of_reachable edges reach
    have keepsU : ∀ j ∈ after, j.dest? ≠ some u := fun j member same => later j member (Or.inl same)
    have keepsV : ∀ j ∈ after, j.dest? ≠ some v := fun j member same => later j member (Or.inr same)
    have liveU : u ∈ l.liveAfter c m := (Liveness.mem_liveAfter_iff edges run reach here).mpr
      (first.imp_right fun ahead => ahead.back back keepsU)
    have liveV : v ∈ l.liveAfter c m := (Liveness.mem_liveAfter_iff edges run reach here).mpr
      (second.imp_right fun ahead => ahead.back back keepsV)
    refine ⟨before, i, after, rfl, ?_, fun j member => ⟨keepsU j member, keepsV j member⟩⟩
    rcases writes with writesU | writesV
    · exact Or.inl (graph.copy_of_apart edges run path here writesU liveV different apart)
    · rw [graph.interferes_comm] at apart
      exact Or.inr (graph.copy_of_apart edges run path here writesV liveU different.symm apart)

/-- Temps that are live together interfere unless they are copies of each other, in every function
that the passes make of a written one. -/
theorem joined_or_lastCopied (derived : f.Derived) (run : Liveness.analyze bound f = .ok l) :
    ∃ g, build f l = .ok g ∧ ∀ b, Path f.succs Func.entry b → ∀ k i, f.instrAt b k = some i →
      ∀ u v, u ≠ v → u ∈ l.liveAfter b k → v ∈ l.liveAfter b k →
        g.interferes u v = true ∨ f.LastCopied u v b (k + 1) := by
  have wf := derived.wellFormed
  have edges := wf.edgesInside
  obtain ⟨g, built, graph⟩ := build_represents wf run
  refine ⟨g, built, fun b path k i here u v different liveU liveV => ?_⟩
  obtain ⟨block, found, _, _⟩ := Func.instrAt_eq_some here
  have reach := Func.reachable_of_path edges path found
  rw [Liveness.mem_liveAfter_iff edges run reach here] at liveU liveV
  cases apart : g.interferes u v with
  | true => exact Or.inl rfl
  | false => exact Or.inr (graph.lastCopied wf run different liveU liveV apart)

end Interference

/-- A copy that is read together with its source, and a product that nobody reads. -/
def copySource : Source.Func :=
  ⟨"copy", [⟨0, none⟩, ⟨1, none⟩],
    [.statement (.assign 2 (.move (.temp 0))),
      .statement (.assign 4 (.binary .mul (.temp 0) (.temp 1))),
      .statement (.assign 3 (.binary .add (.temp 2) (.temp 0))),
      .statement (.assign 3 (.binary .add (.temp 3) (.temp 1))),
      .statement (.ret (some (.temp 3)))]⟩

/-- The copy does not interfere with its source, on the only trail there is. -/
theorem copySource_lastCopied : ∃ f g outcome l graph, Func.ofSource copySource false = .ok f ∧
    DeadCode.eliminate 3 f = (g, outcome) ∧ g.instrs.length = 4 ∧
    Liveness.analyze 3 g = .ok l ∧ (l.liveAfter Func.entry 0).toList = [0, 1, 2] ∧
    Interference.build g l = .ok graph ∧ graph.interferes 1 2 = true ∧
    graph.interferes 0 2 = false ∧ g.LastCopied 0 2 Func.entry 1 := by
  have result : (Func.ofSource copySource false).bind (fun f =>
      (Liveness.analyze 3 (DeadCode.eliminate 3 f).1).bind fun l =>
        (Interference.build (DeadCode.eliminate 3 f).1 l).map fun graph =>
          ((DeadCode.eliminate 3 f).1.instrs.length, (DeadCode.eliminate 3 f).1.instrAt 0 0,
            (l.liveAfter Func.entry 0).toList, graph.interferes 1 2, graph.interferes 0 2)) =
      .ok (4, some (.move 2 (.temp 0)), [0, 1, 2], true, false) := by decide +kernel
  obtain ⟨f, source, rest⟩ := bind_eq_ok.mp result
  obtain ⟨l, run, rest⟩ := bind_eq_ok.mp rest
  obtain ⟨graph, built, values⟩ := map_eq_ok.mp rest
  simp only [Prod.mk.injEq] at values
  obtain ⟨length, first, live, joined, apart⟩ := values
  have derived : (DeadCode.eliminate 3 f).1.Derived := .eliminate (.source source) rfl
  obtain ⟨same, again, all⟩ := Interference.joined_or_lastCopied derived run
  cases Except.ok.inj (built.symm.trans again)
  have liveHere : ∀ t ∈ [0, 1, 2], t ∈ l.liveAfter Func.entry 0 := fun t member => by
    rw [← live] at member
    exact IndexSet.mem_toList.mp member
  refine ⟨f, _, _, l, graph, source, rfl, length, run, live, built, joined, apart, ?_⟩
  have both := all Func.entry .refl 0 _ first 0 2 (by decide) (liveHere 0 (by decide))
    (liveHere 2 (by decide))
  exact both.resolve_left (by rw [apart]; exact Bool.false_ne_true)

end RegisterColoring
