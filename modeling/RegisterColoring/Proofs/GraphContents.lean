import RegisterColoring.Proofs.Coexistence
import RegisterColoring.Proofs.Representation

namespace RegisterColoring

namespace Func

/-- Some instruction that can be reached reads or writes the temp. -/
def Named (f : Func) (t : Temp) : Prop :=
  ∃ b k i, Path f.succs entry b ∧ f.instrAt b k = some i ∧ (t ∈ i.uses ∨ i.dest? = some t)

variable {f : Func} {t : Temp}

theorem AddressTaken.named (taken : f.AddressTaken t) : f.Named t := by
  obtain ⟨b, path, k, d, here⟩ := taken
  exact ⟨b, k, _, path, here, Or.inl (Instr.mem_uses_of_addressTaken rfl)⟩

theorem ReadAhead.named {b : BlockId} {k : Nat} (ahead : f.ReadAhead t b k) (edges : f.EdgesInside)
    (reach : b ∈ f.reachable) : f.Named t := by
  obtain ⟨passed, c, m, i, trail, there, used, _⟩ := ahead
  exact ⟨c, m, i, path_of_reachable edges (trail.reachable edges reach), there, Or.inl used⟩

end Func

namespace Interference

/-- Where the function starts, `u` gets a value while `v` is live. -/
def DefinedOnEntry (f : Func) (entryLive : IndexSet) (u v : Temp) : Prop :=
  (u ∈ f.registerParams ∨ u ∈ entryLive) ∧ v ∈ entryLive

/-- Some instruction that can be reached defines `u` while `v` is live behind it, and is not the copy
of `v` to `u`. -/
def DefinedBeside (f : Func) (l : Liveness) (u v : Temp) : Prop :=
  ∃ b k i, Path f.succs Func.entry b ∧ f.instrAt b k = some i ∧ i.dest? = some u ∧
    v ∈ l.liveAfter b k ∧ i ≠ .move u (.temp v)

/-- The order of the copies. -/
def pairBelow (p q : Nat × Nat) : Prop := p.1 < q.1 ∨ p.1 = q.1 ∧ p.2 < q.2

/-- The graph holds what the code of `f` asks for. -/
structure Specified (g : Interference) (f : Func) (l : Liveness) (entryLive : IndexSet) : Prop where
  nodes : ∀ t, t ∈ g.graph.nodes ↔
    t ∈ f.registerParams ∨ f.pinned.contains t = true ∨ f.Named t
  edges : ∀ u v, u ≠ v → (g.interferes u v = true ↔
    (DefinedOnEntry f entryLive u v ∨ DefinedOnEntry f entryLive v u) ∨
      DefinedBeside f l u v ∨ DefinedBeside f l v u)
  symm : ∀ u v, g.interferes u v = g.interferes v u
  irrefl : ∀ u, g.interferes u u = false
  copies : ∀ d s, (d, s) ∈ g.copies ↔
    ∃ b k, Path f.succs Func.entry b ∧ f.instrAt b k = some (.move d (.temp s))
  ascending : g.copies.Pairwise pairBelow

variable {f : Func} {l : Liveness} {g : Interference} {bound : Nat}

theorem named_of_entryLive (wf : f.WellFormed) (run : Liveness.analyze bound f = .ok l) {t : Temp}
    (live : t ∈ l.liveIn Func.entry) : f.Named t := by
  have edges := wf.edgesInside
  have start := Func.entry_mem_reachable wf.nonempty
  obtain ⟨block, found⟩ := wf.entry_block
  rcases (Liveness.mem_liveIn_iff edges run start found).mp live with taken | ahead
  · exact taken.named
  · exact ahead.named edges start

theorem named_of_point (wf : f.WellFormed) (run : Liveness.analyze bound f = .ok l)
    {p : Instr × IndexSet} (point : p ∈ l.points f) {t : Temp} (live : t ∈ p.2) : f.Named t := by
  have edges := wf.edgesInside
  obtain ⟨b, k, path, here, same⟩ := (Liveness.mem_points_iff edges run).mp point
  obtain ⟨block, found, _⟩ := Func.instrAt_eq_some here
  have reach := Func.reachable_of_path edges path found
  rw [same] at live
  rcases (Liveness.mem_liveAfter_iff edges run reach here).mp live with taken | ahead
  · exact taken.named
  · exact ahead.named edges reach

theorem Represents.mem_nodes_iff (graph : g.Represents f l) (wf : f.WellFormed)
    (run : Liveness.analyze bound f = .ok l) (t : Temp) :
    t ∈ g.graph.nodes ↔ t ∈ f.registerParams ∨ f.pinned.contains t = true ∨ f.Named t := by
  have edges := wf.edgesInside
  rw [graph.nodes]
  constructor
  · rintro (param | pin | ⟨d, member, u, live, same | same⟩ | ⟨p, point, named | ⟨d, _, clash⟩⟩)
    · exact Or.inl param
    · exact Or.inr (Or.inl pin)
    · rw [same]
      refine (List.mem_append.mp member).imp id fun other => ?_
      exact Or.inr (named_of_entryLive wf run (IndexSet.mem_toList.mp other))
    · rw [same]
      exact Or.inr (Or.inr (named_of_entryLive wf run (IndexSet.mem_toList.mp live)))
    · obtain ⟨b, k, path, here, _⟩ := (Liveness.mem_points_iff edges run).mp point
      exact Or.inr (Or.inr ⟨b, k, p.1, path, here, (Instr.mem_temps.mp named).symm⟩)
    · exact Or.inr (Or.inr (named_of_point wf run point (mem_clashes.mp clash).1))
  · rintro (param | pin | ⟨b, k, i, path, here, named⟩)
    · exact Or.inl param
    · exact Or.inr (Or.inl pin)
    · have point := (Liveness.mem_points_iff edges run).mpr ⟨b, k, path, here, rfl⟩
      exact Or.inr (Or.inr (Or.inr ⟨_, point, Or.inl (Instr.mem_temps.mpr named.symm)⟩))

theorem defines_iff (edges : f.EdgesInside) (run : Liveness.analyze bound f = .ok l) (u v : Temp) :
    (∃ p ∈ l.points f, Defines p.1 p.2 u v) ↔ DefinedBeside f l u v := by
  constructor
  · rintro ⟨p, point, writes, live, source⟩
    obtain ⟨b, k, path, here, same⟩ := (Liveness.mem_points_iff edges run).mp point
    rw [same] at live
    exact ⟨b, k, p.1, path, here, writes, live, source ∘ (Instr.copySource_eq_iff writes).mpr⟩
  · rintro ⟨b, k, i, path, here, writes, live, other⟩
    have point := (Liveness.mem_points_iff edges run).mpr ⟨b, k, path, here, rfl⟩
    exact ⟨_, point, writes, live, other ∘ (Instr.copySource_eq_iff writes).mp⟩

theorem insertPair_ascending {pairs : List (Nat × Nat)} (ascending : pairs.Pairwise pairBelow)
    (p : Nat × Nat) : (insertPair p pairs).Pairwise pairBelow := by
  induction pairs with
  | nil => exact List.pairwise_singleton _ _
  | cons q rest ih =>
    obtain ⟨above, tail⟩ := List.pairwise_cons.mp ascending
    unfold insertPair
    split
    · exact ascending
    · rename_i different
      split
      · rename_i below
        refine List.pairwise_cons.mpr ⟨fun r member => ?_, ascending⟩
        rcases List.mem_cons.mp member with rfl | later
        · exact below
        · have next := above r later
          unfold pairBelow at next ⊢
          omega
      · rename_i notBelow
        refine List.pairwise_cons.mpr ⟨fun r member => ?_, ih tail⟩
        rcases mem_insertPair.mp member with rfl | later
        · have parts : ¬ (r.1 = q.1 ∧ r.2 = q.2) := fun same => different (Prod.ext same.1 same.2)
          unfold pairBelow
          omega
        · exact above r later

theorem foldl_insertPair_ascending (pairs : List (Nat × Nat)) {acc : List (Nat × Nat)}
    (ascending : acc.Pairwise pairBelow) :
    (pairs.foldl (fun acc p => insertPair p acc) acc).Pairwise pairBelow := by
  induction pairs generalizing acc with
  | nil => exact ascending
  | cons p rest ih => exact ih (insertPair_ascending ascending p)

theorem mem_foldl_insertPair {p : Nat × Nat} {pairs acc : List (Nat × Nat)} :
    p ∈ pairs.foldl (fun acc p => insertPair p acc) acc ↔ p ∈ pairs ∨ p ∈ acc := by
  induction pairs generalizing acc with
  | nil => simp
  | cons q rest ih =>
    rw [List.foldl_cons, ih, mem_insertPair, List.mem_cons, or_left_comm, or_assoc]

theorem mem_copies (edges : f.EdgesInside) (run : Liveness.analyze bound f = .ok l)
    (built : build f l = .ok g) {d s : Temp} : (d, s) ∈ g.copies ↔
      ∃ b k, Path f.succs Func.entry b ∧ f.instrAt b k = some (.move d (.temp s)) := by
  rw [build_def] at built
  obtain ⟨_, _, same⟩ := map_eq_ok.mp built
  rw [← same]
  simp only [copiesOf, mem_foldl_insertPair, List.not_mem_nil, or_false, List.mem_filterMap,
    List.mem_map]
  constructor
  · rintro ⟨_, ⟨p, point, rfl⟩, copies⟩
    obtain ⟨b, k, path, here, _⟩ := (Liveness.mem_points_iff edges run).mp point
    rw [Instr.copy?_eq_some.mp copies] at here
    exact ⟨b, k, path, here⟩
  · rintro ⟨b, k, path, here⟩
    exact ⟨_, ⟨_, (Liveness.mem_points_iff edges run).mpr ⟨b, k, path, here, rfl⟩, rfl⟩, rfl⟩

theorem copies_ascending (built : build f l = .ok g) : g.copies.Pairwise pairBelow := by
  rw [build_def] at built
  obtain ⟨_, _, same⟩ := map_eq_ok.mp built
  rw [← same]
  exact foldl_insertPair_ascending _ .nil

/-- The graph of every function that the passes make of a written one holds exactly what its code asks
for. -/
theorem build_specified (derived : f.Derived) (run : Liveness.analyze bound f = .ok l) :
    ∃ entryLive g, l.entryLiveIn = .ok entryLive ∧ build f l = .ok g ∧
      g.Specified f l entryLive := by
  have wf := derived.wellFormed
  have edges := wf.edgesInside
  obtain ⟨g, built, graph⟩ := build_represents wf run
  refine ⟨_, g, Liveness.entryLiveIn_eq wf.nonempty run, built, graph.mem_nodes_iff wf run,
    fun u v different => ?_, graph.interferes_comm, fun u => Graph.not_hasEdge_self graph.valid u,
    fun d s => mem_copies edges run built, copies_ascending built⟩
  rw [graph.edges, and_iff_right different, Meets, Meets, defines_iff edges run,
    defines_iff edges run]
  exact or_or_or_comm

end Interference

/-- One temp is copied to another and then written while that is live. A second copy cannot be
reached. -/
def recopySource : Source.Func :=
  ⟨"recopy", [⟨0, none⟩, ⟨4, some "rsi"⟩],
    [.statement (.assign 1 (.move (.temp 0))),
      .statement (.branch (.test (.temp 0)) "again" "done"),
      .label "again",
      .statement (.assign 0 (.move (.const 2))),
      .statement (.goto "done"),
      .statement (.assign 3 (.move (.temp 1))),
      .label "done",
      .statement (.assign 2 (.binary .add (.temp 0) (.temp 1))),
      .statement (.ret (some (.temp 2)))]⟩

/-- The copy does not join the temps, the later definition does. -/
theorem recopySource_specified : ∃ f h l entryLive g,
    Func.ofSource recopySource false = .ok f ∧ Operation.applyAll f [.spill [2]] = .ok h ∧
    Liveness.analyze 9 h = .ok l ∧ l.entryLiveIn = .ok entryLive ∧
    Interference.build h l = .ok g ∧ g.Specified h l entryLive ∧ g.temps.toList = [0, 1, 4, 5, 6] ∧
    g.copies = [(1, 0)] ∧ g.interferes 0 1 = true := by
  have result : (Func.ofSource recopySource false).bind (fun f =>
      (Operation.applyAll f [.spill [2]]).bind fun h => (Liveness.analyze 9 h).bind fun l =>
        (Interference.build h l).map fun g =>
          (g.temps.toList, g.copies, g.interferes 0 1)) =
      .ok ([0, 1, 4, 5, 6], [(1, 0)], true) := by decide +kernel
  obtain ⟨f, resolved, rest⟩ := bind_eq_ok.mp result
  obtain ⟨h, spilled, rest⟩ := bind_eq_ok.mp rest
  obtain ⟨l, run, rest⟩ := bind_eq_ok.mp rest
  obtain ⟨g, built, values⟩ := map_eq_ok.mp rest
  simp only [Prod.mk.injEq] at values
  rcases Operation.applyAll_derived (.source resolved) [.spill [2]] with ⟨same, again, derived⟩ | failed
  · cases spilled.symm.trans again
    obtain ⟨entryLive, other, entered, rebuilt, specified⟩ :=
      Interference.build_specified derived run
    cases built.symm.trans rebuilt
    exact ⟨f, h, l, entryLive, g, resolved, spilled, run, entered, built, specified, values⟩
  · cases spilled.symm.trans failed

end RegisterColoring
