import RegisterColoring.Interference
import RegisterColoring.Proofs.Graphs
import RegisterColoring.Proofs.LiveRanges

namespace RegisterColoring

/-- A temp is live only if some instruction reads it. -/
theorem Func.LiveAt.used {f : Func} {t : Temp} {b : BlockId} {rest : List Instr}
    (live : f.LiveAt t b rest) (inside : ∀ i ∈ rest, i ∈ f.instrs) : ∃ i ∈ f.instrs, t ∈ i.uses := by
  induction live with
  | @read b i rest used => exact ⟨i, inside i List.mem_cons_self, used⟩
  | pass _ _ ih => exact ih fun i member => inside i (List.mem_cons_of_mem _ member)
  | edge _ found _ ih => exact ih fun i member => Func.mem_instrs.mpr ⟨_, _, found, member⟩

namespace Interference

variable {f : Func} {l : Liveness}

theorem mem_clashes {i : Instr} {d t : Temp} {live : IndexSet} :
    t ∈ clashes i d live ↔ t ∈ live ∧ t ≠ d ∧ some t ≠ i.copy?.map (·.2) := by
  unfold clashes
  rw [List.mem_filter, IndexSet.mem_toList, decide_eq_true_eq]

/-- What an instruction joins: its destination with what is live behind it. -/
def Defines (i : Instr) (live : IndexSet) (x y : Temp) : Prop :=
  i.dest? = some x ∧ y ∈ live ∧ some y ≠ i.copy?.map (·.2)

theorem addInstr_extends {g : Graph Temp} (valid : g.Valid) (i : Instr) (live : IndexSet) :
    g.Extends (addInstr g i live)
      (fun x => x ∈ i.temps ∨ ∃ d, i.dest? = some d ∧ x ∈ clashes i d live) (Defines i live) := by
  have read := Graph.Extends.foldl Graph.addNode (fun g valid x => Graph.addNode_extends valid x)
    valid i.uses
  cases writes : i.dest? with
  | none =>
    rw [addInstr_of_none live writes]
    refine ⟨read.valid, fun x => ?_, fun x y => ?_⟩
    · rw [read.nodes, Instr.mem_temps]
      simp [writes]
    · rw [read.edges]
      simp [Defines, writes]
  | some d =>
    rw [addInstr_of_some live writes]
    have defined := read.trans (Graph.addNode_extends read.valid d)
    have joined := defined.trans (Graph.Extends.foldl (fun h t => Graph.addEdge h d t)
      (fun g valid t => Graph.addEdge_extends valid d t) defined.valid (clashes i d live))
    refine ⟨joined.valid, fun x => ?_, fun x y => ?_⟩
    · rw [joined.nodes, Instr.mem_temps, writes]
      refine or_congr_right ?_
      constructor
      · rintro ((⟨u, used, rfl⟩ | rfl) | ⟨t, clash, rfl | rfl⟩)
        · exact Or.inl (Or.inr used)
        · exact Or.inl (Or.inl rfl)
        · exact Or.inl (Or.inl rfl)
        · exact Or.inr ⟨d, rfl, clash⟩
      · rintro ((same | used) | ⟨e, same, clash⟩)
        · cases same
          exact Or.inl (Or.inr rfl)
        · exact Or.inl (Or.inl ⟨x, used, rfl⟩)
        · cases same
          exact Or.inr ⟨x, clash, Or.inr rfl⟩
    · rw [joined.edges]
      refine or_congr_right (and_congr_right fun different => ?_)
      have one : ∀ {x y : Temp}, x ≠ y →
          ((((∃ u ∈ i.uses, False) ∨ False) ∨ ∃ t ∈ clashes i d live, x = d ∧ y = t) ↔
            Defines i live x y) := by
        intro x y different
        unfold Defines
        rw [writes]
        constructor
        · rintro ((⟨_, _, impossible⟩ | impossible) | ⟨t, clash, rfl, rfl⟩)
          · exact impossible.elim
          · exact impossible.elim
          · obtain ⟨member, _, source⟩ := mem_clashes.mp clash
            exact ⟨rfl, member, source⟩
        · rintro ⟨same, member, source⟩
          cases same
          exact Or.inr ⟨y, mem_clashes.mpr ⟨member, different.symm, source⟩, rfl, rfl⟩
      exact or_congr (one different) (one different.symm)

/-- What is defined on entry: the parameters in registers and all that is live there. -/
theorem addEntry_extends {g : Graph Temp} (valid : g.Valid) (params : List Temp) (live : IndexSet) :
    g.Extends (addEntry g params live)
      (fun x => ∃ d ∈ params ++ live.toList, ∃ t ∈ live.toList, x = d ∨ x = t)
      fun x y => x ∈ params ++ live.toList ∧ y ∈ live := by
  rw [addEntry_def]
  refine (Graph.Extends.foldl (fun h d => live.toList.foldl (fun h t => h.addEdge d t) h)
    (fun g valid d => Graph.Extends.foldl (fun h t => Graph.addEdge h d t)
      (fun g valid t => Graph.addEdge_extends valid d t) valid live.toList) valid
      (params ++ live.toList)).congr (fun x => Iff.rfl) fun x y => ?_
  constructor
  · rintro ⟨d, member, t, inside, rfl, rfl⟩
    exact ⟨member, inside⟩
  · rintro ⟨member, inside⟩
    exact ⟨x, member, y, inside, rfl, rfl⟩

theorem named_extends (f : Func) : Graph.empty.Extends (named f)
    (fun x => x ∈ f.registerParams ∨ x ∈ f.pinned.keys.toList) fun _ _ => False := by
  have params := Graph.Extends.foldl Graph.addNode
    (fun g valid x => Graph.addNode_extends valid x) Graph.valid_empty f.registerParams
  exact (params.trans (Graph.Extends.foldl Graph.addNode
    (fun g valid x => Graph.addNode_extends valid x) params.valid f.pinned.keys.toList)).congr
      (by simp) (by simp)

/-- One temp is defined where the other is live. -/
def Meets (f : Func) (l : Liveness) (x y : Temp) : Prop :=
  (x ∈ f.registerParams ∨ x ∈ l.liveIn Func.entry) ∧ y ∈ l.liveIn Func.entry ∨
    ∃ p ∈ l.points f, Defines p.1 p.2 x y

/-- `g` is the interference graph of `f` with liveness `l`. -/
structure Represents (g : Interference) (f : Func) (l : Liveness) : Prop where
  pinned : g.pinned = f.pinned
  valid : g.graph.Valid
  edges : ∀ x y, g.interferes x y = true ↔ x ≠ y ∧ (Meets f l x y ∨ Meets f l y x)
  nodes : ∀ x, x ∈ g.graph.nodes ↔ x ∈ f.registerParams ∨ f.pinned.contains x = true ∨
    (∃ d ∈ f.registerParams ++ (l.liveIn Func.entry).toList,
      ∃ t ∈ (l.liveIn Func.entry).toList, x = d ∨ x = t) ∨
    ∃ p ∈ l.points f, x ∈ p.1.temps ∨ ∃ d, p.1.dest? = some d ∧ x ∈ clashes p.1 d p.2

theorem Represents.interferes_comm {g : Interference} (graph : g.Represents f l) (x y : Temp) :
    g.interferes x y = g.interferes y x := by
  rw [Bool.eq_iff_iff]
  exact ⟨Graph.hasEdge_symm graph.valid, Graph.hasEdge_symm graph.valid⟩

/-- What is built is the graph of the given sets, whether or not they are those of an analysis. -/
theorem represents_of_build {g : Interference} (built : build f l = .ok g) : g.Represents f l := by
  rw [build_def] at built
  obtain ⟨entryLive, entry, same⟩ := map_eq_ok.mp built
  have atEntry : entryLive = l.liveIn Func.entry := by
    unfold Liveness.entryLiveIn at entry
    split at entry
    · cases entry
    · rename_i block rest stored
      cases entry
      simp [Liveness.liveIn, Func.entry, stored]
  subst atEntry
  have named := named_extends f
  have entered := named.trans (addEntry_extends named.valid f.registerParams (l.liveIn Func.entry))
  have all := entered.trans
    (Graph.Extends.foldl (fun g (p : Instr × IndexSet) => addInstr g p.1 p.2)
      (fun g valid p => addInstr_extends valid p.1 p.2) entered.valid (l.points f))
  rw [← same]
  refine ⟨rfl, all.valid, fun x y => ?_, fun x => ?_⟩
  · unfold interferes
    simp only
    rw [all.edges]
    have none : (Graph.empty : Graph Temp).hasEdge x y = false := rfl
    rw [none]
    simp [Meets, IndexSet.mem_toList]
  · simp only
    rw [all.nodes]
    simp only [Graph.empty, List.not_mem_nil, false_or, IndexSet.mem_toList, IndexMap.mem_keys,
      or_assoc]

theorem build_represents {bound : Nat} (wf : f.WellFormed) (run : Liveness.analyze bound f = .ok l) :
    ∃ g, build f l = .ok g ∧ g.Represents f l := by
  obtain ⟨g, built⟩ : ∃ g, build f l = .ok g :=
    ⟨_, map_eq_ok.mpr ⟨_, Liveness.entryLiveIn_eq wf.nonempty run, rfl⟩⟩
  exact ⟨g, built, represents_of_build built⟩

/-- What is live in code that can be reached is read by some instruction. -/
theorem used_of_liveAfter {bound : Nat} (wf : f.WellFormed)
    (run : Liveness.analyze bound f = .ok l) {p : Instr × IndexSet} (point : p ∈ l.points f)
    {t : Temp} (live : t ∈ p.2) : ∃ i ∈ f.instrs, t ∈ i.uses := by
  obtain ⟨b, block, pre, rest, reach, found, split, same⟩ := Liveness.mem_points.mp point
  rw [Liveness.reachable_of_analyze run] at reach
  rw [same, Liveness.mem_liveAfter wf.edgesInside run reach found split] at live
  rcases live with path | taken
  · refine path.used fun i member => Func.mem_instrs.mpr ⟨b, block, found, ?_⟩
    rw [split]
    exact List.mem_append_right _ (List.mem_cons_of_mem _ member)
  · obtain ⟨i, inside, address⟩ := Liveness.mem_addressTaken run taken
    exact ⟨i, inside, Instr.mem_uses_of_addressTaken address⟩

theorem used_of_entryLive {bound : Nat} (wf : f.WellFormed)
    (run : Liveness.analyze bound f = .ok l) {t : Temp} (live : t ∈ l.liveIn Func.entry) :
    ∃ i ∈ f.instrs, t ∈ i.uses := by
  obtain ⟨block, found⟩ := wf.entry_block
  rw [Liveness.mem_liveIn wf.edgesInside run (Func.entry_mem_reachable wf.nonempty) found] at live
  rcases live with path | taken
  · exact path.used fun i member => Func.mem_instrs.mpr ⟨Func.entry, _, found, member⟩
  · obtain ⟨i, inside, address⟩ := Liveness.mem_addressTaken run taken
    exact ⟨i, inside, Instr.mem_uses_of_addressTaken address⟩

/-- If all blocks can be reached, the nodes are the parameters in registers, the pinned temps and
the temps of the instructions. -/
theorem Represents.mem_nodes {g : Interference} {bound : Nat} (graph : g.Represents f l)
    (wf : f.WellFormed) (run : Liveness.analyze bound f = .ok l)
    (all : ∀ b < f.blocks.length, b ∈ f.reachable) (x : Temp) :
    x ∈ g.graph.nodes ↔ x ∈ f.registerParams ∨ f.pinned.contains x = true ∨
      ∃ i ∈ f.instrs, x ∈ i.temps := by
  have read : (∃ i ∈ f.instrs, x ∈ i.uses) → ∃ i ∈ f.instrs, x ∈ i.temps :=
    fun ⟨i, inside, used⟩ => ⟨i, inside, Instr.mem_temps.mpr (Or.inr used)⟩
  rw [graph.nodes]
  constructor
  · rintro (param | pin | ⟨d, member, t, live, rfl | rfl⟩ | ⟨p, point, named | ⟨d, _, clash⟩⟩)
    · exact Or.inl param
    · exact Or.inr (Or.inl pin)
    · rcases List.mem_append.mp member with param | other
      · exact Or.inl param
      · exact Or.inr (Or.inr (read (used_of_entryLive wf run other)))
    · exact Or.inr (Or.inr (read (used_of_entryLive wf run live)))
    · obtain ⟨b, block, pre, rest, _, found, split, _⟩ := Liveness.mem_points.mp point
      exact Or.inr (Or.inr
        ⟨p.1, Func.mem_instrs.mpr ⟨b, block, found, by rw [split]; simp⟩, named⟩)
    · exact Or.inr (Or.inr (read (used_of_liveAfter wf run point (mem_clashes.mp clash).1)))
  · rintro (param | pin | ⟨i, inside, named⟩)
    · exact Or.inl param
    · exact Or.inr (Or.inl pin)
    · obtain ⟨b, block, found, member⟩ := Func.mem_instrs.mp inside
      obtain ⟨pre, rest, split⟩ := List.append_of_mem member
      have reach := all b (List.getElem?_eq_some_iff.mp found).1
      rw [← Liveness.reachable_of_analyze run] at reach
      have point := Liveness.mem_points.mpr ⟨b, block, pre, rest, reach, found, split, rfl⟩
      exact Or.inr (Or.inr (Or.inr ⟨_, point, Or.inl named⟩))

theorem mem_neighbors {g : Interference} (valid : g.graph.Valid) {t u : Temp} :
    u ∈ g.neighbors t ↔ g.interferes t u = true := by
  unfold interferes
  rw [neighbors_def, IndexSet.mem_ofList]
  cases found : g.graph.id? t with
  | none =>
    have absent : g.graph.hasEdge t u = false := by simp [Graph.hasEdge, found]
    simp [Graph.neighbors?, found, absent]
  | some i =>
    obtain ⟨l, stored, _, _, _, members⟩ := Graph.neighbors?_eq valid found
    rw [stored, Option.getD_some]
    exact members u

theorem degree_eq {g : Interference} (valid : g.graph.Valid) (t : Temp) :
    g.degree t = (g.neighbors t).size := by
  rw [degree_def, neighbors_def]
  cases found : g.graph.id? t with
  | none =>
    simp only [Graph.neighbors?, found]
    rfl
  | some i =>
    obtain ⟨l, stored, _, nodup, degree, _⟩ := Graph.neighbors?_eq valid found
    rw [stored, Option.getD_some, Option.bind_some, degree, Option.getD_some]
    refine Nat.le_antisymm (IndexSet.length_le_size nodup fun x member => ?_)
      (IndexSet.size_le_length fun x member => ?_)
    · exact IndexSet.mem_ofList.mpr member
    · exact IndexSet.mem_ofList.mp member

end Interference

end RegisterColoring
