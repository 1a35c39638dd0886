import RegisterColoring.Proofs.ReportText
import RegisterColoring.Proofs.Rounds

namespace RegisterColoring

namespace Allocation

/-- A slot wins over a register. -/
theorem get?_assignmentOf (colors : IndexMap Color) (slots : IndexMap Slot) (t : Temp) :
    (assignmentOf colors slots).get? t =
      ((slots.get? t).map Location.slot).or ((colors.get? t).map Location.reg) := by
  have keys : ∀ {β : Type} (m : IndexMap β) (h : β → Location),
      ((m.entries.map fun e => (e.1, h e.2)).map (·.1)).Nodup := by
    intro β m h
    rw [List.map_map]
    exact m.nodup_keys
  have stored : ∀ {β : Type} (m : IndexMap β) (h : β → Location) (base : Assignment),
      (base.insertAll (m.entries.map fun e => (e.1, h e.2))).get? t =
        ((m.get? t).map h).or (base.get? t) := by
    intro β m h base
    cases found : m.get? t with
    | some v =>
      exact IndexMap.get?_insertAll_of_mem (keys m h)
        (List.mem_map.mpr ⟨(t, v), IndexMap.get?_eq_some.mp found, rfl⟩)
    | none =>
      refine IndexMap.get?_insertAll_of_not_mem fun e member same => ?_
      obtain ⟨old, inside, rfl⟩ := List.mem_map.mp member
      have present := IndexMap.get?_eq_some.mpr (show (t, old.2) ∈ m.entries from same ▸ inside)
      cases found.symm.trans present
  unfold assignmentOf
  simp only
  rw [stored slots Location.slot, IndexMap.ofList, stored colors Location.reg]
  simp

theorem get?_assignmentOf_slot {colors : IndexMap Color} {slots : IndexMap Slot} {t : Temp}
    {slot : Slot} :
    (assignmentOf colors slots).get? t = some (.slot slot) ↔ slots.get? t = some slot := by
  rw [get?_assignmentOf]
  cases slots.get? t <;> simp

theorem get?_assignmentOf_reg {colors : IndexMap Color} {slots : IndexMap Slot} {t : Temp}
    {c : Color} : (assignmentOf colors slots).get? t = some (.reg c) ↔
      slots.get? t = none ∧ colors.get? t = some c := by
  rw [get?_assignmentOf]
  cases slots.get? t <;> simp

theorem mem_colors {a : Assignment} {c : Color} (member : c ∈ a.colors) :
    ∃ t, a.get? t = some (.reg c) := by
  unfold Assignment.colors IndexMap.values at member
  obtain ⟨place, inside, value⟩ := List.mem_filterMap.mp member
  obtain ⟨e, entry, rfl⟩ := List.mem_map.mp inside
  cases place : e.2 with
  | reg k =>
    rw [place] at value
    cases value
    exact ⟨e.1, IndexMap.get?_eq_some.mpr (by rw [← place]; exact entry)⟩
  | slot s =>
    rw [place] at value
    exact nomatch value

end Allocation

/-- What the last round of an allocation knows about the temps of its graph. -/
theorem Func.Attempts.register {s : Settings} {f : Func} {a : Attempt} (attempts : f.Attempts s a)
    (none : a.coloring.spilled.toList = []) {t : Temp} :
    t ∈ a.graph.graph.nodes ↔ a.coloring.colors.contains t = true := by
  have selected := attempts.selected
  constructor
  · intro node
    cases pinned : a.graph.pinned.contains t with
    | true =>
      obtain ⟨c, pin⟩ := IndexMap.contains_iff.mp pinned
      exact IndexMap.contains_iff.mpr ⟨c, selected.pinned t c pin⟩
    | false =>
      refine (selected.settled t (Interference.mem_unplaced.mpr ⟨node, pinned⟩)).resolve_left ?_
      intro spilled
      rw [← IndexSet.mem_toList, none] at spilled
      exact absurd spilled List.not_mem_nil
  · intro colored
    obtain ⟨c, found⟩ := IndexMap.contains_iff.mp colored
    rcases selected.origin t c found with pin | ⟨unplaced, _⟩
    · refine (attempts.graph.nodes t).mpr (Or.inr (Or.inl ?_))
      rw [← attempts.graph.pinned]
      exact IndexMap.contains_iff.mpr ⟨c, pin⟩
    · exact (Interference.mem_unplaced.mp unplaced).1

theorem Func.Attempts.color_lt {s : Settings} {f : Func} {a : Attempt} (attempts : f.Attempts s a)
    {t : Temp} {c : Color} (found : a.coloring.colors.get? t = some c) : c < s.colors := by
  rcases attempts.selected.origin t c found with pin | ⟨_, below⟩
  · exact attempts.pinsBelow t c pin
  · exact below

theorem Func.Attempts.apart {s : Settings} {f : Func} {a : Attempt} (attempts : f.Attempts s a)
    {t u : Temp} {c : Color} (edge : a.graph.interferes t u = true)
    (first : a.coloring.colors.get? t = some c) : a.coloring.colors.get? u ≠ some c := by
  intro second
  obtain ⟨pinT, pinU⟩ := attempts.selected.proper t u c edge first second
  obtain ⟨k, atT⟩ := IndexMap.contains_iff.mp pinT
  obtain ⟨l, atU⟩ := IndexMap.contains_iff.mp pinU
  cases first.symm.trans (attempts.selected.pinned t k atT)
  cases second.symm.trans (attempts.selected.pinned u l atU)
  exact attempts.pinsApart t u c edge atT atU

/-- What makes the result of an allocation of `f` right, with the interference graph of its
function. -/
structure Allocation.Valid (alloc : Allocation) (f : Func) (s : Settings) (graph : Interference) :
    Prop where
  /-- Exactly the temps in use and those spilled on the way have a place. -/
  complete : ∀ t, alloc.assignment.contains t = true ↔
    t ∈ alloc.func.allTemps ∨ ∃ r ∈ alloc.rounds, r.spilled.contains t = true
  /-- A temp lives in a slot if it was spilled into it. -/
  slots : ∀ t slot, alloc.assignment.get? t = some (.slot slot) ↔
    ∃ r ∈ alloc.rounds, r.spilled.get? t = some slot
  registers : ∀ t ∈ graph.graph.nodes, ∃ c < s.colors, alloc.assignment.get? t = some (.reg c)
  pinned : alloc.func.pinned = f.pinned ∧
    ∀ t c, f.pinned.get? t = some c → alloc.assignment.get? t = some (.reg c)
  apart : ∀ t u c, graph.interferes t u = true → alloc.assignment.get? t = some (.reg c) →
    alloc.assignment.get? u ≠ some (.reg c)
  /-- Nothing is left of a spilled temp, and it was none that has to stay in a register. -/
  gone : ∀ r ∈ alloc.rounds, ∀ t, r.spilled.contains t = true →
    (∀ i ∈ alloc.func.instrs, t ∉ i.temps) ∧ alloc.func.pinned.contains t = false ∧
      t ∉ alloc.func.spillTemps
  /-- The source names none of the slots. -/
  range : ∀ r ∈ alloc.rounds, ∀ (t : Temp) (slot : Nat), r.spilled.get? t = some slot →
    f.numSlots ≤ slot ∧ slot < alloc.func.numSlots
  distinct : ∀ r ∈ alloc.rounds, ∀ q ∈ alloc.rounds, ∀ t u slot,
    r.spilled.get? t = some slot → q.spilled.get? u = some slot → t = u

/-- Every temp of the function of a valid allocation has a name in the report. -/
theorem Allocation.Valid.names {alloc : Allocation} {f : Func} {s : Settings}
    {graph : Interference} (valid : alloc.Valid f s graph)
    (below : ∀ t c, alloc.assignment.get? t = some (.reg c) → c < Register.pool.length)
    {t : Temp} (member : t ∈ alloc.func.allTemps) : alloc.Names t (alloc.naming.temp t) := by
  obtain ⟨place, found⟩ := IndexMap.contains_iff.mp ((valid.complete t).mpr (Or.inl member))
  have called : (∃ c r, alloc.assignment.get? t = some (.reg c) ∧ Register.pool[c]? = some r ∧
        alloc.naming.temp t = r.name) ∨
      ∃ slot, alloc.assignment.get? t = some (.slot slot) ∧
        alloc.naming.temp t = Slot.operand slot := by
    cases place with
    | reg c =>
      have register := List.getElem?_eq_getElem (below t c found)
      exact Or.inl ⟨c, _, found, register, by simp [naming, found, Register.ofColor?, register]⟩
    | slot slot => exact Or.inr ⟨slot, found, by simp [naming, found]⟩
  have physical : PhysicalName (alloc.naming.temp t) := by
    rcases called with ⟨c, r, _, register, name⟩ | ⟨slot, _, name⟩
    · exact Or.inl ⟨r, List.mem_of_getElem? register, name⟩
    · exact Or.inr ⟨slot, name⟩
  exact ⟨called, physical, physical.ne_temp⟩

/-- A valid allocation is reported if the pool has a register for each color. -/
theorem Allocation.Valid.reported {alloc : Allocation} {f : Func} {s : Settings}
    {graph : Interference} (valid : alloc.Valid f s graph)
    (below : ∀ t c, alloc.assignment.get? t = some (.reg c) → c < s.colors)
    (pool : s.colors ≤ Register.pool.length) :
    ∃ text, alloc.report s.colors = .ok text ∧ alloc.Reported s.colors text := by
  have inPool : ∀ t c, alloc.assignment.get? t = some (.reg c) → c < Register.pool.length :=
    fun t c found => Nat.lt_of_lt_of_le (below t c found) pool
  refine Allocation.report_ok (fun c member => ?_) fun t member => valid.names inPool member
  obtain ⟨t, found⟩ := Allocation.mem_colors member
  exact inPool t c found

namespace Progress

variable {f₀ f : Func} {s : Settings} {rounds : List Round} {slots : IndexMap Slot} {a : Attempt}

/-- A last round that spills nothing leaves the slots as they are. -/
theorem spilled_append (progress : Progress f₀ rounds slots f) {last : Round}
    (empty : last.spilled = ∅) {t : Temp} {slot : Slot} :
    (∃ r ∈ rounds ++ [last], r.spilled.get? t = some slot) ↔ slots.get? t = some slot := by
  rw [progress.spilled]
  constructor
  · rintro ⟨r, member, found⟩
    rcases List.mem_append.mp member with before | final
    · exact ⟨r, before, found⟩
    · rw [List.mem_singleton.mp final, empty] at found
      exact nomatch found
  · rintro ⟨r, before, found⟩
    exact ⟨r, List.mem_append_left _ before, found⟩

theorem stored_append (progress : Progress f₀ rounds slots f) {last : Round}
    (empty : last.spilled = ∅) {t : Temp} :
    (∃ r ∈ rounds ++ [last], r.spilled.contains t = true) ↔ slots.contains t = true := by
  simp only [IndexMap.contains_iff, ← progress.spilled_append empty]
  constructor
  · rintro ⟨r, member, slot, found⟩
    exact ⟨slot, r, member, found⟩
  · rintro ⟨slot, r, member, found⟩
    exact ⟨r, member, slot, found⟩

/-- If nothing is left to spill, every node of the graph is in a register. -/
theorem register_of_node (progress : Progress f₀ rounds slots f) (attempts : f.Attempts s a)
    (none : a.coloring.spilled.toList = []) {t : Temp} (node : t ∈ a.graph.graph.nodes) :
    ∃ c < s.colors, (Allocation.assignmentOf a.coloring.colors slots).get? t = some (.reg c) := by
  obtain ⟨_, new⟩ := (progress.mem_nodes attempts t).mp node
  obtain ⟨c, found⟩ := IndexMap.contains_iff.mp ((attempts.register none).mp node)
  exact ⟨c, attempts.color_lt found,
    Allocation.get?_assignmentOf_reg.mpr ⟨IndexMap.contains_eq_false.mp new, found⟩⟩

/-- Then the temps with a place are those in use and those in slots. -/
theorem contains_assignmentOf (progress : Progress f₀ rounds slots f) (attempts : f.Attempts s a)
    (none : a.coloring.spilled.toList = []) (t : Temp) :
    (Allocation.assignmentOf a.coloring.colors slots).contains t = true ↔
      t ∈ a.func.allTemps ∨ slots.contains t = true := by
  constructor
  · intro placed
    obtain ⟨place, found⟩ := IndexMap.contains_iff.mp placed
    cases place with
    | slot slot =>
      exact Or.inr (IndexMap.contains_iff.mpr ⟨slot, Allocation.get?_assignmentOf_slot.mp found⟩)
    | reg c =>
      have colored := IndexMap.contains_iff.mpr ⟨c, (Allocation.get?_assignmentOf_reg.mp found).2⟩
      have node := (attempts.register none).mpr colored
      exact Or.inl ((progress.mem_nodes attempts t).mp node).1
  · intro used
    cases before : slots.contains t with
    | true =>
      obtain ⟨slot, found⟩ := IndexMap.contains_iff.mp before
      exact IndexMap.contains_iff.mpr ⟨_, Allocation.get?_assignmentOf_slot.mpr found⟩
    | false =>
      have inside := used.resolve_right (by rw [before]; exact Bool.false_ne_true)
      obtain ⟨c, _, found⟩ := progress.register_of_node attempts none
        ((progress.mem_nodes attempts t).mpr ⟨inside, before⟩)
      exact IndexMap.contains_iff.mpr ⟨_, found⟩

theorem get?_assignmentOf_pinned (progress : Progress f₀ rounds slots f)
    (attempts : f.Attempts s a) {t : Temp} {c : Color} (pin : a.func.pinned.get? t = some c) :
    (Allocation.assignmentOf a.coloring.colors slots).get? t = some (.reg c) := by
  have node : t ∈ a.graph.graph.nodes :=
    (attempts.graph.nodes t).mpr (Or.inr (Or.inl (IndexMap.contains_iff.mpr ⟨c, pin⟩)))
  obtain ⟨_, new⟩ := (progress.mem_nodes attempts t).mp node
  refine Allocation.get?_assignmentOf_reg.mpr ⟨IndexMap.contains_eq_false.mp new, ?_⟩
  refine attempts.selected.pinned t c ?_
  rw [attempts.graph.pinned]
  exact pin

/-- The facts about the last round, for the allocation that it ends. -/
theorem valid (progress : Progress f₀ rounds slots f) (attempts : f.Attempts s a)
    (none : a.coloring.spilled.toList = []) (last : Round) (empty : last.spilled = ∅) (n : Nat) :
    Allocation.Valid ⟨a.func, Allocation.assignmentOf a.coloring.colors slots, rounds ++ [last], n⟩
      f₀ s a.graph := by
  have trims := attempts.prepares.trims
  have pinned : a.func.pinned = f₀.pinned := by
    rw [trims.fields]
    exact progress.pinned
  refine ⟨fun t => ?_, fun t slot => ?_, fun t => progress.register_of_node attempts none,
    ⟨pinned, fun t c pin => ?_⟩, fun t u c edge first second => ?_, fun r member t inside => ?_,
    fun r member t slot found => ?_, fun r member q other t u slot first second => ?_⟩
  · rw [progress.stored_append empty]
    exact progress.contains_assignmentOf attempts none t
  · rw [progress.spilled_append empty]
    exact Allocation.get?_assignmentOf_slot
  · refine progress.get?_assignmentOf_pinned attempts ?_
    rw [pinned]
    exact pin
  · exact attempts.apart edge (Allocation.get?_assignmentOf_reg.mp first).2
      (Allocation.get?_assignmentOf_reg.mp second).2
  · have before := (progress.stored_append empty).mp ⟨r, member, inside⟩
    have orderly := progress.orderly.append empty
    obtain ⟨_, unpinned, written⟩ := orderly.temps r member t inside
    refine ⟨fun i here => progress.gone t before i (trims.instrs_subset here), ?_, ?_⟩
    · simp only [pinned]
      exact unpinned
    · simp only [show a.func.spillTemps = f.spillTemps by rw [trims.fields]]
      exact written
  · obtain ⟨_, _, low, high⟩ :=
      progress.origin t slot ((progress.spilled_append empty).mp ⟨r, member, found⟩)
    rw [show f.numSlots = a.func.numSlots by rw [trims.fields]] at high
    exact ⟨low, high⟩
  · exact progress.injective t u slot ((progress.spilled_append empty).mp ⟨r, member, first⟩)
      ((progress.spilled_append empty).mp ⟨q, other, second⟩)

end Progress

/-- The stages of a successful allocation: pruning, rounds that spill, and a last one that spills
nothing. -/
structure Allocation.Stages (alloc : Allocation) (f : Func) (s : Settings) (g : Func)
    (r : BlockId → BlockId) (rounds : List Round) (slots : IndexMap Slot) (h : Func) (a : Attempt) :
    Prop where
  prunes : f.Prunes g r
  first : Progress g [] ∅ g
  reached : Reached s g rounds slots h
  attempts : h.Attempts s a
  func : alloc.func = a.func
  assignment : alloc.assignment = Allocation.assignmentOf a.coloring.colors slots
  valid : alloc.Valid f s a.graph

theorem Func.allocate_stages {src : Source.Func} {automatic : Bool} {f : Func} {s : Settings}
    {alloc : Allocation} (source : Func.ofSource src automatic = .ok f)
    (run : f.allocate s = .ok alloc) :
    ∃ g r rounds slots h a, alloc.Stages f s g r rounds slots h a := by
  obtain ⟨n, g, r, pruned, prunes, first⟩ := Func.rounds_start source
  obtain ⟨rounds, slots, h, a, reached, attempt, none, rfl⟩ := Func.allocate_ok pruned run
  have progress := reached.progress first
  have attempts := Func.attempt_ok progress.wellFormed attempt
  have valid := progress.valid attempts none (a.round (rounds.length + 1) ∅) rfl n
  have numSlots : g.numSlots = f.numSlots := by rw [prunes.fields]
  have pins : g.pinned = f.pinned := by rw [prunes.fields]
  refine ⟨g, r, rounds, slots, h, a, prunes, first, reached, attempts, rfl, rfl,
    { valid with pinned := ?_, range := ?_ }⟩
  · rw [← pins]
    exact valid.pinned
  · rw [← numSlots]
    exact valid.range

namespace Allocation.Stages

variable {alloc : Allocation} {f g h : Func} {s : Settings} {r : BlockId → BlockId}
  {rounds : List Round} {slots : IndexMap Slot} {a : Attempt}

theorem progress (stages : alloc.Stages f s g r rounds slots h a) : Progress g rounds slots h :=
  stages.reached.progress stages.first

theorem trims (stages : alloc.Stages f s g r rounds slots h a) : h.TrimsStar alloc.func := by
  rw [stages.func]
  exact stages.attempts.prepares.trims

theorem wellFormed (stages : alloc.Stages f s g r rounds slots h a) : alloc.func.WellFormed :=
  stages.trims.wellFormed stages.progress.wellFormed

theorem reachable (stages : alloc.Stages f s g r rounds slots h a) :
    ∀ b < alloc.func.blocks.length, b ∈ alloc.func.reachable := by
  rw [stages.trims.length, stages.trims.reachable_eq]
  exact stages.progress.reachable

theorem liveness (stages : alloc.Stages f s g r rounds slots h a) :
    Liveness.analyze s.maxIterations alloc.func = .ok a.liveness := by
  rw [stages.func]
  exact stages.attempts.prepares.liveness

theorem graph (stages : alloc.Stages f s g r rounds slots h a) :
    a.graph.Represents alloc.func a.liveness := by
  rw [stages.func]
  exact stages.attempts.graph

theorem get?_slot (stages : alloc.Stages f s g r rounds slots h a) {t : Temp} {slot : Slot} :
    alloc.assignment.get? t = some (.slot slot) ↔ slots.get? t = some slot := by
  rw [stages.assignment]
  exact get?_assignmentOf_slot

theorem color_lt (stages : alloc.Stages f s g r rounds slots h a) {t : Temp} {c : Color}
    (found : alloc.assignment.get? t = some (.reg c)) : c < s.colors := by
  rw [stages.assignment] at found
  exact stages.attempts.color_lt (get?_assignmentOf_reg.mp found).2

end Allocation.Stages

/-- Every successful allocation is a complete and valid assignment, and with a pool that names all
its colors it can be reported. -/
theorem Func.allocate_valid {src : Source.Func} {automatic : Bool} {f : Func} {s : Settings}
    {alloc : Allocation} (source : Func.ofSource src automatic = .ok f)
    (run : f.allocate s = .ok alloc) :
    ∃ l graph, Liveness.analyze s.maxIterations alloc.func = .ok l ∧
      Interference.build alloc.func l = .ok graph ∧ alloc.Valid f s graph ∧
      (s.colors ≤ 13 → ∃ text, alloc.report s.colors = .ok text ∧
        alloc.Reported s.colors text) := by
  obtain ⟨g, r, rounds, slots, h, a, stages⟩ := Func.allocate_stages source run
  refine ⟨a.liveness, a.graph, stages.liveness, ?_, stages.valid,
    fun pool => stages.valid.reported (fun t c found => stages.color_lt found) pool⟩
  rw [stages.func]
  exact stages.attempts.built

theorem sumFunc_valid :
    ∃ alloc, sumFunc.allocate { colors := 2 } = .ok alloc ∧
      ∃ l graph, Liveness.analyze 10000 alloc.func = .ok l ∧
        Interference.build alloc.func l = .ok graph ∧ alloc.Valid sumFunc { colors := 2 } graph ∧
        (2 ≤ 13 → ∃ text, alloc.report 2 = .ok text ∧ alloc.Reported 2 text) := by
  obtain ⟨alloc, run⟩ := sumFunc_allocates
  exact ⟨alloc, run, Func.allocate_valid ofSource_sumSource run⟩

end RegisterColoring
