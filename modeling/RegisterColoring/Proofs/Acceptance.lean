import RegisterColoring.Proofs.PinOutcomes
import RegisterColoring.Proofs.StatementOutcomes

namespace RegisterColoring

/-- A function that passes every check of resolution. -/
structure Source.Func.Accepted (src : Source.Func) : Prop where
  params : (src.params.map (·.temp)).Nodup
  pins : ∀ p ∈ src.params, p.Allocatable
  filled : src.statements ≠ []
  labels : src.labels.Nodup
  apart : ∀ label ∈ src.labels, label ∉ src.invented
  jumps : ∀ label ∈ src.jumps, label ∈ src.labels ∨ label ∈ src.invented

theorem lt_nextAbove_iff {l : List Nat} {n : Nat} : n < nextAbove l ↔ ∃ x ∈ l, n ≤ x := by
  constructor
  · intro above
    by_contra none
    refine absurd (nextAbove_le fun x member => ?_) (Nat.not_le.mpr above)
    exact Nat.lt_of_not_le fun reaches => none ⟨x, member, reaches⟩
  · rintro ⟨x, member, reaches⟩
    exact Nat.lt_of_le_of_lt reaches (lt_nextAbove member)

/-- The counter above indices within the limit exceeds it if the last index is among them. -/
theorem maxIndex_lt_nextAbove {l : List Nat} (small : ∀ x ∈ l, x ≤ maxIndex) :
    maxIndex < nextAbove l ↔ maxIndex ∈ l := by
  rw [lt_nextAbove_iff]
  constructor
  · rintro ⟨x, member, reaches⟩
    rwa [Nat.le_antisymm reaches (small x member)]
  · exact fun member => ⟨maxIndex, member, Nat.le_refl _⟩

theorem mem_successorsOf {count b s : Nat} {instrs : List Instr}
    (edge : s ∈ successorsOf count b instrs) :
    (∃ i ∈ instrs, s ∈ i.targets) ∨ s = b + 1 ∧ b + 1 < count := by
  unfold successorsOf fallsThrough at edge
  cases ends : instrs.getLast? with
  | none =>
    simp only [ends, Bool.true_and, decide_eq_true_eq] at edge
    split at edge
    next below => exact .inr ⟨List.mem_singleton.mp edge, below⟩
    next => exact absurd edge List.not_mem_nil
  | some last =>
    have member := List.mem_of_getLast? ends
    simp only [ends, Bool.and_eq_true, decide_eq_true_eq] at edge
    split at edge
    next falls =>
      rcases List.mem_append.mp edge with target | below
      · exact .inl ⟨last, member, target⟩
      · exact .inr ⟨List.mem_singleton.mp below, falls.2⟩
    next => exact .inl ⟨last, member, edge⟩

/-- Edges can be computed if jumps stay inside. -/
theorem link_isOk {blocks : List Block}
    (bounded : ∀ i ∈ blocks.flatMap (·.instrs), ∀ b ∈ i.targets, b < blocks.length) :
    ∃ linked, link blocks = .ok linked := by
  refine ⟨_, link_eq_ok.mpr ⟨fun b s edge => ?_, rfl⟩⟩
  unfold edgesOf at edge
  split at edge
  next block found =>
    rcases mem_successorsOf edge with ⟨i, inside, target⟩ | ⟨same, bound⟩
    · exact bounded i (List.mem_flatMap.mpr ⟨block, List.mem_of_getElem? found, inside⟩) s target
    · rw [same]
      exact bound
  next => exact absurd edge List.not_mem_nil

/-- The function of labelled blocks before its edges and counters are computed. -/
def Func.draft (name : String) (params : List Temp) (pinned : IndexMap Color)
    (blocks : List (String × List Instr)) : Func :=
  { name, params, pinned
    blocks := unlinked blocks
    spillTemps := ∅
    stackParams := ∅
    numSlots := 0
    nextTemp := 0 }

theorem unlinked_flatMap (blocks : List (String × List Instr)) :
    (unlinked blocks).flatMap (·.instrs) = blocks.flatMap (·.2) := by
  rw [List.flatMap_def, unlinked_instrs, ← List.flatMap_def]

/-- Building a function whose jumps stay inside fails only for want of a number. -/
theorem Func.ofBlocks_cases (name : String) (params : List Temp) (pinned : IndexMap Color)
    {blocks : List (String × List Instr)}
    (bounded : ∀ i ∈ blocks.flatMap (·.2), ∀ b ∈ i.targets, b < blocks.length) :
    let f := Func.draft name params pinned blocks
    let full := maxIndex < nextAbove f.allTemps.toList ∨
      maxIndex < nextAbove (f.instrs.filterMap Instr.slot?)
    full ∧ Func.ofBlocks name params pinned blocks = .error (.fault .counterExhausted) ∨
      ¬ full ∧ ∃ g, Func.ofBlocks name params pinned blocks = .ok g := by
  intro f full
  by_cases above : full
  · exact .inl ⟨above, if_pos above⟩
  · have length : (unlinked blocks).length = blocks.length := List.length_mapIdx
    obtain ⟨linked, run⟩ : ∃ linked, link (unlinked blocks) = .ok linked := by
      refine link_isOk fun i inside => ?_
      rw [unlinked_flatMap] at inside
      rw [length]
      exact bounded i inside
    have edges : f.rebuildEdges = .ok { f with blocks := linked } :=
      bind_eq_ok.mpr ⟨linked, run, rfl⟩
    exact .inr ⟨above, _, (if_neg above).trans (map_eq_ok.mpr ⟨_, edges, rfl⟩)⟩

/-- What resolution has found before the function is built: its pins and its blocks. -/
structure Source.Func.Resolves (src : Source.Func) (automatic : Bool) (pins : IndexMap Color)
    (blocks : List (String × List Instr)) : Prop where
  pinned : pinsFrom src.name automatic 0 [] src.params ∅ = .ok pins
  filled : (cutBlocks src.body).all (·.2.isEmpty) = false
  unique : firstRepeat [] ((nameBlocks src.name (cutBlocks src.body)).map (·.1)) = none
  resolved : resolveBlocks src.name ((nameBlocks src.name (cutBlocks src.body)).map (·.1))
    (nameBlocks src.name (cutBlocks src.body)) = .ok blocks

namespace Source.Func

variable {src : Source.Func} {automatic : Bool} {pins : IndexMap Color}
  {blocks : List (String × List Instr)}

theorem mem_names {label : String} :
    label ∈ (nameBlocks src.name (cutBlocks src.body)).map (·.1) ↔
      label ∈ src.labels ∨ label ∈ src.invented := by
  rw [(nameBlocks_perm src).mem_iff, List.mem_append]

theorem Accepted.resolves (accepted : src.Accepted) (automatic : Bool) :
    ∃ pins blocks, src.Resolves automatic pins blocks := by
  obtain ⟨pins, pinned⟩ : ∃ pins, pinsFrom src.name automatic 0 [] src.params ∅ = .ok pins :=
    pinsFrom_isOk.mpr ⟨accepted.params, fun _ _ => List.not_mem_nil, accepted.pins⟩
  have filled : (cutBlocks src.body).all (·.2.isEmpty) = false :=
    Bool.eq_false_iff.mpr fun empty => accepted.filled ((cutBlocks_all_isEmpty src).mp empty)
  have nodup := (names_nodup src).mpr ⟨accepted.labels, accepted.apart⟩
  have unique : firstRepeat [] ((nameBlocks src.name (cutBlocks src.body)).map (·.1)) = none :=
    firstRepeat_eq_none.mpr ⟨nodup, fun _ _ => List.not_mem_nil⟩
  obtain ⟨blocks, resolved⟩ : ∃ blocks, resolveBlocks src.name
      ((nameBlocks src.name (cutBlocks src.body)).map (·.1))
      (nameBlocks src.name (cutBlocks src.body)) = .ok blocks := by
    refine resolveBlocks_isOk src.name fun label jump => mem_names.mpr (accepted.jumps label ?_)
    rwa [flatMap_nameBlocks] at jump
  exact ⟨pins, blocks, pinned, filled, unique, resolved⟩

theorem Resolves.accepted (resolves : src.Resolves automatic pins blocks) : src.Accepted := by
  obtain ⟨params, _, allowed⟩ := pinsFrom_isOk.mp ⟨pins, resolves.pinned⟩
  obtain ⟨labels, apart⟩ := (names_nodup src).mp (firstRepeat_eq_none.mp resolves.unique).1
  refine ⟨params, allowed, fun none => ?_, labels, apart, fun label jump => mem_names.mp ?_⟩
  · exact Bool.eq_false_iff.mp resolves.filled ((cutBlocks_all_isEmpty src).mpr none)
  · refine resolveBlocks_jumps resolves.resolved label ?_
    rwa [flatMap_nameBlocks]

theorem Resolves.ofSource_eq (resolves : src.Resolves automatic pins blocks) :
    Func.ofSource src automatic =
      Func.ofBlocks src.name (src.params.map (·.temp)) pins blocks := by
  unfold RegisterColoring.Func.ofSource
  simp only [resolves.pinned, Except.bind, resolves.filled, resolves.unique, resolves.resolved,
    Bool.false_eq_true, if_false]

/-- A function that fails some check is reported as malformed. -/
theorem ofSource_refused (refused : ¬ src.Accepted) (automatic : Bool) :
    ∃ reason, Func.ofSource src automatic = .error (.malformed src.name reason) := by
  unfold RegisterColoring.Func.ofSource
  cases pinned : pinsFrom src.name automatic 0 [] src.params ∅ with
  | error e =>
    obtain ⟨reason, rfl, _⟩ := pinsFrom_error pinned
    exact ⟨reason, rfl⟩
  | ok pins =>
    simp only [Except.bind]
    split
    next => exact ⟨_, rfl⟩
    next filled =>
      split
      next => exact ⟨_, rfl⟩
      next unique =>
        split
        next e failed =>
          obtain ⟨label, rfl⟩ := resolveBlocks_error failed
          exact ⟨_, rfl⟩
        next blocks resolved =>
          exact absurd (Resolves.accepted ⟨pinned, Bool.eq_false_iff.mpr filled, unique, resolved⟩)
            refused

theorem Resolves.mem_instrs (resolves : src.Resolves automatic pins blocks) {i : Instr} :
    i ∈ blocks.flatMap (·.2) ↔ ∃ s ∈ src.statements, resolveStatement src.name
      ((nameBlocks src.name (cutBlocks src.body)).map (·.1)) s = .ok i := by
  rw [mem_flatMap_resolveBlocks resolves.resolved, flatMap_nameBlocks]

theorem Resolves.statement (resolves : src.Resolves automatic pins blocks) {s : Statement}
    (member : s ∈ src.statements) : ∃ i ∈ blocks.flatMap (·.2), resolveStatement src.name
      ((nameBlocks src.name (cutBlocks src.body)).map (·.1)) s = .ok i := by
  obtain ⟨i, resolved⟩ : ∃ i, resolveStatement src.name
      ((nameBlocks src.name (cutBlocks src.body)).map (·.1)) s = .ok i := by
    refine resolveStatement_isOk src.name fun label jump => mem_names.mpr ?_
    exact resolves.accepted.jumps label (List.mem_flatMap.mpr ⟨s, member, jump⟩)
  exact ⟨i, resolves.mem_instrs.mpr ⟨s, member, resolved⟩, resolved⟩

theorem Resolves.targets_lt (resolves : src.Resolves automatic pins blocks) :
    ∀ i ∈ blocks.flatMap (·.2), ∀ b ∈ i.targets, b < blocks.length := by
  intro i inside
  obtain ⟨s, _, resolved⟩ := resolves.mem_instrs.mp inside
  rw [length_resolveBlocks resolves.resolved, ← List.length_map]
  exact resolveStatement_targets resolved

/-- The function that is built names the temps that are mentioned. -/
theorem Resolves.mem_allTemps (resolves : src.Resolves automatic pins blocks) {t : Temp} :
    t ∈ (Func.draft src.name (src.params.map (·.temp)) pins blocks).allTemps ↔ t ∈ src.temps := by
  have instrs : (Func.draft src.name (src.params.map (·.temp)) pins blocks).instrs =
      blocks.flatMap (·.2) := unlinked_flatMap blocks
  rw [Func.mem_allTemps, instrs, Source.Func.temps, List.mem_append, List.mem_flatMap]
  constructor
  · rintro (pin | param | ⟨i, inside, named⟩)
    · refine .inl ((pinsFrom_contains resolves.pinned t pin).resolve_right fun held => ?_)
      cases held
    · exact .inl param
    · obtain ⟨s, member, resolved⟩ := resolves.mem_instrs.mp inside
      exact .inr ⟨s, member, (resolveStatement_temps resolved).mp named⟩
  · rintro (param | ⟨s, member, named⟩)
    · exact .inr (.inl param)
    · obtain ⟨i, inside, resolved⟩ := resolves.statement member
      exact .inr (.inr ⟨i, inside, (resolveStatement_temps resolved).mpr named⟩)

/-- The function that is built names the slots that are mentioned. -/
theorem Resolves.mem_slots (resolves : src.Resolves automatic pins blocks) {n : Slot} :
    n ∈ (Func.draft src.name (src.params.map (·.temp)) pins blocks).instrs.filterMap Instr.slot? ↔
      n ∈ src.slots := by
  have instrs : (Func.draft src.name (src.params.map (·.temp)) pins blocks).instrs =
      blocks.flatMap (·.2) := unlinked_flatMap blocks
  rw [instrs, Source.Func.slots, List.mem_filterMap, List.mem_filterMap]
  constructor
  · rintro ⟨i, inside, named⟩
    obtain ⟨s, member, resolved⟩ := resolves.mem_instrs.mp inside
    obtain ⟨_, _, same⟩ := resolveStatement_parts resolved
    exact ⟨s, member, same ▸ named⟩
  · rintro ⟨s, member, named⟩
    obtain ⟨i, inside, resolved⟩ := resolves.statement member
    obtain ⟨_, _, same⟩ := resolveStatement_parts resolved
    exact ⟨i, inside, same ▸ named⟩

/-- The function mentions a temp or a slot above which no number is left for the counter. -/
def MentionsLast (src : Source.Func) : Prop := maxIndex ∈ src.temps ∨ maxIndex ∈ src.slots

/-- The outcomes of resolution: a function that fails a check is reported, one that passes them all
becomes a control flow graph unless it mentions the last temp or the last slot. -/
theorem ofSource_cases (temps : ∀ t ∈ src.temps, t ≤ maxIndex)
    (slots : ∀ n ∈ src.slots, n ≤ maxIndex) (automatic : Bool) :
    (¬ src.Accepted ∧
        ∃ reason, Func.ofSource src automatic = .error (.malformed src.name reason)) ∨
      (src.Accepted ∧ src.MentionsLast ∧
        Func.ofSource src automatic = .error (.fault .counterExhausted)) ∨
      src.Accepted ∧ ¬ src.MentionsLast ∧ ∃ f, Func.ofSource src automatic = .ok f := by
  by_cases accepted : src.Accepted
  · obtain ⟨pins, blocks, resolves⟩ := accepted.resolves automatic
    have lastTemp := maxIndex_lt_nextAbove fun t member =>
      temps t (resolves.mem_allTemps.mp (IndexSet.mem_toList.mp member))
    have lastSlot := maxIndex_lt_nextAbove fun n member => slots n (resolves.mem_slots.mp member)
    rw [IndexSet.mem_toList, resolves.mem_allTemps] at lastTemp
    rw [resolves.mem_slots] at lastSlot
    rw [resolves.ofSource_eq]
    rcases Func.ofBlocks_cases src.name (src.params.map (·.temp)) pins resolves.targets_lt with
      ⟨full, failed⟩ | ⟨room, built⟩
    · exact .inr (.inl ⟨accepted, (or_congr lastTemp lastSlot).mp full, failed⟩)
    · exact .inr (.inr ⟨accepted, fun full => room ((or_congr lastTemp lastSlot).mpr full), built⟩)
  · exact .inl ⟨accepted, ofSource_refused accepted automatic⟩

end Source.Func

end RegisterColoring
