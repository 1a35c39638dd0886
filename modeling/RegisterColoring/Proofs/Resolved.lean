import RegisterColoring.Proofs.WellFormed

namespace RegisterColoring

open Source (Statement Line)

/-- Nothing is written behind a statement from which control never passes on. -/
abbrev StatementsClosed : List Statement → Prop := LastOnly Statement.isTerminator

theorem statementsClosed_nil : StatementsClosed [] := by
  intro pre s rest split
  exact absurd split (by simp)

theorem cutFrom_closed {body : List Line} {label? : Option String} {taken : List Statement}
    (closed : StatementsClosed taken) : ∀ block ∈ cutFrom label? taken body,
      StatementsClosed block.2 := by
  induction body generalizing label? taken with
  | nil =>
    intro block member
    rw [cutFrom, List.mem_singleton] at member
    rw [member]
    exact closed
  | cons line rest ih =>
    intro block member
    cases line with
    | label name =>
      unfold cutFrom at member
      split at member
      · exact ih statementsClosed_nil block member
      · rcases List.mem_cons.mp member with equal | later
        · rw [equal]
          exact closed
        · exact ih statementsClosed_nil block later
    | statement s =>
      unfold cutFrom at member
      split at member
      · rcases List.mem_cons.mp member with equal | later
        · rw [equal]
          exact closed
        · exact ih (LastOnly.append fun _ member => absurd member List.not_mem_nil) block later
      · rename_i opened
        exact ih (.append (closed.none_of_last (by simpa using opened))) block member

theorem cutFrom_ne_nil (label? : Option String) (taken : List Statement) (body : List Line) :
    cutFrom label? taken body ≠ [] := by
  induction body generalizing label? taken with
  | nil => simp [cutFrom]
  | cons line rest ih =>
    cases line with
    | label name =>
      unfold cutFrom
      split
      · exact ih _ _
      · simp
    | statement s =>
      unfold cutFrom
      split
      · simp
      · exact ih _ _

theorem nameFrom_bodies (func : String) (count : Nat) (cut : List (Option String × List Statement)) :
    (nameFrom func count cut).map (·.2) = cut.map (·.2) := by
  induction cut generalizing count with
  | nil => rfl
  | cons block rest ih =>
    obtain ⟨label?, body⟩ := block
    cases label? with
    | some label => rw [nameFrom, List.map_cons, List.map_cons, ih]
    | none => rw [nameFrom, List.map_cons, List.map_cons, ih]

/-- Naming leaves the bodies alone. -/
theorem nameBlocks_bodies (func : String) (cut : List (Option String × List Statement)) :
    (nameBlocks func cut).map (·.2) = cut.map (·.2) := by
  cases cut with
  | nil => rfl
  | cons first rest => rw [nameBlocks, List.map_cons, List.map_cons, nameFrom_bodies]

theorem mem_nameBlocks {func : String} {cut : List (Option String × List Statement)}
    {block : String × List Statement} (member : block ∈ nameBlocks func cut) :
    ∃ old ∈ cut, old.2 = block.2 := by
  have inside : block.2 ∈ (nameBlocks func cut).map (·.2) := List.mem_map_of_mem member
  rw [nameBlocks_bodies] at inside
  exact List.mem_map.mp inside

theorem isTerminator_resolveStatement {func : String} {labels : List String} {s : Statement}
    {i : Instr} (run : resolveStatement func labels s = .ok i) :
    i.isTerminator = s.isTerminator := by
  cases s with
  | assign dest value =>
    cases run
    cases value <;> rfl
  | goto label =>
    obtain ⟨b, _, rfl⟩ := map_eq_ok.mp run
    rfl
  | branch cond yes no =>
    obtain ⟨y, _, inner⟩ := bind_eq_ok.mp run
    obtain ⟨n, _, rfl⟩ := map_eq_ok.mp inner
    rfl
  | store | call | spillStore | ret =>
    cases run
    rfl

theorem resolveStatements_terminators {func : String} {labels : List String}
    {body : List Statement} {instrs : List Instr}
    (run : resolveStatements func labels body = .ok instrs) :
    instrs.map (·.isTerminator) = body.map (·.isTerminator) := by
  induction body generalizing instrs with
  | nil =>
    cases run
    rfl
  | cons s rest ih =>
    obtain ⟨i, first, run⟩ := bind_eq_ok.mp run
    obtain ⟨later, others, rfl⟩ := map_eq_ok.mp run
    rw [List.map_cons, List.map_cons, isTerminator_resolveStatement first, ih others]

theorem mem_resolveBlocks {func : String} {labels : List String}
    {named : List (String × List Statement)} {blocks : List (String × List Instr)}
    (run : resolveBlocks func labels named = .ok blocks) {block : String × List Instr}
    (member : block ∈ blocks) :
    ∃ old ∈ named, resolveStatements func labels old.2 = .ok block.2 := by
  induction named generalizing blocks with
  | nil =>
    cases run
    exact absurd member List.not_mem_nil
  | cons first rest ih =>
    obtain ⟨instrs, body, run⟩ := bind_eq_ok.mp run
    obtain ⟨later, others, rfl⟩ := map_eq_ok.mp run
    rcases List.mem_cons.mp member with equal | inside
    · exact ⟨first, List.mem_cons_self, by rw [equal]; exact body⟩
    · obtain ⟨old, found, resolved⟩ := ih others inside
      exact ⟨old, List.mem_cons_of_mem _ found, resolved⟩

theorem resolveBlocks_ne_nil {func : String} {labels : List String}
    {named : List (String × List Statement)} {blocks : List (String × List Instr)}
    (run : resolveBlocks func labels named = .ok blocks) (some : named ≠ []) : blocks ≠ [] := by
  cases named with
  | nil => exact absurd rfl some
  | cons first rest =>
    obtain ⟨instrs, _, run⟩ := bind_eq_ok.mp run
    obtain ⟨later, _, rfl⟩ := map_eq_ok.mp run
    simp

theorem lt_nextAbove {l : List Nat} {x : Nat} (member : x ∈ l) : x < nextAbove l := by
  have grows : ∀ (l : List Nat) (n : Nat), n ≤ l.foldl (fun n x => max n (x + 1)) n := by
    intro l
    induction l with
    | nil => exact fun n => Nat.le_refl n
    | cons y rest ih => exact fun n => Nat.le_trans (Nat.le_max_left n (y + 1)) (ih _)
  have above : ∀ (l : List Nat) (n : Nat), x ∈ l → x < l.foldl (fun n x => max n (x + 1)) n := by
    intro l
    induction l with
    | nil => exact fun n member => absurd member List.not_mem_nil
    | cons y rest ih =>
      intro n member
      rcases List.mem_cons.mp member with rfl | later
      · have bound := grows rest (max n (x + 1))
        rw [List.foldl_cons]
        omega
      · exact ih _ later
  exact above l 0 member

theorem nextAbove_le {l : List Nat} {n : Nat} (below : ∀ x ∈ l, x < n) : nextAbove l ≤ n := by
  have bound : ∀ (l : List Nat) (m : Nat), m ≤ n → (∀ x ∈ l, x < n) →
      l.foldl (fun n x => max n (x + 1)) m ≤ n := by
    intro l
    induction l with
    | nil => exact fun m small _ => small
    | cons x rest ih =>
      intro m small below
      have first := below x List.mem_cons_self
      exact ih _ (Nat.max_le.mpr ⟨small, first⟩) fun y member =>
        below y (List.mem_cons_of_mem _ member)
  exact bound l 0 (Nat.zero_le n) below

/-- Blocks with their numbers and labels, and no edges yet. -/
def unlinked (blocks : List (String × List Instr)) : List Block :=
  blocks.mapIdx fun b block => ⟨b, block.1, block.2, [], []⟩

theorem unlinked_getElem? (blocks : List (String × List Instr)) (b : BlockId) :
    (unlinked blocks)[b]? = blocks[b]?.map fun block => ⟨b, block.1, block.2, [], []⟩ := by
  rw [unlinked, List.getElem?_mapIdx]

theorem unlinked_instrs (blocks : List (String × List Instr)) :
    (unlinked blocks).map (·.instrs) = blocks.map (·.2) := by
  refine List.ext_getElem? fun b => ?_
  rw [List.getElem?_map, List.getElem?_map, unlinked_getElem?]
  cases blocks[b]? <;> rfl

/-- What a function built from labelled blocks is: all is given but the edges, and the counters are
the least ones above the names in use. -/
structure Func.Built (name : String) (params : List Temp) (pinned : IndexMap Color)
    (blocks : List (String × List Instr)) (f : Func) : Prop where
  name : f.name = name
  params : f.params = params
  pinned : f.pinned = pinned
  linked : link (unlinked blocks) = .ok f.blocks
  spillTemps : f.spillTemps = ∅
  stackParams : f.stackParams = ∅
  nextTemp : f.nextTemp = nextAbove f.allTemps.toList
  numSlots : f.numSlots = nextAbove (f.instrs.filterMap Instr.slot?)
  tempRoom : f.nextTemp ≤ maxIndex
  slotRoom : f.numSlots ≤ maxIndex

theorem Func.ofBlocks_eq_ok {name : String} {params : List Temp} {pinned : IndexMap Color}
    {blocks : List (String × List Instr)} {f : Func} :
    Func.ofBlocks name params pinned blocks = .ok f ↔ f.Built name params pinned blocks := by
  have instrs_eq : ∀ {linked : List Block}, link (unlinked blocks) = .ok linked →
      linked.flatMap (·.instrs) = (unlinked blocks).flatMap (·.instrs) := by
    intro linked run
    have rows := congrArg (List.map (·.2.2)) (link_headings run)
    rw [List.map_map, List.map_map] at rows
    rw [List.flatMap_def, List.flatMap_def]
    exact congrArg List.flatten rows
  unfold Func.ofBlocks
  simp only
  constructor
  · intro run
    split at run
    · cases run
    · rename_i room
      obtain ⟨g, edges, rfl⟩ := map_eq_ok.mp run
      obtain ⟨linked, linkRun, rest⟩ := bind_eq_ok.mp edges
      cases rest
      have same := instrs_eq linkRun
      obtain ⟨temps, slots⟩ := not_or.mp room
      refine ⟨rfl, rfl, rfl, linkRun, rfl, rfl, ?_, ?_, Nat.not_lt.mp temps, Nat.not_lt.mp slots⟩
      · simp only [allTemps, instrs, same]
        rfl
      · simp only [instrs, same]
        rfl
  · intro built
    obtain ⟨name, params, pinned, linked, spillTemps, stackParams, nextTemp, numSlots, tempRoom,
      slotRoom⟩ := built
    have same := instrs_eq linked
    rw [nextTemp] at tempRoom
    rw [numSlots] at slotRoom
    simp only [allTemps, instrs, same] at nextTemp numSlots tempRoom slotRoom
    rw [pinned, params] at nextTemp tempRoom
    refine (if_neg (not_or.mpr ⟨Nat.not_lt.mpr tempRoom, Nat.not_lt.mpr slotRoom⟩)).trans ?_
    refine map_eq_ok.mpr ⟨_, bind_eq_ok.mpr ⟨f.blocks, linked, rfl⟩, ?_⟩
    cases f
    simp only [Func.mk.injEq]
    exact ⟨name.symm, params.symm, pinned.symm, trivial, spillTemps.symm, stackParams.symm,
      numSlots.symm, nextTemp.symm⟩

theorem Func.Built.instrs_eq {name : String} {params : List Temp} {pinned : IndexMap Color}
    {blocks : List (String × List Instr)} {f : Func} (built : f.Built name params pinned blocks) :
    f.blocks.map (·.instrs) = blocks.map (·.2) := by
  have same := congrArg (List.map (·.2.2)) (link_headings built.linked)
  rw [List.map_map, List.map_map] at same
  exact same.trans (unlinked_instrs blocks)

/-- What a function built from blocks of instructions looks like. -/
theorem Func.Built.wellFormed {name : String} {params : List Temp} {pinned : IndexMap Color}
    {blocks : List (String × List Instr)} {f : Func} (built : f.Built name params pinned blocks)
    (some : blocks ≠ []) (last : ∀ block ∈ blocks, TerminatorLast block.2) : f.WellFormed := by
  have rows := built.instrs_eq
  refine ⟨fun empty => ?_, link_linked built.linked, fun block member => ?_, fun t member => ?_,
    fun t member => ?_, fun i member s named => ?_⟩
  · rw [empty, List.map_nil] at rows
    exact some (List.map_eq_nil_iff.mp rows.symm)
  · have inside : block.instrs ∈ blocks.map (·.2) := by
      rw [← rows]
      exact List.mem_map_of_mem member
    obtain ⟨old, found, same⟩ := List.mem_map.mp inside
    rw [← same]
    exact last old found
  · rw [built.nextTemp]
    exact lt_nextAbove (IndexSet.mem_toList.mpr member)
  · rw [built.spillTemps] at member
    exact absurd member (IndexSet.not_mem_empty t)
  · rw [built.numSlots]
    exact lt_nextAbove (List.mem_filterMap.mpr ⟨i, member, named⟩)

/-- The edges of a function built from blocks are consistent, whatever the blocks. -/
theorem Func.ofBlocks_consistent {name : String} {params : List Temp} {pinned : IndexMap Color}
    {blocks : List (String × List Instr)} {f : Func}
    (run : Func.ofBlocks name params pinned blocks = .ok f) : f.rebuildEdges = .ok f := by
  have built := Func.ofBlocks_eq_ok.mp run
  exact Func.rebuildEdges_eq_self.mpr (link_linked built.linked)

/-- Resolution step by step. -/
theorem Func.ofSource_eq_ok {src : Source.Func} {automatic : Bool} {f : Func} :
    Func.ofSource src automatic = .ok f ↔
      ∃ (pins : IndexMap Color) (blocks : List (String × List Instr)),
        pinsFrom src.name automatic 0 [] src.params ∅ = .ok pins ∧
        (cutBlocks src.body).all (·.2.isEmpty) = false ∧
        firstRepeat [] ((nameBlocks src.name (cutBlocks src.body)).map (·.1)) = none ∧
        resolveBlocks src.name ((nameBlocks src.name (cutBlocks src.body)).map (·.1))
          (nameBlocks src.name (cutBlocks src.body)) = .ok blocks ∧
        f.Built src.name (src.params.map (·.temp)) pins blocks := by
  unfold Func.ofSource
  rw [bind_eq_ok]
  refine exists_congr fun pins => ?_
  simp only
  constructor
  · rintro ⟨pinned, run⟩
    split at run
    · cases run
    · rename_i some
      split at run
      · cases run
      · rename_i unique
        obtain ⟨blocks, resolved, built⟩ := bind_eq_ok.mp run
        exact ⟨blocks, pinned, Bool.eq_false_iff.mpr some, unique, resolved,
          Func.ofBlocks_eq_ok.mp built⟩
  · rintro ⟨blocks, pinned, some, unique, resolved, built⟩
    refine ⟨pinned, ?_⟩
    rw [if_neg (Bool.eq_false_iff.mp some), unique]
    exact bind_eq_ok.mpr ⟨blocks, resolved, Func.ofBlocks_eq_ok.mpr built⟩

/-- The functions that resolution gives: their blocks come from bodies cut behind terminators. -/
theorem Func.ofSource_ok {src : Source.Func} {automatic : Bool} {f : Func}
    (run : Func.ofSource src automatic = .ok f) :
    ∃ (pins : IndexMap Color) (blocks : List (String × List Instr)),
      blocks ≠ [] ∧ (∀ block ∈ blocks, TerminatorLast block.2) ∧
        f.Built src.name (src.params.map (·.temp)) pins blocks := by
  obtain ⟨pins, blocks, _, _, _, resolved, built⟩ := Func.ofSource_eq_ok.mp run
  refine ⟨pins, blocks, resolveBlocks_ne_nil resolved ?_, fun block member => ?_, built⟩
  · unfold cutBlocks
    cases cut : cutFrom none [] src.body with
    | nil => exact absurd cut (cutFrom_ne_nil _ _ _)
    | cons first rest => simp [nameBlocks]
  · obtain ⟨old, inside, body⟩ := mem_resolveBlocks resolved member
    obtain ⟨first, cutMember, same⟩ := mem_nameBlocks inside
    have closed := cutFrom_closed statementsClosed_nil first cutMember
    rw [same] at closed
    exact closed.of_map (resolveStatements_terminators body)

theorem Func.ofSource_wellFormed {src : Source.Func} {automatic : Bool} {f : Func}
    (run : Func.ofSource src automatic = .ok f) : f.WellFormed := by
  obtain ⟨pins, blocks, some, last, built⟩ := Func.ofSource_ok run
  exact built.wellFormed some last

end RegisterColoring
