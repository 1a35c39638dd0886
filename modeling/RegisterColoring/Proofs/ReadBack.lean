import RegisterColoring.Proofs.Listings
import RegisterColoring.Proofs.Representation

namespace RegisterColoring

open Source (Param Statement Line Expr)

theorem Register.ofName?_name (r : Register) : Register.ofName? r.name = some r := by
  cases r <;> rfl

theorem Register.ofColor?_of_color? {r : Register} {c : Color} (color : r.color? = some c) :
    Register.ofColor? c = some r := by
  cases r <;> cases color <;> rfl

/-- Later parameters leave the pins of earlier ones alone. -/
theorem pinsFrom_get? {func : String} {automatic : Bool} {position : Nat} {seen : List Temp}
    {params : List Param} {pins final : IndexMap Color}
    (run : pinsFrom func automatic position seen params pins = .ok final) {t : Temp}
    (before : t ∈ seen) : final.get? t = pins.get? t := by
  induction params generalizing position seen pins with
  | nil =>
    cases run
    rfl
  | cons p rest ih =>
    unfold pinsFrom at run
    split at run
    · cases run
    next fresh =>
      have apart : t ≠ p.temp := by
        rintro rfl
        exact fresh before
      split at run
      · cases run
      · exact ih run (List.mem_cons_of_mem _ before)
      · split at run
        · cases run
        · rw [ih run (List.mem_cons_of_mem _ before), IndexMap.get?_insert, if_neg apart]

/-- The parameter with the pin that a map gives it. -/
def Source.Param.repin (pins : IndexMap Color) (p : Param) : Param :=
  ⟨p.temp, ((pins.get? p.temp).bind Register.ofColor?).map (·.name)⟩

/-- Pins that are written out again give the same pins. -/
theorem pinsFrom_repin {func : String} {automatic : Bool} {position : Nat} {seen : List Temp}
    {params : List Param} {pins final : IndexMap Color}
    (run : pinsFrom func automatic position seen params pins = .ok final)
    (keys : ∀ t, t ∉ seen → pins.get? t = none) :
    pinsFrom func automatic position seen (params.map (·.repin final)) pins = .ok final := by
  induction params generalizing position seen pins with
  | nil => exact run
  | cons p rest ih =>
    unfold pinsFrom at run
    split at run
    · cases run
    next fresh =>
      rw [List.map_cons, pinsFrom, if_neg (show (p.repin final).temp ∉ seen from fresh)]
      split at run
      · cases run
      next unpinned =>
        have own : final.get? p.temp = none :=
          (pinsFrom_get? run List.mem_cons_self).trans (keys p.temp fresh)
        have again : pinOf func automatic position (p.repin final) = .ok none := by
          rw [← unpinned]
          unfold pinOf at unpinned ⊢
          split at unpinned
          · split at unpinned <;> cases unpinned
          next => simp [Param.repin, own]
        rw [again]
        exact ih run fun t outside => keys t fun member => outside (List.mem_cons_of_mem _ member)
      next r pinned =>
        split at run
        · cases run
        next c color =>
          have own : final.get? p.temp = some c := by
            rw [pinsFrom_get? run List.mem_cons_self, IndexMap.get?_insert, if_pos rfl]
          have again : pinOf func automatic position (p.repin final) = .ok (some r) := by
            simp [pinOf, Param.repin, own, Register.ofColor?_of_color? color,
              Register.ofName?_name]
          rw [again]
          simp only [color]
          refine ih run fun t outside => ?_
          have apart : t ≠ (p.repin final).temp := fun same =>
            outside (same ▸ List.mem_cons_self)
          rw [IndexMap.get?_insert, if_neg apart]
          exact keys t fun member => outside (List.mem_cons_of_mem _ member)

/-- The lines of blocks that all have a label. -/
def blockBody (named : List (String × List Statement)) : List Line :=
  named.flatMap fun block => .label block.1 :: block.2.map .statement

theorem cutFrom_statements {label? : Option String} {taken ss : List Statement}
    (closed : StatementsClosed (taken ++ ss)) (rest : List Line) :
    cutFrom label? taken (ss.map .statement ++ rest) = cutFrom label? (taken ++ ss) rest := by
  induction ss generalizing taken with
  | nil => rw [List.map_nil, List.nil_append, List.append_nil]
  | cons s ss ih =>
    have opened : taken.getLast?.any (·.isTerminator) = false := by
      cases ends : taken.getLast? with
      | none => rfl
      | some x =>
        obtain ⟨init, split⟩ := List.getLast?_eq_some_iff.mp ends
        by_contra stops
        have none := closed init x (s :: ss) (by rw [split]; simp) (by simpa using stops)
        cases none
    rw [List.map_cons, List.cons_append, cutFrom, if_neg (by rw [opened]; decide)]
    have later := @ih (taken ++ [s]) (by simpa using closed)
    rwa [List.append_assoc] at later

theorem cutFrom_blockBody {named : List (String × List Statement)}
    (closed : ∀ block ∈ named, StatementsClosed block.2) (label : String) (taken : List Statement) :
    cutFrom (some label) taken (blockBody named) =
      (some label, taken) :: named.map fun block => (some block.1, block.2) := by
  induction named generalizing label taken with
  | nil => rfl
  | cons block named ih =>
    have here := closed block List.mem_cons_self
    rw [blockBody, List.flatMap_cons, List.cons_append, cutFrom, if_neg (by simp),
      cutFrom_statements (by simpa using here), List.nil_append]
    rw [← blockBody, ih fun other member => closed other (List.mem_cons_of_mem _ member)]
    rfl

/-- Blocks with labels are cut where they were joined. -/
theorem cutBlocks_blockBody {named : List (String × List Statement)} (some : named ≠ [])
    (closed : ∀ block ∈ named, StatementsClosed block.2) :
    cutBlocks (blockBody named) = named.map fun block => (.some block.1, block.2) := by
  obtain ⟨block, rest, rfl⟩ := List.exists_cons_of_ne_nil some
  have here := closed block List.mem_cons_self
  rw [cutBlocks, blockBody, List.flatMap_cons, List.cons_append, cutFrom, if_pos (by simp),
    cutFrom_statements (by simpa using here), List.nil_append, ← blockBody,
    cutFrom_blockBody fun other member => closed other (List.mem_cons_of_mem _ member)]
  rfl

theorem nameFrom_labelled (func : String) (count : Nat) (named : List (String × List Statement)) :
    nameFrom func count (named.map fun block => (some block.1, block.2)) = named := by
  induction named with
  | nil => rfl
  | cons block named ih => rw [List.map_cons, nameFrom, ih]

theorem nameBlocks_labelled (func : String) (named : List (String × List Statement)) :
    nameBlocks func (named.map fun block => (some block.1, block.2)) = named := by
  cases named with
  | nil => rfl
  | cons block named =>
    rw [List.map_cons, nameBlocks, nameFrom_labelled]
    rfl

theorem isTerminator_statement (name : BlockId → String) (i : Instr) :
    (i.statement name).isTerminator = i.isTerminator := by
  cases i with
  | call dest callee args => cases dest <;> rfl
  | _ => rfl

theorem blockOf_getElem? {func : String} {labels : List String} (nodup : labels.Nodup)
    {b : BlockId} {label : String} (found : labels[b]? = some label) :
    blockOf func labels label = .ok b := by
  obtain ⟨bound, value⟩ := List.getElem?_eq_some_iff.mp found
  have place : labels.idxOf? label = some b := by
    refine List.idxOf?_eq_some_iff.mpr ⟨bound, value, fun j before same => ?_⟩
    have equal := (nodup.getElem_inj_iff).mp (same.trans value.symm)
    exact Nat.ne_of_lt before equal
  unfold blockOf
  rw [place]

/-- A statement made from an instruction resolves to it. -/
theorem resolveStatement_statement {func : String} {labels : List String} {name : BlockId → String}
    {i : Instr} (known : ∀ b ∈ i.targets, blockOf func labels (name b) = .ok b) :
    resolveStatement func labels (i.statement name) = .ok i := by
  cases i with
  | jump target =>
    rw [Instr.statement, resolveStatement, known target (by simp [Instr.targets])]
    rfl
  | branch cond yes no =>
    have first := known yes (mem_distinct.mpr (by simp))
    have second := known no (mem_distinct.mpr (by simp))
    rw [Instr.statement, resolveStatement, first]
    exact map_eq_ok.mpr ⟨no, second, rfl⟩
  | call dest callee args => cases dest <;> rfl
  | _ => rfl

theorem resolveStatements_statement {func : String} {labels : List String}
    {name : BlockId → String} {instrs : List Instr}
    (known : ∀ i ∈ instrs, ∀ b ∈ i.targets, blockOf func labels (name b) = .ok b) :
    resolveStatements func labels (instrs.map (·.statement name)) = .ok instrs := by
  induction instrs with
  | nil => rfl
  | cons i rest ih =>
    refine bind_eq_ok.mpr ⟨i, resolveStatement_statement (known i List.mem_cons_self), ?_⟩
    exact map_eq_ok.mpr ⟨rest, ih fun j member => known j (List.mem_cons_of_mem _ member), rfl⟩

theorem resolveBlocks_statement {func : String} {labels : List String} {name : BlockId → String}
    {blocks : List Block}
    (known : ∀ block ∈ blocks, ∀ i ∈ block.instrs, ∀ b ∈ i.targets,
      blockOf func labels (name b) = .ok b) :
    resolveBlocks func labels
        (blocks.map fun block => (block.label, block.instrs.map (·.statement name))) =
      .ok (blocks.map fun block => (block.label, block.instrs)) := by
  induction blocks with
  | nil => rfl
  | cons block rest ih =>
    have here := resolveStatements_statement (known block List.mem_cons_self)
    have later := ih fun other member => known other (List.mem_cons_of_mem _ member)
    exact bind_eq_ok.mpr ⟨block.instrs, here, map_eq_ok.mpr ⟨_, later, rfl⟩⟩

namespace Func

variable {f : Func}

/-- The labelled blocks of which the function consists. -/
def labelled (f : Func) : List (String × List Instr) :=
  f.blocks.map fun block => (block.label, block.instrs)

theorem link_labelled (linked : link f.blocks = .ok f.blocks)
    (ids : ∀ (b : BlockId) (block : Block), f.blocks[b]? = some block → block.id = b) :
    link (unlinked f.labelled) = .ok f.blocks := by
  have length : (unlinked f.labelled).length = f.blocks.length := by
    rw [unlinked, List.length_mapIdx, labelled, List.length_map]
  have place : ∀ b : BlockId, (unlinked f.labelled)[b]? =
      f.blocks[b]?.map fun block => ⟨b, block.label, block.instrs, [], []⟩ := by
    intro b
    rw [unlinked_getElem?, labelled, List.getElem?_map, Option.map_map]
    rfl
  have asked : edgesOf (unlinked f.labelled) = edgesOf f.blocks := by
    funext b
    unfold edgesOf
    rw [length, place]
    cases f.blocks[b]? <;> rfl
  obtain ⟨inside, stored⟩ := link_self.mp linked
  refine link_eq_ok.mpr ⟨?_, List.ext_getElem? fun b => ?_⟩
  · rw [asked, length]
    exact inside
  · rw [List.getElem?_mapIdx, place, asked, length]
    cases found : f.blocks[b]? with
    | none => rfl
    | some block =>
      obtain ⟨succs, preds⟩ := stored b block found
      rw [Option.map_some, Option.map_some, ← succs, ← preds, ← ids b block found]

/-- The blocks of the written form. -/
def writtenBlocks (f : Func) : List (String × List Statement) :=
  f.blocks.map fun block => (block.label, block.instrs.map (·.statement f.blockName))

/-- The blocks of the written form resolve to the blocks that were written. -/
theorem resolveBlocks_writtenBlocks (intact : f.Intact) :
    resolveBlocks f.name (f.blocks.map (·.label)) f.writtenBlocks = .ok f.labelled := by
  refine resolveBlocks_statement fun block inside i member b target => ?_
  have bound := intact.targets i (List.mem_flatMap.mpr ⟨block, inside, member⟩) b target
  have found := List.getElem?_eq_getElem bound
  refine blockOf_getElem? intact.labels ?_
  rw [List.getElem?_map, found, blockName, found]
  rfl

theorem toSource_body (f : Func) : f.toSource.body = blockBody f.writtenBlocks := by
  simp only [toSource, blockBody, writtenBlocks, List.flatMap_map, List.map_map]
  rfl

theorem writtenBlocks_closed (wf : f.WellFormed) :
    ∀ block ∈ f.writtenBlocks, StatementsClosed block.2 := by
  intro block member
  obtain ⟨old, inside, rfl⟩ := List.mem_map.mp member
  refine (wf.terminators old inside).of_map ?_
  rw [List.map_map]
  exact List.map_congr_left fun i _ => isTerminator_statement f.blockName i

theorem cutBlocks_toSource (wf : f.WellFormed) :
    cutBlocks f.toSource.body = f.writtenBlocks.map fun block => (some block.1, block.2) := by
  rw [toSource_body]
  exact cutBlocks_blockBody (by simpa [writtenBlocks] using wf.nonempty) (writtenBlocks_closed wf)

/-- The written form of a function resolves to the function. -/
theorem toSource_resolves (intact : f.Intact) (wf : f.WellFormed) (some : f.instrs ≠ [])
    {automatic : Bool}
    (pins : pinsFrom f.name automatic 0 [] (f.params.map f.writtenParam) ∅ = .ok f.pinned)
    (tempRoom : f.nextTemp ≤ maxIndex) (slotRoom : f.numSlots ≤ maxIndex) :
    ∃ h, Func.ofSource f.toSource automatic = .ok h ∧ h.name = f.name ∧ h.params = f.params ∧
      h.pinned = f.pinned ∧ h.blocks = f.blocks := by
  have named : nameBlocks f.name (cutBlocks f.toSource.body) = f.writtenBlocks := by
    rw [cutBlocks_toSource wf, nameBlocks_labelled]
  have labels : f.writtenBlocks.map (·.1) = f.blocks.map (·.label) := List.map_map
  have filled : (cutBlocks f.toSource.body).all (·.2.isEmpty) = false := by
    obtain ⟨i, rest, split⟩ := List.exists_cons_of_ne_nil some
    have member : i ∈ f.instrs := by rw [split]; exact List.mem_cons_self
    obtain ⟨block, inside, here⟩ := List.mem_flatMap.mp member
    rw [cutBlocks_toSource wf, List.all_eq_false]
    refine ⟨_, List.mem_map_of_mem (List.mem_map_of_mem inside), ?_⟩
    simpa using List.ne_nil_of_mem here
  let h : Func :=
    { f with
      spillTemps := ∅
      stackParams := ∅
      nextTemp := nextAbove f.allTemps.toList
      numSlots := nextAbove (f.instrs.filterMap Instr.slot?) }
  have params : (f.params.map f.writtenParam).map (·.temp) = f.params := by
    rw [List.map_map]
    exact List.map_id' f.params
  have built : h.Built f.name ((f.params.map f.writtenParam).map (·.temp)) f.pinned f.labelled := {
    name := rfl
    params := params.symm
    pinned := rfl
    linked := link_labelled wf.linked intact.ids
    spillTemps := rfl
    stackParams := rfl
    nextTemp := rfl
    numSlots := rfl
    tempRoom := Nat.le_trans (nextAbove_le fun t member =>
      wf.temps t (IndexSet.mem_toList.mp member)) tempRoom
    slotRoom := Nat.le_trans (nextAbove_le fun s member => by
      obtain ⟨i, inside, named⟩ := List.mem_filterMap.mp member
      exact wf.slots i inside s named) slotRoom }
  refine ⟨h, Func.ofSource_eq_ok.mpr ⟨f.pinned, f.labelled, pins, filled, ?_, ?_, built⟩, rfl, rfl,
    rfl, rfl⟩
  · show firstRepeat [] ((nameBlocks f.name (cutBlocks f.toSource.body)).map (·.1)) = none
    rw [named, labels]
    exact firstRepeat_eq_none.mpr ⟨intact.labels, fun _ _ => List.not_mem_nil⟩
  · show resolveBlocks f.name ((nameBlocks f.name (cutBlocks f.toSource.body)).map (·.1))
      (nameBlocks f.name (cutBlocks f.toSource.body)) = _
    rw [named, labels]
    exact resolveBlocks_writtenBlocks intact

end Func

end RegisterColoring
