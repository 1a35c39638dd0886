import Mathlib.Data.List.SplitBy
import RegisterColoring.Proofs.Acceptance
import RegisterColoring.Proofs.ReadBack

namespace RegisterColoring

open Source (Param Statement Line)

namespace Source

/-- The second line belongs to the same block as the first one above it. -/
def Line.continues : Line → Line → Bool
  | _, .label _ => false
  | .label _, .statement _ => true
  | .statement s, .statement _ => !s.isTerminator

namespace Func

/-- The longest pieces of the body in which every line continues the one above it. -/
def segments (f : Func) : List (List Line) := f.body.splitBy Line.continues

/-- The labels with which the segments start. -/
def headers (f : Func) : List (Option String) :=
  f.segments.map fun lines => lines.head?.bind Line.label?

/-- The name of segment `k` if it has no label. Behind the first segment such names are numbered. -/
def inventedName (func : String) (headers : List (Option String)) (k : Nat) : String :=
  if k = 0 then func ++ ".entry"
  else "." ++ func ++ "." ++ toString ((headers.take (k + 1)).tail.countP Option.isNone)

def blockNames (f : Func) : List String :=
  f.headers.mapIdx fun k label? => label?.getD (inventedName f.name f.headers k)

/-- The lines of a block, with its name if that is a label of the body. -/
def blockLines (f : Func) (block : String × List Statement) : List Line :=
  (if block.1 ∈ f.labels then [.label block.1] else []) ++ block.2.map .statement

/-- A function that can be resolved, as far as its text shows. -/
structure Resolvable (f : Func) : Prop where
  params : (f.params.map (·.temp)).Nodup
  pins : ∀ p ∈ f.params, p.Allocatable
  filled : f.statements ≠ []
  names : f.blockNames.Nodup
  jumps : ∀ label ∈ f.jumps, label ∈ f.blockNames
  temps : ∀ t ∈ f.temps, t < maxIndex
  slots : ∀ n ∈ f.slots, n < maxIndex

end Func

end Source

/-- The blocks of `f` are the segments of the body of `src`, and their edges go where its statements
lead. -/
structure Func.Transcribes (f : Func) (src : Source.Func) : Prop where
  name : f.name = src.name
  params : f.params = src.params.map (·.temp)
  labels : f.blocks.map (·.label) = src.blockNames
  segments : f.writtenBlocks.map src.blockLines = src.segments
  body : f.writtenBlocks.flatMap src.blockLines = src.body
  jumps : ∀ block ∈ f.blocks, ∀ i ∈ block.instrs, i.isTerminator = true → block.succs = i.targets
  falls : ∀ b block, f.blocks[b]? = some block → (∀ i ∈ block.instrs, i.isTerminator = false) →
    block.succs = if b + 1 < f.blocks.length then [b + 1] else []

/-- The lines of a piece that is cut from a body. -/
def cutLines (piece : Option String × List Statement) : List Line :=
  piece.1.toList.map .label ++ piece.2.map .statement

theorem head?_cutLines (piece : Option String × List Statement) :
    (cutLines piece).head?.bind Line.label? = piece.1 := by
  obtain ⟨label?, taken⟩ := piece
  cases label? with
  | some label => rfl
  | none => cases taken <;> rfl

/-- What is taken goes on with a statement unless it ends in a terminator. -/
theorem continues_statement {label? : Option String} {taken : List Statement} {line : Line}
    (last : line ∈ (cutLines (label?, taken)).getLast?) (s : Statement) :
    line.continues (.statement s) = !taken.getLast?.any (·.isTerminator) := by
  rcases List.eq_nil_or_concat taken with rfl | ⟨init, t, rfl⟩
  · cases label? with
    | none => cases last
    | some label =>
      cases last
      rfl
  · simp only [cutLines, List.concat_eq_append, List.map_append, List.map_cons, List.map_nil,
      ← List.append_assoc, List.getLast?_concat] at last ⊢
    cases last
    rfl

/-- Cutting splits what is taken and the lines below it into segments. -/
theorem cutFrom_lines {label? : Option String} {taken : List Statement} (body : List Line)
    (some : cutLines (label?, taken) ≠ [])
    (chain : (cutLines (label?, taken)).IsChain fun x y => x.continues y) :
    (cutFrom label? taken body).map cutLines =
      (cutLines (label?, taken) ++ body).splitBy Line.continues := by
  -- The lines that are taken are a segment so far, and the line below ends it or prolongs it.
  induction body generalizing label? taken with
  | nil => rw [cutFrom, List.append_nil, List.splitBy_of_isChain some chain]; rfl
  | cons line rest ih =>
    cases line with
    | label name =>
      have opened : ¬ (label?.isNone && taken.isEmpty) = true := by
        intro fresh
        obtain ⟨none, empty⟩ := Bool.and_eq_true_iff.mp fresh
        rw [Option.isNone_iff_eq_none.mp none, List.isEmpty_iff.mp empty] at some
        exact some rfl
      rw [cutFrom, if_neg opened, List.map_cons, ih (by simp [cutLines]) (by simp [cutLines]),
        List.splitBy_append_cons rest fun x _ => by cases x <;> rfl,
        List.splitBy_of_isChain some chain]
      rfl
    | statement s =>
      rw [cutFrom]
      split
      next stops =>
        rw [List.map_cons, ih (by simp [cutLines]) (by simp [cutLines]),
          List.splitBy_append_cons rest fun x last => by rw [continues_statement last, stops]; rfl,
          List.splitBy_of_isChain some chain]
        rfl
      next passes =>
        have prolonged : cutLines (label?, taken ++ [s]) =
            cutLines (label?, taken) ++ [.statement s] := by
          simp [cutLines]
        have longer : (cutLines (label?, taken ++ [s])).IsChain fun x y => x.continues y := by
          rw [prolonged, List.isChain_append]
          refine ⟨chain, List.isChain_singleton _, fun x last y next => ?_⟩
          cases next
          rw [continues_statement last, Bool.eq_false_iff.mpr passes]
          rfl
        rw [ih (by simp [cutLines]) longer, prolonged, List.append_assoc]
        rfl

theorem cutBlocks_lines {src : Source.Func} (some : src.body ≠ []) :
    (cutBlocks src.body).map cutLines = src.segments := by
  unfold Source.Func.segments cutBlocks
  cases body : src.body with
  | nil => exact absurd body some
  | cons line rest =>
    cases line with
    | label name => exact cutFrom_lines rest (by simp [cutLines]) (by simp [cutLines])
    | statement s => exact cutFrom_lines rest (by simp [cutLines]) (by simp [cutLines])

theorem cutBlocks_headers {src : Source.Func} (some : src.body ≠ []) :
    (cutBlocks src.body).map (·.1) = src.headers := by
  rw [Source.Func.headers, ← cutBlocks_lines some, List.map_map]
  exact List.map_congr_left fun piece _ => (head?_cutLines piece).symm

theorem nameFrom_eq (func : String) (count : Nat) (cut : List (Option String × List Statement)) :
    nameFrom func count cut = cut.mapIdx fun k piece =>
      (piece.1.getD ("." ++ func ++ "." ++
        toString (count + ((cut.map (·.1)).take (k + 1)).countP Option.isNone)), piece.2) := by
  induction cut generalizing count with
  | nil => rfl
  | cons piece rest ih =>
    obtain ⟨label?, taken⟩ := piece
    rw [List.mapIdx_cons]
    cases label? with
    | some label => simp [nameFrom, ih]
    | none => simp [nameFrom, ih, Nat.add_assoc, Nat.add_comm 1]

theorem nameBlocks_eq (func : String) (cut : List (Option String × List Statement)) :
    nameBlocks func cut = cut.mapIdx fun k piece =>
      (piece.1.getD (Source.Func.inventedName func (cut.map (·.1)) k), piece.2) := by
  cases cut with
  | nil => rfl
  | cons piece rest =>
    rw [nameBlocks, nameFrom_eq, List.mapIdx_cons]
    simp [Source.Func.inventedName]

theorem names_eq {src : Source.Func} (some : src.body ≠ []) :
    (nameBlocks src.name (cutBlocks src.body)).map (·.1) = src.blockNames := by
  rw [Source.Func.blockNames, ← cutBlocks_headers some, nameBlocks_eq]
  refine List.ext_getElem? fun k => ?_
  simp only [List.getElem?_map, List.getElem?_mapIdx, Option.map_map]
  rfl

/-- A name that is invented is no label, if names are different. -/
theorem blockLines_named {src : Source.Func}
    (nodup : ((nameBlocks src.name (cutBlocks src.body)).map (·.1)).Nodup) {k : Nat}
    {piece : Option String × List Statement} (found : (cutBlocks src.body)[k]? = some piece) :
    src.blockLines (piece.1.getD (Source.Func.inventedName src.name
      ((cutBlocks src.body).map (·.1)) k), piece.2) = cutLines piece := by
  have named : ∀ {j : Nat} {other}, (cutBlocks src.body)[j]? = some other →
      ((nameBlocks src.name (cutBlocks src.body)).map (·.1))[j]? = some (other.1.getD
        (Source.Func.inventedName src.name ((cutBlocks src.body).map (·.1)) j)) := by
    intro j other place
    rw [nameBlocks_eq, List.getElem?_map, List.getElem?_mapIdx, place]
    rfl
  have here := named found
  obtain ⟨label?, taken⟩ := piece
  cases label? with
  | some label =>
    have written : label ∈ src.labels := by
      rw [← filterMap_cutBlocks]
      exact List.mem_filterMap.mpr ⟨_, List.mem_of_getElem? found, rfl⟩
    exact congrArg (· ++ _) (if_pos written)
  | none =>
    refine congrArg (· ++ _) (if_neg fun written => ?_)
    rw [← filterMap_cutBlocks] at written
    obtain ⟨other, member, label⟩ := List.mem_filterMap.mp written
    obtain ⟨j, place⟩ := List.mem_iff_getElem?.mp member
    -- The piece with that label would be another one with the same name.
    have there := named place
    rw [label, Option.getD_some] at there
    obtain ⟨boundJ, valueJ⟩ := List.getElem?_eq_some_iff.mp there
    obtain ⟨boundK, valueK⟩ := List.getElem?_eq_some_iff.mp here
    have same : j = k := nodup.getElem_inj_iff.mp (valueJ.trans valueK.symm)
    rw [same, found] at place
    cases place
    cases label

section Written

variable {func : String} {labels : List String} {name : BlockId → String}
  (names : ∀ (b : BlockId) (label : String), labels[b]? = some label → name b = label)
include names

/-- The instruction of a statement is written as the statement. -/
theorem statement_resolveStatement {s : Statement} {i : Instr}
    (run : resolveStatement func labels s = .ok i) : i.statement name = s := by
  cases s with
  | assign dest value =>
    cases run
    cases value <;> rfl
  | goto label =>
    obtain ⟨b, found, rfl⟩ := map_eq_ok.mp run
    rw [Instr.statement, names b label (getElem?_of_blockOf found)]
  | branch cond yes no =>
    obtain ⟨y, first, inner⟩ := bind_eq_ok.mp run
    obtain ⟨n, second, rfl⟩ := map_eq_ok.mp inner
    rw [Instr.statement, names y yes (getElem?_of_blockOf first),
      names n no (getElem?_of_blockOf second)]
  | store | call | spillStore | ret =>
    cases run
    rfl

theorem statements_resolveStatements {body : List Statement} {instrs : List Instr}
    (run : resolveStatements func labels body = .ok instrs) :
    instrs.map (·.statement name) = body := by
  induction body generalizing instrs with
  | nil =>
    cases run
    rfl
  | cons s rest ih =>
    obtain ⟨i, first, run⟩ := bind_eq_ok.mp run
    obtain ⟨later, others, rfl⟩ := map_eq_ok.mp run
    rw [List.map_cons, statement_resolveStatement names first, ih others]

theorem written_resolveBlocks {named : List (String × List Statement)}
    {blocks : List (String × List Instr)} (run : resolveBlocks func labels named = .ok blocks) :
    blocks.map (fun block => (block.1, block.2.map (·.statement name))) = named := by
  induction named generalizing blocks with
  | nil =>
    cases run
    rfl
  | cons block rest ih =>
    obtain ⟨instrs, first, run⟩ := bind_eq_ok.mp run
    obtain ⟨later, others, rfl⟩ := map_eq_ok.mp run
    rw [List.map_cons, statements_resolveStatements names first, ih others]

end Written

theorem Func.Built.labelled_eq {name : String} {params : List Temp} {pinned : IndexMap Color}
    {blocks : List (String × List Instr)} {f : Func} (built : f.Built name params pinned blocks) :
    f.labelled = blocks := by
  have rows := congrArg (List.map (·.2)) (link_headings built.linked)
  rw [List.map_map, List.map_map] at rows
  refine rows.trans (List.ext_getElem? fun b => ?_)
  rw [List.getElem?_map, unlinked_getElem?]
  cases blocks[b]? <;> rfl

/-- The blocks are written as they were cut from the body. -/
theorem Func.ofSource_writtenBlocks {src : Source.Func} {automatic : Bool} {f : Func}
    (run : Func.ofSource src automatic = .ok f) :
    f.writtenBlocks = nameBlocks src.name (cutBlocks src.body) := by
  obtain ⟨pins, blocks, _, _, _, resolved, built⟩ := Func.ofSource_eq_ok.mp run
  have labelled := built.labelled_eq
  have names : ∀ (b : BlockId) (label : String),
      ((nameBlocks src.name (cutBlocks src.body)).map (·.1))[b]? = some label →
        f.blockName b = label := by
    intro b label found
    rw [← resolveBlocks_labels resolved, ← labelled, Func.labelled, List.map_map,
      List.getElem?_map] at found
    obtain ⟨block, place, same⟩ := Option.map_eq_some_iff.mp found
    rw [Func.blockName, place]
    exact same
  rw [← written_resolveBlocks names resolved, ← labelled, Func.labelled, List.map_map]
  rfl

namespace Source.Func

variable {src : Source.Func} {automatic : Bool}

theorem body_ne_nil (filled : src.statements ≠ []) : src.body ≠ [] := by
  intro empty
  rw [src.statements_eq, empty] at filled
  exact filled rfl

theorem accepted_iff : src.Accepted ↔ (src.params.map (·.temp)).Nodup ∧
    (∀ p ∈ src.params, p.Allocatable) ∧ src.statements ≠ [] ∧ src.blockNames.Nodup ∧
      ∀ label ∈ src.jumps, label ∈ src.blockNames := by
  constructor
  · rintro ⟨params, pins, filled, labels, apart, jumps⟩
    have names := names_eq (body_ne_nil filled)
    refine ⟨params, pins, filled, ?_, fun label jump => ?_⟩
    · rw [← names]
      exact (names_nodup src).mpr ⟨labels, apart⟩
    · rw [← names]
      exact mem_names.mpr (jumps label jump)
  · rintro ⟨params, pins, filled, nodup, jumps⟩
    rw [← names_eq (body_ne_nil filled)] at nodup jumps
    obtain ⟨labels, apart⟩ := (names_nodup src).mp nodup
    exact ⟨params, pins, filled, labels, apart, fun label jump => mem_names.mp (jumps label jump)⟩

/-- What was found to be in order becomes a function unless a counter is exhausted. -/
theorem Resolves.isOk_iff {pins : IndexMap Color} {blocks : List (String × List Instr)}
    (resolves : src.Resolves automatic pins blocks) :
    (∃ f, Func.ofSource src automatic = .ok f) ↔
      (∀ t ∈ src.temps, t < maxIndex) ∧ ∀ n ∈ src.slots, n < maxIndex := by
  have cases := Func.ofBlocks_cases src.name (src.params.map (·.temp)) pins resolves.targets_lt
  simp only [lt_nextAbove_iff, IndexSet.mem_toList, resolves.mem_allTemps, resolves.mem_slots]
    at cases
  rw [resolves.ofSource_eq]
  rcases cases with ⟨full, failed⟩ | ⟨room, built⟩
  · rw [failed]
    refine iff_of_false (fun ⟨f, run⟩ => by cases run) fun ⟨temps, slots⟩ => ?_
    rcases full with ⟨t, member, reaches⟩ | ⟨n, member, reaches⟩
    · exact Nat.not_lt.mpr reaches (temps t member)
    · exact Nat.not_lt.mpr reaches (slots n member)
  · refine iff_of_true built ⟨fun t member => ?_, fun n member => ?_⟩
    · exact Nat.lt_of_not_le fun reaches => room (Or.inl ⟨t, member, reaches⟩)
    · exact Nat.lt_of_not_le fun reaches => room (Or.inr ⟨n, member, reaches⟩)

theorem isOk_iff_resolvable : (∃ f, Func.ofSource src automatic = .ok f) ↔ src.Resolvable := by
  constructor
  · rintro ⟨f, run⟩
    obtain ⟨pins, blocks, pinned, filled, unique, resolved, _⟩ := Func.ofSource_eq_ok.mp run
    have resolves : src.Resolves automatic pins blocks := ⟨pinned, filled, unique, resolved⟩
    obtain ⟨params, allowed, some, names, jumps⟩ := accepted_iff.mp resolves.accepted
    obtain ⟨temps, slots⟩ := resolves.isOk_iff.mp ⟨f, run⟩
    exact ⟨params, allowed, some, names, jumps, temps, slots⟩
  · rintro ⟨params, allowed, some, names, jumps, temps, slots⟩
    obtain ⟨pins, blocks, resolves⟩ :=
      (accepted_iff.mpr ⟨params, allowed, some, names, jumps⟩).resolves automatic
    exact resolves.isOk_iff.mpr ⟨temps, slots⟩

end Source.Func

/-- Resolution succeeds for exactly the functions whose text is in order, and the function that it
gives is a transcript. -/
theorem Func.ofSource_transcribes (src : Source.Func) (automatic : Bool) :
    ((∃ f, Func.ofSource src automatic = .ok f) ↔ src.Resolvable) ∧
      ∀ f, Func.ofSource src automatic = .ok f → f.Transcribes src := by
  refine ⟨Source.Func.isOk_iff_resolvable, fun f run => ?_⟩
  have wf := Func.ofSource_wellFormed run
  have some := Source.Func.body_ne_nil (Source.Func.isOk_iff_resolvable.mp ⟨f, run⟩).filled
  have written := Func.ofSource_writtenBlocks run
  obtain ⟨pins, blocks, _, _, unique, _, built⟩ := Func.ofSource_eq_ok.mp run
  have nodup := (firstRepeat_eq_none.mp unique).1
  have segments : f.writtenBlocks.map src.blockLines = src.segments := by
    rw [written, ← cutBlocks_lines some, nameBlocks_eq]
    refine List.ext_getElem? fun k => ?_
    rw [List.getElem?_map, List.getElem?_mapIdx, List.getElem?_map]
    cases found : (cutBlocks src.body)[k]? with
    | none => rfl
    | some piece => exact congrArg Option.some (blockLines_named nodup found)
  exact {
    name := built.name
    params := built.params
    labels := by
      rw [← names_eq some, ← written, Func.writtenBlocks, List.map_map]
      rfl
    segments := segments
    body := by
      rw [List.flatMap_def, segments]
      exact List.flatten_splitBy _ _
    jumps := fun block member => by
      obtain ⟨b, found⟩ := List.mem_iff_getElem?.mp member
      exact (wf.block_succs found).1
    falls := fun b block found => (wf.block_succs found).2 }

/-- A body that opens with a label, jumps to an invented name, has a block without statements and
falls off its end. -/
def mixedSource : Source.Func :=
  ⟨"mix", [⟨0, some "rdi"⟩],
    [.label "start",
      .statement (.branch (.test (.temp 0)) ".mix.1" "end"),
      .statement (.assign 1 (.move (.const 1))),
      .label "empty",
      .label "end",
      .statement (.store 0 (.temp 0))]⟩

theorem mixedSource_transcribes : ∃ f, Func.ofSource mixedSource true = .ok f ∧
    mixedSource.Resolvable ∧ f.Transcribes mixedSource ∧
    mixedSource.blockNames = ["start", ".mix.1", "empty", "end"] ∧
    f.blocks.map (·.succs) = [[1, 3], [2], [3], []] := by
  have result : (Func.ofSource mixedSource true).map
      (fun f => (f.blocks.map (·.label), f.blocks.map (·.succs))) =
      .ok (["start", ".mix.1", "empty", "end"], [[1, 3], [2], [3], []]) := by decide +kernel
  obtain ⟨f, run, values⟩ := map_eq_ok.mp result
  obtain ⟨labels, succs⟩ := Prod.mk.inj values
  obtain ⟨accepts, transcribes⟩ := Func.ofSource_transcribes mixedSource true
  have transcript := transcribes f run
  exact ⟨f, run, accepts.mp ⟨f, run⟩, transcript, transcript.labels.symm.trans labels, succs⟩

end RegisterColoring
