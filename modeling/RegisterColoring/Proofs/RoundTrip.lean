import RegisterColoring.Proofs.NormalForm
import RegisterColoring.Proofs.ReadBack

namespace RegisterColoring

open Source (Statement Line Expr)

/-- An instruction whose constants and callee a text can spell. -/
structure Instr.Spelled (i : Instr) : Prop where
  operands : ∀ x ∈ i.operands, x.Spelled
  callee : ∀ name, i.callee? = some name → IsIdent name

/-- A function whose names and constants a text can spell. -/
structure Func.Spelled (f : Func) : Prop where
  name : IsIdent f.name
  labels : ∀ block ∈ f.blocks, IsIdent block.label
  instrs : ∀ i ∈ f.instrs, i.Spelled

theorem Instr.Spelled.of_operands {i : Instr} (operands : ∀ x ∈ i.operands, x.Spelled)
    (other : i.callee? = none) : i.Spelled := by
  refine ⟨operands, fun name call => ?_⟩
  rw [other] at call
  cases call

theorem Instr.callee?_mapTargets (r : BlockId → BlockId) (i : Instr) :
    (i.mapTargets r).callee? = i.callee? := by
  cases i <;> rfl

theorem instr_spelled {e : Expr} (spelled : e.Spelled) (dest : Temp) : (e.instr dest).Spelled := by
  cases e with
  | binary op left right =>
    refine .of_operands (fun x member => ?_) rfl
    rcases List.mem_cons.mp member with rfl | later
    · exact spelled.1
    · rw [List.mem_singleton.mp later]
      exact spelled.2
  | unary op arg =>
    refine .of_operands (fun x member => ?_) rfl
    rw [List.mem_singleton.mp member]
    exact spelled
  | move arg =>
    refine .of_operands (fun x member => ?_) rfl
    rw [List.mem_singleton.mp member]
    exact spelled
  | call callee args =>
    refine ⟨spelled.2, fun name same => ?_⟩
    cases same
    exact spelled.1
  | load addr | addrOf var =>
    refine .of_operands (fun x member => ?_) rfl
    rw [List.mem_singleton.mp member]
    trivial
  | slotAddr slot | spillLoad slot =>
    exact .of_operands (fun x member => absurd member List.not_mem_nil) rfl

theorem resolveStatement_spelled {func : String} {labels : List String} {s : Statement} {i : Instr}
    (spelled : s.Spelled) (run : resolveStatement func labels s = .ok i) : i.Spelled := by
  cases s with
  | assign dest value =>
    cases run
    exact instr_spelled spelled dest
  | store addr value =>
    cases run
    refine .of_operands (fun x member => ?_) rfl
    rcases List.mem_cons.mp member with rfl | later
    · trivial
    · rw [List.mem_singleton.mp later]
      exact spelled
  | call callee args =>
    cases run
    refine ⟨spelled.2, fun name same => ?_⟩
    cases same
    exact spelled.1
  | spillStore slot value =>
    cases run
    refine .of_operands (fun x member => ?_) rfl
    rw [List.mem_singleton.mp member]
    trivial
  | goto label =>
    obtain ⟨b, _, rfl⟩ := map_eq_ok.mp run
    exact .of_operands (fun x member => absurd member List.not_mem_nil) rfl
  | branch cond yes no =>
    obtain ⟨y, _, inner⟩ := bind_eq_ok.mp run
    obtain ⟨n, _, rfl⟩ := map_eq_ok.mp inner
    exact .of_operands spelled rfl
  | ret value =>
    cases run
    exact .of_operands (fun x member => spelled x (Option.mem_toList.mp member)) rfl

theorem resolveStatements_spelled {func : String} {labels : List String} {body : List Statement}
    {instrs : List Instr} (spelled : ∀ s ∈ body, s.Spelled)
    (run : resolveStatements func labels body = .ok instrs) : ∀ i ∈ instrs, i.Spelled := by
  induction body generalizing instrs with
  | nil =>
    cases run
    exact fun i member => absurd member List.not_mem_nil
  | cons s rest ih =>
    obtain ⟨i, first, run⟩ := bind_eq_ok.mp run
    obtain ⟨later, others, rfl⟩ := map_eq_ok.mp run
    intro j member
    rcases List.mem_cons.mp member with rfl | inside
    · exact resolveStatement_spelled (spelled s List.mem_cons_self) first
    · exact ih (fun t found => spelled t (List.mem_cons_of_mem _ found)) others j inside

/-- Blocks as they are cut from a body. -/
def SpelledBlock (block : Option String × List Statement) : Prop :=
  (∀ label, block.1 = some label → IsIdent label) ∧ ∀ s ∈ block.2, s.Spelled

theorem cutFrom_spelled {label? : Option String} {taken : List Statement} {body : List Line}
    (current : SpelledBlock (label?, taken)) (spelled : ∀ line ∈ body, line.Spelled) :
    ∀ block ∈ cutFrom label? taken body, SpelledBlock block := by
  induction body generalizing label? taken with
  | nil =>
    intro block member
    rw [cutFrom, List.mem_singleton] at member
    rw [member]
    exact current
  | cons line rest ih =>
    have here := spelled line List.mem_cons_self
    have later : ∀ other ∈ rest, other.Spelled := fun other member =>
      spelled other (List.mem_cons_of_mem _ member)
    cases line with
    | label name =>
      have fresh : SpelledBlock (some name, []) := by
        refine ⟨fun label same => ?_, fun s member => absurd member List.not_mem_nil⟩
        cases same
        exact here
      unfold cutFrom
      split
      · exact ih fresh later
      · intro block member
        rcases List.mem_cons.mp member with rfl | inside
        · exact current
        · exact ih fresh later block inside
    | statement s =>
      unfold cutFrom
      split
      · have fresh : SpelledBlock (none, [s]) := by
          refine ⟨fun label same => (by cases same), fun t member => ?_⟩
          rw [List.mem_singleton.mp member]
          exact here
        intro block member
        rcases List.mem_cons.mp member with rfl | inside
        · exact current
        · exact ih fresh later block inside
      · refine ih ⟨current.1, fun t member => ?_⟩ later
        rcases List.mem_append.mp member with old | new
        · exact current.2 t old
        · rw [List.mem_singleton.mp new]
          exact here

theorem nameFrom_isIdent {func : String} (ident : IsIdent func) {count : Nat}
    {cut : List (Option String × List Statement)} (spelled : ∀ block ∈ cut, SpelledBlock block) :
    ∀ block ∈ nameFrom func count cut, IsIdent block.1 := by
  induction cut generalizing count with
  | nil => exact fun block member => absurd member List.not_mem_nil
  | cons first rest ih =>
    have later : ∀ other ∈ rest, SpelledBlock other := fun other member =>
      spelled other (List.mem_cons_of_mem _ member)
    obtain ⟨label?, body⟩ := first
    intro block member
    cases label? with
    | none =>
      rw [nameFrom, List.mem_cons] at member
      rcases member with rfl | inside
      · exact ident.numbered (count + 1)
      · exact ih later block inside
    | some label =>
      rw [nameFrom, List.mem_cons] at member
      rcases member with rfl | inside
      · exact (spelled _ List.mem_cons_self).1 label rfl
      · exact ih later block inside

theorem nameBlocks_isIdent {func : String} (ident : IsIdent func)
    {cut : List (Option String × List Statement)} (spelled : ∀ block ∈ cut, SpelledBlock block) :
    ∀ block ∈ nameBlocks func cut, IsIdent block.1 := by
  cases cut with
  | nil => exact fun block member => absurd member List.not_mem_nil
  | cons first rest =>
    obtain ⟨label?, body⟩ := first
    intro block member
    rw [nameBlocks, List.mem_cons] at member
    rcases member with rfl | inside
    · cases label? with
      | none => exact ident.entry
      | some label => exact (spelled _ List.mem_cons_self).1 label rfl
    · exact nameFrom_isIdent ident
        (fun other found => spelled other (List.mem_cons_of_mem _ found)) block inside

namespace Func

theorem ofSource_spelled {src : Source.Func} {automatic : Bool} {f : Func} (written : src.Spelled)
    (run : Func.ofSource src automatic = .ok f) : f.Spelled := by
  obtain ⟨pins, blocks, _, _, _, resolved, built⟩ := Func.ofSource_eq_ok.mp run
  have start : SpelledBlock (none, []) :=
    ⟨fun label same => (by cases same), fun s member => absurd member List.not_mem_nil⟩
  have cut : ∀ block ∈ cutBlocks src.body, SpelledBlock block := cutFrom_spelled start written.body
  refine ⟨?_, fun block member => ?_, fun i member => ?_⟩
  · rw [built.name]
    exact written.name
  · have heading : (block.id, block.label) ∈ f.headings := List.mem_map_of_mem member
    rw [built.headings_eq] at heading
    obtain ⟨b, bound, same⟩ := List.mem_mapIdx.mp heading
    have label : block.label ∈ blocks.map (·.1) := by
      rw [← (Prod.mk.inj same).2]
      exact List.mem_map_of_mem (List.getElem_mem bound)
    rw [resolveBlocks_labels resolved] at label
    obtain ⟨named, inside, same⟩ := List.mem_map.mp label
    rw [← same]
    exact nameBlocks_isIdent written.name cut named inside
  · obtain ⟨block, inside, here⟩ := List.mem_flatMap.mp member
    have row : block.instrs ∈ blocks.map (·.2) := by
      rw [← built.instrs_eq]
      exact List.mem_map_of_mem inside
    obtain ⟨labelled, found, same⟩ := List.mem_map.mp row
    obtain ⟨named, place, body⟩ := mem_resolveBlocks resolved found
    obtain ⟨old, oldPlace, statements⟩ := mem_nameBlocks place
    rw [← statements] at body
    rw [← same] at here
    exact resolveStatements_spelled (cut old oldPlace).2 body i here

variable {f g : Func}

theorem Prunes.mem_labels {r : BlockId → BlockId} (prunes : Prunes f g r) (wf : f.WellFormed)
    {image : Block} (member : image ∈ g.blocks) :
    ∃ block ∈ f.blocks, block.label = image.label := by
  obtain ⟨c, place⟩ := List.mem_iff_getElem?.mp member
  obtain ⟨b, reach, rfl, block, found, _⟩ := prunes.origin wf place
  have heading := prunes.headings b reach _ _ (headings_getElem? found)
  have same := Option.some.inj ((headings_getElem? place).symm.trans heading)
  exact ⟨block, List.mem_of_getElem? found, (Prod.mk.inj same).2.symm⟩

theorem Prunes.spelled {r : BlockId → BlockId} (prunes : Prunes f g r) (wf : f.WellFormed)
    (spelled : f.Spelled) : g.Spelled := by
  refine ⟨?_, fun image member => ?_, fun i member => ?_⟩
  · rw [prunes.fields]
    exact spelled.name
  · obtain ⟨block, inside, same⟩ := prunes.mem_labels wf member
    rw [← same]
    exact spelled.labels block inside
  · obtain ⟨old, inside, rfl⟩ := prunes.mem_instrs wf member
    obtain ⟨operands, callee⟩ := spelled.instrs old inside
    refine ⟨?_, ?_⟩
    · rwa [Instr.operands_mapTargets]
    · rwa [Instr.callee?_mapTargets]

theorem TrimsStar.spelled (trims : f.TrimsStar g) (spelled : f.Spelled) : g.Spelled := by
  refine ⟨?_, fun block member => ?_, fun i member => spelled.instrs i (trims.instrs_subset member)⟩
  · rw [trims.fields]
    exact spelled.name
  · have heading : (block.id, block.label) ∈ g.headings := List.mem_map_of_mem member
    rw [trims.headings_eq] at heading
    obtain ⟨old, inside, same⟩ := List.mem_map.mp heading
    rw [← (Prod.mk.inj same).2]
    exact spelled.labels old inside

/-- An elimination removes instructions of the function. -/
theorem mem_eliminated {bound : Nat} {d : DeadCode} (wf : f.WellFormed)
    (run : DeadCode.eliminate bound f = (g, .ok d)) {e : Eliminated} (member : e ∈ d.eliminated) :
    e.instr ∈ f.instrs := by
  obtain ⟨more, eliminated, split, _⟩ := (DeadCode.eliminateFrom_removes wf run).split
  rw [eliminated, List.nil_append] at member
  exact mem_stream (split.mem_iff.mpr (List.mem_append_left _ member))

/-- What prunings and eliminations that succeed make of a function, with all the instructions that
the eliminations have removed. -/
inductive Cleaned (first : Func) : Func → List Eliminated → Prop
  | start : Cleaned first first []
  | prune {f g : Func} {gone : List Eliminated} {n : Nat} :
      Cleaned first f gone → f.pruneUnreachable = .ok (n, g) → Cleaned first g gone
  | eliminate {f g : Func} {gone : List Eliminated} {bound : Nat} {d : DeadCode} :
      Cleaned first f gone → DeadCode.eliminate bound f = (g, .ok d) →
      Cleaned first g (gone ++ d.eliminated)

theorem Cleaned.derived {first : Func} {gone : List Eliminated} (cleaned : first.Cleaned f gone)
    (start : first.Derived) : f.Derived := by
  induction cleaned with
  | start => exact start
  | prune _ run ih => exact .prune ih run
  | eliminate _ run ih => exact .eliminate ih run

theorem Cleaned.fields {first : Func} {gone : List Eliminated} (cleaned : first.Cleaned f gone)
    (start : first.Derived) : f = { first with blocks := f.blocks } := by
  induction cleaned with
  | start => rfl
  | prune before run ih =>
    obtain ⟨n, h, r, pruned, prunes⟩ := pruneUnreachable_prunes (before.derived start).wellFormed
    cases pruned.symm.trans run
    have last := prunes.fields
    rw [ih] at last
    exact last
  | eliminate before run ih =>
    have last := (DeadCode.eliminateFrom_trims (before.derived start).wellFormed run).1.fields
    rw [ih] at last
    exact last

/-- What is left can be spelled, and what was removed too. -/
theorem Cleaned.spelled {first : Func} {gone : List Eliminated} (cleaned : first.Cleaned f gone)
    (start : first.Derived) (spelled : first.Spelled) :
    f.Spelled ∧ ∀ e ∈ gone, e.instr.Spelled := by
  induction cleaned with
  | start => exact ⟨spelled, fun e member => absurd member List.not_mem_nil⟩
  | prune before run ih =>
    have wf := (before.derived start).wellFormed
    obtain ⟨n, h, r, pruned, prunes⟩ := pruneUnreachable_prunes wf
    cases pruned.symm.trans run
    exact ⟨prunes.spelled wf ih.1, ih.2⟩
  | eliminate before run ih =>
    have wf := (before.derived start).wellFormed
    have trims := (DeadCode.eliminateFrom_trims wf run).1
    refine ⟨trims.spelled ih.1, fun e member => ?_⟩
    rcases List.mem_append.mp member with old | new
    · exact ih.2 e old
    · exact ih.1.instrs e.instr (mem_eliminated wf run new)

theorem Spelled.readable (spelled : f.Spelled) (wf : f.WellFormed)
    (tempRoom : f.nextTemp ≤ maxIndex) (slotRoom : f.numSlots ≤ maxIndex) : f.Readable := by
  have small : ∀ t ∈ f.allTemps, t ≤ maxIndex := fun t member =>
    Nat.le_of_lt (Nat.lt_of_lt_of_le (wf.temps t member) tempRoom)
  have named : ∀ i ∈ f.instrs, ∀ t ∈ i.temps, t ≤ maxIndex := fun i inside t member =>
    small t (mem_allTemps.mpr (Or.inr (Or.inr ⟨i, inside, member⟩)))
  refine ⟨spelled.name, spelled.labels, fun p param => ?_, fun i inside => ?_⟩
  · exact small p (mem_allTemps.mpr (Or.inr (Or.inl param)))
  · obtain ⟨operands, callee⟩ := spelled.instrs i inside
    refine ⟨fun t writes => ?_, fun x member => ?_, fun s slot => ?_, callee⟩
    · exact named i inside t (Instr.mem_temps.mpr (Or.inl writes))
    · cases x with
      | const n => exact operands _ member
      | temp t =>
        exact named i inside t (Instr.mem_temps.mpr (Or.inr (Instr.mem_uses.mpr member)))
    · exact Nat.le_of_lt (Nat.lt_of_lt_of_le (wf.slots i inside s slot) slotRoom)

end Func

/-- A listing of a written function, of its liveness or of its dead code is a text of one function,
and this function resolves to what was listed. -/
theorem Func.listing_reads_back {text : String} {program : List Source.Func} {src : Source.Func}
    {automatic : Bool} {first f : Func} {gone : List Eliminated}
    (read : Source.parse text = .ok program) (member : src ∈ program)
    (resolved : Func.ofSource src automatic = .ok first) (cleaned : first.Cleaned f gone)
    (some : f.instrs ≠ []) :
    ∃ back h, Source.parse f.listing = .ok [back] ∧
      (∀ l : Liveness, Source.parse (l.report f) = .ok [back]) ∧
      (∀ shown, shown ⊆ gone → Source.parse (f.deadCodeReport shown) = .ok [back]) ∧
      Func.ofSource back automatic = .ok h ∧ h.name = f.name ∧ h.params = f.params ∧
      h.pinned = f.pinned ∧ h.blocks = f.blocks := by
  have start : first.Derived := .source resolved
  have derived := cleaned.derived start
  have fields := cleaned.fields start
  obtain ⟨spelled, removed⟩ := cleaned.spelled start
    (ofSource_spelled (Source.parse_spelled read src member) resolved)
  obtain ⟨pins, blocks, pinned, _, _, _, built⟩ := Func.ofSource_eq_ok.mp resolved
  have tempRoom : f.nextTemp ≤ maxIndex := by rw [fields]; exact built.tempRoom
  have slotRoom : f.numSlots ≤ maxIndex := by rw [fields]; exact built.slotRoom
  have readable := spelled.readable derived.wellFormed tempRoom slotRoom
  -- The header writes every pin out, also those that were given by position.
  have repinned :
      pinsFrom f.name automatic 0 [] (f.params.map f.writtenParam) ∅ = .ok f.pinned := by
    have name : f.name = src.name := by rw [fields]; exact built.name
    have params : f.params = src.params.map (·.temp) := by rw [fields]; exact built.params
    have pinsEq : f.pinned = pins := by rw [fields]; exact built.pinned
    have written : f.params.map f.writtenParam = src.params.map (·.repin pins) := by
      rw [params, List.map_map, ← pinsEq]
      rfl
    rw [name, written, pinsEq]
    exact pinsFrom_repin pinned fun t _ => rfl
  obtain ⟨h, again, same⟩ := toSource_resolves derived.intact derived.wellFormed some repinned
    tempRoom slotRoom
  refine ⟨f.toSource, h, readable.parse_listing, readable.parse_liveness, fun shown part => ?_,
    again, same⟩
  exact readable.parse_deadCode fun e inside => (removed e (part inside)).callee

/-- A text with a pin, a block that nothing reaches and two values that nobody reads. Of the blocks
without a label, the second one is named by the number it gets. -/
def spareText : String :=
  "fn spare(t0, t1: %rax) \x7b t2 <- t0 + $-7; t3 <- call g(t1, $-1,); " ++
  "if t3 < t1 goto done else .spare.2; t4 <- $0; goto done; " ++
  "t5 <- -t1; goto spare.entry; done: ret t3; // the end\n\x7d"

def spareSource : Source.Func :=
  ⟨"spare", [⟨0, none⟩, ⟨1, some "%rax"⟩],
    [.statement (.assign 2 (.binary .add (.temp 0) (.const (-7)))),
      .statement (.assign 3 (.call "g" [.temp 1, .const (-1)])),
      .statement (.branch (.compare .less (.temp 3) (.temp 1)) "done" ".spare.2"),
      .statement (.assign 4 (.move (.const 0))),
      .statement (.goto "done"),
      .statement (.assign 5 (.unary .neg (.temp 1))),
      .statement (.goto "spare.entry"),
      .label "done",
      .statement (.ret (some (.temp 3)))]⟩

theorem spareText_reads_back : ∃ first pruned f d back h,
    Source.parse spareText = .ok [spareSource] ∧ Func.ofSource spareSource true = .ok first ∧
    first.pruneUnreachable = .ok (1, pruned) ∧ DeadCode.eliminate 9 pruned = (f, .ok d) ∧
    d.eliminated.length = 2 ∧ f.instrs.length = 4 ∧
    Source.parse f.listing = .ok [back] ∧ Source.parse (d.liveness.report f) = .ok [back] ∧
    Source.parse (f.deadCodeReport d.eliminated) = .ok [back] ∧
    Func.ofSource back true = .ok h ∧ h.pinned = f.pinned ∧ h.blocks = f.blocks := by
  -- The text is read in its three parts, with the states of the reader in between.
  have first : (Source.State.top []).run (tokensOf
      "fn spare(t0, t1: %rax) \x7b t2 <- t0 + $-7; t3 <- call g(t1, $-1,); ".toList) =
      some (.body [] "spare" spareSource.params (spareSource.body.take 2) .start) := by
    decide +kernel
  have second : (Source.State.body [] "spare" spareSource.params (spareSource.body.take 2)
      .start).run (tokensOf "if t3 < t1 goto done else .spare.2; t4 <- $0; goto done; ".toList) =
      some (.body [] "spare" spareSource.params (spareSource.body.take 5) .start) := by
    decide +kernel
  have third : (Source.State.body [] "spare" spareSource.params (spareSource.body.take 5)
      .start).run (tokensOf
        "t5 <- -t1; goto spare.entry; done: ret t3; // the end\n\x7d".toList) =
      some (.top [spareSource]) := by decide +kernel
  have read : Source.parse spareText = .ok [spareSource] := by
    have both := (Source.State.run_text (by decide +kernel) first _).trans second
    rw [Source.parse_eq_run, scan_tokens]
    exact (Source.State.run_text (by decide +kernel) both _).trans third
  have result : (Func.ofSource spareSource true).bind (fun first =>
      first.pruneUnreachable.bind fun result =>
        (DeadCode.eliminate 9 result.2).2.map fun d =>
          (result.1, d.eliminated.length, (DeadCode.eliminate 9 result.2).1.instrs.length)) =
      .ok (1, 2, 4) := by decide +kernel
  obtain ⟨first, resolved, result⟩ := bind_eq_ok.mp result
  obtain ⟨⟨n, pruned⟩, prune, result⟩ := bind_eq_ok.mp result
  obtain ⟨d, outcome, values⟩ := map_eq_ok.mp result
  simp only [Prod.mk.injEq] at values
  obtain ⟨rfl, removed, left⟩ := values
  have eliminate : DeadCode.eliminate 9 pruned = ((DeadCode.eliminate 9 pruned).1, .ok d) :=
    Prod.ext rfl outcome
  have cleaned := (Func.Cleaned.start.prune prune).eliminate eliminate
  have some : (DeadCode.eliminate 9 pruned).1.instrs ≠ [] := by
    intro none
    rw [none] at left
    cases left
  obtain ⟨back, h, listing, liveness, deadCode, again, _, _, pinned, blocks⟩ :=
    Func.listing_reads_back read List.mem_cons_self resolved cleaned some
  exact ⟨first, pruned, _, d, back, h, read, resolved, prune, eliminate, removed, left, listing,
    liveness d.liveness, deadCode _ fun e member => member, again, pinned, blocks⟩

end RegisterColoring
