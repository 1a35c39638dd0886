import RegisterColoring.Proofs.ResolutionErrors

namespace RegisterColoring

namespace Source

/-- Resolution gets to the labels: the parameters are in order, and there is a statement. -/
def Func.ReachesLabels (src : Func) (automatic : Bool) : Prop :=
  (∃ pins, pinsFrom src.name automatic 0 [] src.params ∅ = .ok pins) ∧ src.statements ≠ []

/-- Labels count as written: one is repeated only if some label stands on two lines, and every
jump that is accepted leads to a line with its label. -/
def Func.ResolvedAsWritten (src : Func) (automatic : Bool) : Prop :=
  (∀ label, Func.ofSource src automatic = .error (.malformed src.name (.duplicateLabel label)) →
    ∃ twice, 2 ≤ src.labels.count twice) ∧
  ∀ f, Func.ofSource src automatic = .ok f → ∀ label ∈ src.jumps, label ∈ src.labels

end Source

/-- The outcomes of resolution that are no function. -/
theorem Func.ofSource_error {src : Source.Func} {automatic : Bool} {e : Failure}
    (run : Func.ofSource src automatic = .error e) :
    (∃ reason, e = .malformed src.name reason ∧ ∀ label, reason ≠ .duplicateLabel label) ∨
      (∃ label, e = .malformed src.name (.duplicateLabel label) ∧ src.ReachesLabels automatic ∧
        ¬ ((nameBlocks src.name (cutBlocks src.body)).map (·.1)).Nodup) ∨
      ∃ reason, e = .fault reason := by
  unfold Func.ofSource at run
  rcases bind_eq_error.mp run with failed | ⟨pins, pinned, run⟩
  · exact .inl (pinsFrom_error failed)
  · simp only at run
    split at run
    · cases run
      exact .inl ⟨_, rfl, fun label same => by cases same⟩
    · rename_i some
      split at run
      next label repeated =>
        cases run
        refine .inr (.inl ⟨label, rfl, ⟨⟨pins, pinned⟩, fun none => some ?_⟩, fun nodup => ?_⟩)
        · exact (cutBlocks_all_isEmpty src).mpr none
        · have unique := firstRepeat_eq_none.mpr ⟨nodup, fun _ _ => List.not_mem_nil⟩
          cases unique.symm.trans repeated
      next =>
        rcases bind_eq_error.mp run with failed | ⟨blocks, _, failed⟩
        · obtain ⟨label, same⟩ := resolveBlocks_error failed
          exact .inl ⟨_, same, fun label same => by cases same⟩
        · exact .inr (.inr (Func.ofBlocks_error failed))

/-- Names that occur twice are reported, once resolution gets to them. -/
theorem Func.ofSource_duplicateLabel {src : Source.Func} {automatic : Bool}
    (reaches : src.ReachesLabels automatic)
    (repeats : ¬ ((nameBlocks src.name (cutBlocks src.body)).map (·.1)).Nodup) :
    ∃ label, Func.ofSource src automatic = .error (.malformed src.name (.duplicateLabel label)) := by
  obtain ⟨⟨pins, pinned⟩, some⟩ := reaches
  have filled : ¬ (cutBlocks src.body).all (·.2.isEmpty) = true :=
    fun empty => some ((cutBlocks_all_isEmpty src).mp empty)
  cases found : firstRepeat [] ((nameBlocks src.name (cutBlocks src.body)).map (·.1)) with
  | none => exact absurd (firstRepeat_eq_none.mp found).1 repeats
  | some label =>
    refine ⟨label, ?_⟩
    unfold Func.ofSource
    simp only [pinned, Except.bind, if_neg filled, found]

/-- Labels count as written for exactly the functions that make no use of an invented name: no
label is one, and no jump of an accepted body leads to one. -/
theorem Source.Func.resolvedAsWritten_iff (src : Source.Func) (automatic : Bool) :
    src.ResolvedAsWritten automatic ↔
      (src.ReachesLabels automatic → src.labels.Nodup →
        ∀ label ∈ src.labels, label ∉ src.invented) ∧
      ∀ f, Func.ofSource src automatic = .ok f → ∀ label ∈ src.jumps, label ∉ src.invented := by
  have accepted : ∀ f, Func.ofSource src automatic = .ok f →
      (∀ label ∈ src.labels, label ∉ src.invented) ∧
        ∀ label ∈ src.jumps, label ∈ src.labels ∨ label ∈ src.invented := by
    intro f run
    obtain ⟨pins, blocks, _, _, unique, resolved, _⟩ := Func.ofSource_eq_ok.mp run
    refine ⟨((names_nodup src).mp (firstRepeat_eq_none.mp unique).1).2, fun label member => ?_⟩
    rw [← List.mem_append, ← (nameBlocks_perm src).mem_iff]
    refine resolveBlocks_jumps resolved label ?_
    rwa [flatMap_nameBlocks]
  constructor
  · rintro ⟨reported, led⟩
    refine ⟨fun reaches nodup => ?_, fun f run label member invented => ?_⟩
    · by_contra confused
      obtain ⟨label, run⟩ := Func.ofSource_duplicateLabel reaches
        fun unique => confused ((names_nodup src).mp unique).2
      obtain ⟨twice, count⟩ := reported label run
      have once := List.nodup_iff_count_le_one.mp nodup twice
      omega
    · exact (accepted f run).1 label (led f run label member) invented
  · rintro ⟨apart, led⟩
    refine ⟨fun label run => ?_, fun f run label member => ?_⟩
    · rcases Func.ofSource_error run with ⟨reason, same, other⟩ | ⟨_, _, reaches, repeats⟩ | ⟨_, same⟩
      · cases same
        exact absurd rfl (other label)
      · by_contra once
        have nodup : src.labels.Nodup := List.nodup_iff_count_le_one.mpr fun twice => by
          have few := not_exists.mp once twice
          omega
        exact repeats ((names_nodup src).mpr ⟨nodup, apart reaches nodup⟩)
      · cases same
    · exact ((accepted f run).2 label member).resolve_right (led f run label member)

/-- A body without labels that jumps to the name of its entry. -/
def jumpToEntry : Source.Func := ⟨"f", [], [.statement (.goto "f.entry")]⟩

/-- A body whose only label is the name of its entry. -/
def labelledEntry : Source.Func :=
  ⟨"f", [], [.statement (.assign 0 (.move (.const 1))), .label "f.entry",
    .statement (.ret (some (.temp 0)))]⟩

/-- Invented names get in the way of written ones: a jump to a label that is not written is
accepted, and a label that is written once counts as repeated. -/
theorem invented_names_confused :
    ((∃ f, Func.ofSource jumpToEntry false = .ok f) ∧ jumpToEntry.labels = [] ∧
      jumpToEntry.jumps = ["f.entry"]) ∧
    (Func.ofSource labelledEntry false = .error (.malformed "f" (.duplicateLabel "f.entry")) ∧
      labelledEntry.labels = ["f.entry"]) ∧
    ¬ jumpToEntry.ResolvedAsWritten false ∧ ¬ labelledEntry.ResolvedAsWritten false := by
  have accepted : ∃ f, Func.ofSource jumpToEntry false = .ok f := by
    have succeeds : (Func.ofSource jumpToEntry false).isOk = true := by decide +kernel
    cases run : Func.ofSource jumpToEntry false with
    | ok f => exact ⟨f, rfl⟩
    | error e =>
      rw [run] at succeeds
      cases succeeds
  have rejected : Func.ofSource labelledEntry false =
      .error (.malformed "f" (.duplicateLabel "f.entry")) := by decide +kernel
  refine ⟨⟨accepted, rfl, rfl⟩, ⟨rejected, rfl⟩, fun written => ?_, fun written => ?_⟩
  · obtain ⟨f, run⟩ := accepted
    exact absurd (written.2 f run "f.entry" (List.mem_singleton.mpr rfl)) List.not_mem_nil
  · obtain ⟨twice, count⟩ := written.1 "f.entry" rejected
    have few := List.count_le_length (l := labelledEntry.labels) (a := twice)
    exact absurd (Nat.le_trans count few) (by decide)

end RegisterColoring
