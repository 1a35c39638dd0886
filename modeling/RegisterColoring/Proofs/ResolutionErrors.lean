import RegisterColoring.Proofs.BlockNames

namespace RegisterColoring

open Source (Statement)

/-- Failures of parameters are not about labels. -/
theorem pinsFrom_error {func : String} {automatic : Bool} {position : Nat} {seen : List Temp}
    {params : List Source.Param} {pins : IndexMap Color} {e : Failure}
    (run : pinsFrom func automatic position seen params pins = .error e) :
    ∃ reason, e = .malformed func reason ∧ ∀ label, reason ≠ .duplicateLabel label := by
  induction params generalizing position seen pins with
  | nil => cases run
  | cons p rest ih =>
    unfold pinsFrom at run
    split at run
    · cases run
      exact ⟨_, rfl, fun label same => by cases same⟩
    · split at run
      next reason failed =>
        cases run
        unfold pinOf at failed
        split at failed
        · split at failed
          · cases failed
          · cases failed
            exact ⟨_, rfl, fun label same => by cases same⟩
        · cases failed
      next => exact ih run
      next =>
        split at run
        · cases run
          exact ⟨_, rfl, fun label same => by cases same⟩
        · exact ih run

theorem blockOf_error {func : String} {labels : List String} {label : String} {e : Failure}
    (run : blockOf func labels label = .error e) : e = .malformed func (.unknownLabel label) := by
  unfold blockOf at run
  split at run
  · cases run
  · cases run
    rfl

/-- The block of a label is the one that is called by it. -/
theorem getElem?_of_blockOf {func : String} {labels : List String} {label : String} {b : BlockId}
    (run : blockOf func labels label = .ok b) : labels[b]? = some label := by
  unfold blockOf at run
  split at run
  next found =>
    cases run
    obtain ⟨bound, value, _⟩ := List.idxOf?_eq_some_iff.mp found
    exact List.getElem?_eq_some_iff.mpr ⟨bound, value⟩
  next => cases run

theorem mem_of_blockOf {func : String} {labels : List String} {label : String} {b : BlockId}
    (run : blockOf func labels label = .ok b) : label ∈ labels :=
  List.mem_of_getElem? (getElem?_of_blockOf run)

theorem resolveStatement_error {func : String} {labels : List String} {s : Statement} {e : Failure}
    (run : resolveStatement func labels s = .error e) :
    ∃ label, e = .malformed func (.unknownLabel label) := by
  cases s with
  | goto label => exact ⟨label, blockOf_error (map_eq_error.mp run)⟩
  | branch cond yes no =>
    rcases bind_eq_error.mp run with first | ⟨_, _, second⟩
    · exact ⟨yes, blockOf_error first⟩
    · exact ⟨no, blockOf_error (map_eq_error.mp second)⟩
  | assign | store | call | spillStore | ret => cases run

theorem resolveStatements_error {func : String} {labels : List String} {body : List Statement}
    {e : Failure} (run : resolveStatements func labels body = .error e) :
    ∃ label, e = .malformed func (.unknownLabel label) := by
  induction body with
  | nil => cases run
  | cons s rest ih =>
    rcases bind_eq_error.mp run with first | ⟨_, _, later⟩
    · exact resolveStatement_error first
    · exact ih (map_eq_error.mp later)

/-- A jump that cannot be resolved goes to an unknown label. -/
theorem resolveBlocks_error {func : String} {labels : List String}
    {named : List (String × List Statement)} {e : Failure}
    (run : resolveBlocks func labels named = .error e) :
    ∃ label, e = .malformed func (.unknownLabel label) := by
  induction named with
  | nil => cases run
  | cons block rest ih =>
    rcases bind_eq_error.mp run with first | ⟨_, _, later⟩
    · exact resolveStatements_error first
    · exact ih (map_eq_error.mp later)

theorem resolveStatement_jumps {func : String} {labels : List String} {s : Statement} {i : Instr}
    (run : resolveStatement func labels s = .ok i) : ∀ label ∈ s.jumps, label ∈ labels := by
  intro label member
  cases s with
  | goto target =>
    obtain ⟨b, found, _⟩ := map_eq_ok.mp run
    rw [List.mem_singleton.mp member]
    exact mem_of_blockOf found
  | branch cond yes no =>
    obtain ⟨y, first, inner⟩ := bind_eq_ok.mp run
    obtain ⟨n, second, _⟩ := map_eq_ok.mp inner
    rcases List.mem_cons.mp member with same | last
    · rw [same]
      exact mem_of_blockOf first
    · rw [List.mem_singleton.mp last]
      exact mem_of_blockOf second
  | assign | store | call | spillStore | ret => exact absurd member List.not_mem_nil

theorem resolveStatements_jumps {func : String} {labels : List String} {body : List Statement}
    {instrs : List Instr} (run : resolveStatements func labels body = .ok instrs) :
    ∀ label ∈ body.flatMap Statement.jumps, label ∈ labels := by
  induction body generalizing instrs with
  | nil => exact fun label member => absurd member List.not_mem_nil
  | cons s rest ih =>
    obtain ⟨i, first, run⟩ := bind_eq_ok.mp run
    obtain ⟨later, others, _⟩ := map_eq_ok.mp run
    intro label member
    rw [List.flatMap_cons] at member
    rcases List.mem_append.mp member with here | there
    · exact resolveStatement_jumps first label here
    · exact ih others label there

theorem resolveBlocks_jumps {func : String} {labels : List String}
    {named : List (String × List Statement)} {blocks : List (String × List Instr)}
    (run : resolveBlocks func labels named = .ok blocks) :
    ∀ label ∈ (named.flatMap (·.2)).flatMap Statement.jumps, label ∈ labels := by
  induction named generalizing blocks with
  | nil => exact fun label member => absurd member List.not_mem_nil
  | cons block rest ih =>
    obtain ⟨instrs, first, run⟩ := bind_eq_ok.mp run
    obtain ⟨later, others, _⟩ := map_eq_ok.mp run
    intro label member
    rw [List.flatMap_cons, List.flatMap_append] at member
    rcases List.mem_append.mp member with here | there
    · exact resolveStatements_jumps first label here
    · exact ih others label there

theorem link_error {blocks : List Block} {e : Failure} (run : link blocks = .error e) :
    e = .fault .missingBlock := by
  unfold link at run
  simp only at run
  split at run
  · cases run
  · cases run
    rfl

theorem Func.ofBlocks_error {name : String} {params : List Temp} {pinned : IndexMap Color}
    {blocks : List (String × List Instr)} {e : Failure}
    (run : Func.ofBlocks name params pinned blocks = .error e) : ∃ reason, e = .fault reason := by
  unfold Func.ofBlocks at run
  simp only at run
  split at run
  · cases run
    exact ⟨_, rfl⟩
  · rcases bind_eq_error.mp (map_eq_error.mp run) with failed | ⟨linked, _, rest⟩
    · exact ⟨_, link_error failed⟩
    · cases rest

theorem cutBlocks_all_isEmpty (src : Source.Func) :
    (cutBlocks src.body).all (·.2.isEmpty) = true ↔ src.statements = [] := by
  rw [← flatMap_cutBlocks, List.all_eq_true, List.flatMap_eq_nil_iff]
  exact forall₂_congr fun block _ => List.isEmpty_iff

theorem flatMap_nameBlocks (src : Source.Func) :
    (nameBlocks src.name (cutBlocks src.body)).flatMap (·.2) = src.statements := by
  rw [← flatMap_cutBlocks, List.flatMap_def, nameBlocks_bodies, ← List.flatMap_def]

end RegisterColoring
