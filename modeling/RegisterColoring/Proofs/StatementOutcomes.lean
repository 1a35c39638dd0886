import RegisterColoring.Proofs.Mentions

namespace RegisterColoring

open Source (Statement)

theorem blockOf_of_mem (func : String) {labels : List String} {label : String}
    (known : label ∈ labels) : ∃ b, blockOf func labels label = .ok b := by
  unfold blockOf
  cases found : labels.idxOf? label with
  | none => exact absurd known (List.idxOf?_eq_none_iff.mp found)
  | some b => exact ⟨b, rfl⟩

theorem blockOf_lt {func : String} {labels : List String} {label : String} {b : BlockId}
    (run : blockOf func labels label = .ok b) : b < labels.length :=
  (List.getElem?_eq_some_iff.mp (getElem?_of_blockOf run)).1

theorem resolveStatement_isOk (func : String) {labels : List String} {s : Statement}
    (known : ∀ label ∈ s.jumps, label ∈ labels) :
    ∃ i, resolveStatement func labels s = .ok i := by
  cases s with
  | goto label =>
    obtain ⟨b, found⟩ := blockOf_of_mem func (known label List.mem_cons_self)
    exact ⟨.jump b, map_eq_ok.mpr ⟨b, found, rfl⟩⟩
  | branch cond yes no =>
    obtain ⟨y, first⟩ := blockOf_of_mem func (known yes List.mem_cons_self)
    obtain ⟨n, second⟩ := blockOf_of_mem func
      (known no (List.mem_cons_of_mem _ List.mem_cons_self))
    exact ⟨.branch cond y n, bind_eq_ok.mpr ⟨y, first, map_eq_ok.mpr ⟨n, second, rfl⟩⟩⟩
  | assign | store | call | spillStore | ret => exact ⟨_, rfl⟩

theorem resolveStatements_isOk (func : String) {labels : List String} {body : List Statement}
    (known : ∀ label ∈ body.flatMap Statement.jumps, label ∈ labels) :
    ∃ instrs, resolveStatements func labels body = .ok instrs := by
  induction body with
  | nil => exact ⟨[], rfl⟩
  | cons s rest ih =>
    rw [List.flatMap_cons, List.forall_mem_append] at known
    obtain ⟨i, first⟩ := resolveStatement_isOk func known.1
    obtain ⟨later, others⟩ := ih known.2
    exact ⟨i :: later, bind_eq_ok.mpr ⟨i, first, map_eq_ok.mpr ⟨later, others, rfl⟩⟩⟩

/-- Blocks resolve if every jump in them has a target. -/
theorem resolveBlocks_isOk (func : String) {labels : List String}
    {named : List (String × List Statement)}
    (known : ∀ label ∈ (named.flatMap (·.2)).flatMap Statement.jumps, label ∈ labels) :
    ∃ blocks, resolveBlocks func labels named = .ok blocks := by
  induction named with
  | nil => exact ⟨[], rfl⟩
  | cons block rest ih =>
    rw [List.flatMap_cons, List.flatMap_append, List.forall_mem_append] at known
    obtain ⟨instrs, first⟩ := resolveStatements_isOk func known.1
    obtain ⟨later, others⟩ := ih known.2
    exact ⟨(block.1, instrs) :: later,
      bind_eq_ok.mpr ⟨instrs, first, map_eq_ok.mpr ⟨later, others, rfl⟩⟩⟩

theorem mem_resolveStatements {func : String} {labels : List String} {body : List Statement}
    {instrs : List Instr} (run : resolveStatements func labels body = .ok instrs) {i : Instr} :
    i ∈ instrs ↔ ∃ s ∈ body, resolveStatement func labels s = .ok i := by
  induction body generalizing instrs with
  | nil =>
    cases run
    simp
  | cons s rest ih =>
    obtain ⟨first, here, run⟩ := bind_eq_ok.mp run
    obtain ⟨later, others, rfl⟩ := map_eq_ok.mp run
    rw [List.mem_cons, ih others, List.exists_mem_cons_iff, here, Except.ok.injEq, eq_comm]

/-- The instructions of the blocks are those of the statements. -/
theorem mem_flatMap_resolveBlocks {func : String} {labels : List String}
    {named : List (String × List Statement)} {blocks : List (String × List Instr)}
    (run : resolveBlocks func labels named = .ok blocks) {i : Instr} :
    i ∈ blocks.flatMap (·.2) ↔
      ∃ s ∈ named.flatMap (·.2), resolveStatement func labels s = .ok i := by
  induction named generalizing blocks with
  | nil =>
    cases run
    simp
  | cons block rest ih =>
    obtain ⟨instrs, here, run⟩ := bind_eq_ok.mp run
    obtain ⟨later, others, rfl⟩ := map_eq_ok.mp run
    rw [List.flatMap_cons, List.flatMap_cons, List.mem_append, mem_resolveStatements here,
      ih others]
    simp only [List.mem_append, or_and_right, exists_or]

theorem length_resolveBlocks {func : String} {labels : List String}
    {named : List (String × List Statement)} {blocks : List (String × List Instr)}
    (run : resolveBlocks func labels named = .ok blocks) : blocks.length = named.length := by
  induction named generalizing blocks with
  | nil =>
    cases run
    rfl
  | cons block rest ih =>
    obtain ⟨instrs, _, run⟩ := bind_eq_ok.mp run
    obtain ⟨later, others, rfl⟩ := map_eq_ok.mp run
    rw [List.length_cons, List.length_cons, ih others]

/-- An instruction writes, reads and names what its statement does. -/
theorem resolveStatement_parts {func : String} {labels : List String} {s : Statement} {i : Instr}
    (run : resolveStatement func labels s = .ok i) :
    i.dest? = s.dest? ∧ i.operands = s.operands ∧ i.slot? = s.slot? := by
  cases s with
  | assign dest value =>
    cases run
    cases value <;> exact ⟨rfl, rfl, rfl⟩
  | goto label =>
    obtain ⟨b, _, rfl⟩ := map_eq_ok.mp run
    exact ⟨rfl, rfl, rfl⟩
  | branch cond yes no =>
    obtain ⟨y, _, inner⟩ := bind_eq_ok.mp run
    obtain ⟨n, _, rfl⟩ := map_eq_ok.mp inner
    exact ⟨rfl, rfl, rfl⟩
  | store | call | spillStore | ret =>
    cases run
    exact ⟨rfl, rfl, rfl⟩

theorem resolveStatement_temps {func : String} {labels : List String} {s : Statement} {i : Instr}
    (run : resolveStatement func labels s = .ok i) {t : Temp} : t ∈ i.temps ↔ t ∈ s.temps := by
  obtain ⟨dest, operands, _⟩ := resolveStatement_parts run
  rw [Instr.mem_temps, Statement.mem_temps, dest, Instr.uses, mem_distinct, List.mem_filterMap,
    operands]

theorem resolveStatement_targets {func : String} {labels : List String} {s : Statement} {i : Instr}
    (run : resolveStatement func labels s = .ok i) : ∀ b ∈ i.targets, b < labels.length := by
  intro b target
  cases s with
  | assign dest value =>
    cases run
    cases value <;> exact absurd target List.not_mem_nil
  | goto label =>
    obtain ⟨c, found, rfl⟩ := map_eq_ok.mp run
    rw [List.mem_singleton.mp target]
    exact blockOf_lt found
  | branch cond yes no =>
    obtain ⟨y, first, inner⟩ := bind_eq_ok.mp run
    obtain ⟨n, second, rfl⟩ := map_eq_ok.mp inner
    rcases List.mem_cons.mp (mem_distinct.mp target) with same | last
    · rw [same]
      exact blockOf_lt first
    · rw [List.mem_singleton.mp last]
      exact blockOf_lt second
  | store | call | spillStore | ret =>
    cases run
    exact absurd target List.not_mem_nil

end RegisterColoring
