import RegisterColoring.Proofs.WrittenFuncs

namespace RegisterColoring

open Report

/-- A text without a line break. -/
def OneLine (s : String) : Prop := '\n' ∉ s.toList

instance (s : String) : Decidable (OneLine s) := inferInstanceAs (Decidable ('\n' ∉ s.toList))

theorem oneLine_append {a b : String} : OneLine (a ++ b) ↔ OneLine a ∧ OneLine b := by
  simp [OneLine]

theorem IsIdent.oneLine {name : String} (ident : IsIdent name) : OneLine name :=
  fun member => absurd (ident.all _ member) (by decide)

theorem oneLine_nat (n : Nat) : OneLine n.repr := by
  intro member
  rw [Nat.toList_repr] at member
  exact absurd (isDigit_of_mem_decimal member) (by decide)

theorem oneLine_intercalate {sep : String} (line : OneLine sep) {l : List String}
    (each : ∀ s ∈ l, OneLine s) : OneLine (sep.intercalate l) := by
  induction l with
  | nil => simp [OneLine]
  | cons s l ih =>
    cases l with
    | nil =>
      rw [String.intercalate_singleton]
      exact each s List.mem_cons_self
    | cons t l =>
      rw [String.intercalate_cons_cons, oneLine_append, oneLine_append]
      exact ⟨⟨each s List.mem_cons_self, line⟩,
        ih fun other member => each other (List.mem_cons_of_mem _ member)⟩

theorem oneLine_temp (t : Temp) : OneLine (Temp.name t) :=
  oneLine_append.mpr ⟨by decide, oneLine_nat t⟩

theorem oneLine_slot (s : Slot) : OneLine (Slot.name s) :=
  oneLine_append.mpr ⟨by decide, oneLine_nat s⟩

theorem oneLine_spelling (s : Symbol) : OneLine s.spelling := by
  cases s <;> decide

section Comments

variable {f : Func}

theorem oneLine_operand (x : Operand) : OneLine (x.text f.naming) := by
  cases x with
  | temp t => exact oneLine_temp t
  | const c =>
    refine oneLine_append.mpr ⟨by decide, ?_⟩
    cases c with
    | ofNat n => exact oneLine_nat n
    | negSucc n => exact oneLine_append.mpr ⟨by decide, oneLine_nat (n + 1)⟩

theorem oneLine_instr (labels : ∀ b, OneLine (f.blockName b)) {i : Instr}
    (callee : ∀ name, i.callee? = some name → OneLine name) : OneLine (i.text f.naming) := by
  have args : ∀ args : List Operand, OneLine (", ".intercalate (args.map (·.text f.naming))) := by
    intro args
    refine oneLine_intercalate (by decide) fun s member => ?_
    obtain ⟨x, _, rfl⟩ := List.mem_map.mp member
    exact oneLine_operand x
  cases i with
  | call d name operands =>
    have own := callee name rfl
    cases d <;> simp +decide [Instr.text, oneLine_append, oneLine_temp, args, own]
  | branch cond yes no =>
    cases cond <;> simp +decide [Instr.text, Cond.text, BinOp.text, oneLine_append, oneLine_operand,
      oneLine_spelling, labels]
  | ret value =>
    cases value <;> simp +decide [Instr.text, oneLine_append, oneLine_operand]
  | _ =>
    simp +decide [Instr.text, BinOp.text, UnOp.text, oneLine_append, oneLine_temp, oneLine_slot,
      oneLine_operand, oneLine_spelling, labels]

theorem oneLine_tempNames (s : IndexSet) : OneLine (tempNames s) := by
  refine oneLine_intercalate (by decide) fun name member => ?_
  obtain ⟨t, _, rfl⟩ := List.mem_map.mp member
  exact oneLine_temp t

theorem starts_append {p : List Char} {a b : String} (start : p <+: a.toList) :
    p <+: (a ++ b).toList := by
  rw [String.toList_append]
  exact start.trans (List.prefix_append _ _)

/-- A line of blanks and a comment. -/
theorem silentLine_comment {line : String} (lead : List Char) (blank : lead.all isBlank = true)
    (start : lead ++ ['/', '/'] <+: line.toList) (one : OneLine line) : SilentLine line := by
  obtain ⟨text, split⟩ := start
  have inside : '\n' ∉ text := by
    rw [OneLine, ← split] at one
    exact fun member => one (List.mem_append_right _ member)
  intro rest
  rw [← split, List.append_assoc, List.append_assoc, tokensOf_blanks blank]
  exact tokensOf_comment inside rest

/-- A comment inside a block that ends with names of temps. -/
theorem silentLine_temps {label : String} (start : [' ', ' ', '/', '/'] <+: label.toList)
    (one : OneLine label) (s : IndexSet) : SilentLine (label ++ tempNames s) :=
  silentLine_comment [' ', ' '] (by decide) (starts_append start)
    (oneLine_append.mpr ⟨one, oneLine_tempNames s⟩)

end Comments

end RegisterColoring
