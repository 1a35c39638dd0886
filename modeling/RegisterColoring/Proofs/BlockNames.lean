import RegisterColoring.Proofs.Representation

namespace RegisterColoring

open Source (Statement Line)

namespace Source

/-- The labels to which a statement may jump. -/
def Statement.jumps : Statement → List String
  | .goto label => [label]
  | .branch _ yes no => [yes, no]
  | _ => []

def Line.label? : Line → Option String
  | .label name => some name
  | .statement _ => none

def Line.statement? : Line → Option Statement
  | .label _ => none
  | .statement s => some s

theorem Func.statements_eq (f : Func) : f.statements = f.body.filterMap Line.statement? := by
  have same : ∀ line : Line, (match line with
      | .label _ => none
      | .statement s => some s) = line.statement? := by
    intro line
    cases line <;> rfl
  exact congrArg (fun pick => f.body.filterMap pick) (funext same)

/-- The labels that are written in the body, one for each line. -/
def Func.labels (f : Func) : List String := f.body.filterMap Line.label?

/-- The labels to which the body jumps. -/
def Func.jumps (f : Func) : List String := f.statements.flatMap Statement.jumps

/-- The names that the blocks without a label get. -/
def Func.invented (f : Func) : List String :=
  match cutBlocks f.body with
  | [] => []
  | first :: rest =>
    (if first.1.isNone then [f.name ++ ".entry"] else []) ++
      (List.range (rest.countP (·.1.isNone))).map fun n => "." ++ f.name ++ "." ++ toString (n + 1)

end Source

/-- Cutting keeps the written labels in their order. -/
theorem cutFrom_labels (label? : Option String) (taken : List Statement) (body : List Line) :
    (cutFrom label? taken body).filterMap (·.1) = label?.toList ++ body.filterMap Line.label? := by
  induction body generalizing label? taken with
  | nil => cases label? <;> rfl
  | cons line rest ih =>
    cases line with
    | label name =>
      unfold cutFrom
      split
      next fresh =>
        have none : label? = none := by
          cases label? with
          | none => rfl
          | some old => cases fresh
        rw [ih, none]
        rfl
      next => cases label? <;> simp [ih, Line.label?]
    | statement s =>
      unfold cutFrom
      split
      next => cases label? <;> simp [ih, Line.label?, List.filterMap_cons]
      next => simp [ih, Line.label?, List.filterMap_cons]

/-- Cutting keeps the statements in their order. -/
theorem cutFrom_flatMap (label? : Option String) (taken : List Statement) (body : List Line) :
    (cutFrom label? taken body).flatMap (·.2) = taken ++ body.filterMap Line.statement? := by
  induction body generalizing label? taken with
  | nil => simp [cutFrom]
  | cons line rest ih =>
    cases line with
    | label name =>
      unfold cutFrom
      split
      next fresh =>
        have none : taken = [] := by
          cases taken with
          | nil => rfl
          | cons s ss => simp at fresh
        rw [ih, none]
        rfl
      next => simp [ih, Line.statement?, List.filterMap_cons]
    | statement s =>
      unfold cutFrom
      split
      next => simp [ih, Line.statement?]
      next => simp [ih, Line.statement?]

theorem flatMap_cutBlocks (src : Source.Func) : (cutBlocks src.body).flatMap (·.2) = src.statements := by
  rw [cutBlocks, cutFrom_flatMap, List.nil_append, src.statements_eq]

theorem nameFrom_perm (func : String) (count : Nat) (cut : List (Option String × List Statement)) :
    ((nameFrom func count cut).map (·.1)).Perm (cut.filterMap (·.1) ++
      (List.range (cut.countP (·.1.isNone))).map fun n =>
        "." ++ func ++ "." ++ toString (count + n + 1)) := by
  induction cut generalizing count with
  | nil => exact .refl _
  | cons block rest ih =>
    obtain ⟨label?, body⟩ := block
    cases label? with
    | some label => exact (ih count).cons label
    | none =>
      have later := ih (count + 1)
      have shift : (fun n => "." ++ func ++ "." ++ toString (count + 1 + n + 1)) =
          (fun n => "." ++ func ++ "." ++ toString (count + n + 1)) ∘ Nat.succ := by
        funext n
        have place : count + 1 + n + 1 = count + Nat.succ n + 1 := by omega
        rw [place]
        rfl
      rw [shift, ← List.map_map] at later
      have first := (later.cons ("." ++ func ++ "." ++ toString (count + 0 + 1))).trans
        List.perm_middle.symm
      rw [← List.map_cons (f := fun n => "." ++ func ++ "." ++ toString (count + n + 1)) (a := 0),
        ← List.range_succ_eq_map] at first
      simpa [nameFrom] using first

theorem filterMap_cutBlocks (src : Source.Func) :
    (cutBlocks src.body).filterMap (·.1) = src.labels := by
  rw [cutBlocks, cutFrom_labels]
  rfl

/-- The blocks are called by the labels written in the body and by the names invented. -/
theorem nameBlocks_perm (src : Source.Func) :
    ((nameBlocks src.name (cutBlocks src.body)).map (·.1)).Perm (src.labels ++ src.invented) := by
  unfold Source.Func.invented
  rw [← filterMap_cutBlocks]
  cases cutBlocks src.body with
  | nil => exact .refl _
  | cons block rest =>
    obtain ⟨label?, body⟩ := block
    have later := nameFrom_perm src.name 0 rest
    simp only [Nat.zero_add] at later
    cases label? with
    | some label => exact later.cons label
    | none =>
      simp only [Option.isNone_none, if_true]
      exact (later.cons (src.name ++ ".entry")).trans List.perm_middle.symm

theorem numbered_inj {func : String} {m n : Nat}
    (same : "." ++ func ++ "." ++ toString m = "." ++ func ++ "." ++ toString n) : m = n := by
  have digits : (toString m).toList = (toString n).toList := by
    have texts := congrArg String.toList same
    simp only [String.toList_append] at texts
    exact List.append_cancel_left texts
  calc
    m = Nat.ofDigitChars 10 (toString m).toList 0 := by simp
    _ = Nat.ofDigitChars 10 (toString n).toList 0 := by rw [digits]
    _ = n := by simp

/-- A numbered name ends in a digit, the name of an entry does not. -/
theorem numbered_ne_entry (func : String) (n : Nat) :
    "." ++ func ++ "." ++ toString n ≠ func ++ ".entry" := by
  intro same
  have texts := congrArg (fun name => name.toList.getLast?) same
  simp only [String.toList_append, Nat.toString_eq_ofList_toDigits, String.toList_ofList] at texts
  obtain ⟨init, last, ends⟩ := (List.eq_nil_or_concat (Nat.toDigits 10 n)).resolve_left
    Nat.toDigits_ne_nil
  rw [List.concat_eq_append] at ends
  have digit : last.isDigit = true :=
    Nat.isDigit_of_mem_toDigits (b := 10) (n := n) (by decide) (by decide) (by rw [ends]; simp)
  have letter : last = 'y' := by
    rw [ends, ← List.append_assoc, List.getLast?_concat, List.getLast?_append] at texts
    exact Option.some.inj texts
  rw [letter] at digit
  cases digit

theorem invented_nodup (src : Source.Func) : src.invented.Nodup := by
  unfold Source.Func.invented
  split
  next => exact .nil
  next first rest _ =>
    have numbered : ((List.range (rest.countP (·.1.isNone))).map fun n =>
        "." ++ src.name ++ "." ++ toString (n + 1)).Nodup :=
      List.nodup_range.map fun m n same => Nat.succ.inj (numbered_inj same)
    split
    next =>
      refine List.nodup_cons.mpr ⟨fun member => ?_, numbered⟩
      obtain ⟨n, _, same⟩ := List.mem_map.mp member
      exact numbered_ne_entry src.name (n + 1) same
    next => exact numbered

/-- Names are used once if no label is written twice and none is an invented name. -/
theorem names_nodup (src : Source.Func) :
    ((nameBlocks src.name (cutBlocks src.body)).map (·.1)).Nodup ↔
      src.labels.Nodup ∧ ∀ label ∈ src.labels, label ∉ src.invented := by
  rw [(nameBlocks_perm src).nodup_iff, List.nodup_append]
  constructor
  · rintro ⟨written, _, apart⟩
    exact ⟨written, fun label member twin => apart label member label twin rfl⟩
  · rintro ⟨written, apart⟩
    refine ⟨written, invented_nodup src, fun label member other twin same => ?_⟩
    rw [← same] at twin
    exact apart label member twin

end RegisterColoring
