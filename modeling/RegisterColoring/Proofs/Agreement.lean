import RegisterColoring.Proofs.CheckedRuns

namespace RegisterColoring

/-- A failure that tells of the program or of the settings. Faults and the breakdowns of a graph
that does not fit together are none. -/
def Failure.Reported : Failure → Prop
  | .fault _ => False
  | .internal _ .noCandidate _ => False
  | .internal _ (.notANode _) _ => False
  | _ => True

namespace Checked

namespace Halt

/-- How the operation itself fails where its checked run halts. -/
def failure : Halt → Failure
  | missing => .fault .missingBlock
  | freshTemp _ => .fault .counterExhausted
  | allocSlot _ => .fault .counterExhausted
  | failed reason => reason

/-- A checked run may halt with a report, or with a counter at the last number. -/
def Allowed : Halt → Prop
  | missing => False
  | freshTemp counter => counter = maxIndex
  | allocSlot counter => counter = maxIndex
  | failed reason => reason.Reported

end Halt

/-- An operation has the outcome of its checked run, which halts only where it may. -/
structure Agrees {α : Type} (checked : Except Halt α) (outcome : Except Failure α) : Prop where
  same : checked.mapError Halt.failure = outcome
  allowed : ∀ halt, checked = .error halt → halt.Allowed

namespace Agrees

variable {α β : Type}

theorem ok (a : α) : Agrees (.ok a) (.ok a) := by
  refine ⟨rfl, fun halt run => ?_⟩
  cases run

theorem error {halt : Halt} (allowed : halt.Allowed) :
    Agrees (.error halt : Except Halt α) (.error halt.failure) := by
  refine ⟨rfl, fun other run => ?_⟩
  cases run
  exact allowed

/-- A checked run that ends as the operation agrees if the operation fails only with a report. -/
theorem of_lifts {checked : Except Halt α} {outcome : Except Failure α}
    (lifts : Lifts checked outcome) (reported : ∀ e, outcome = .error e → e.Reported) :
    Agrees checked outcome := by
  subst lifts
  cases outcome with
  | ok a => exact ok a
  | error e => exact error (reported e rfl)

theorem bind {checked : Except Halt α} {outcome : Except Failure α} {next : α → Except Halt β}
    {after : α → Except Failure β} (first : Agrees checked outcome)
    (later : ∀ a, outcome = .ok a → Agrees (next a) (after a)) :
    Agrees (checked.bind next) (outcome.bind after) := by
  cases checked with
  | ok a =>
    obtain rfl := first.same
    exact later a rfl
  | error halt =>
    obtain rfl := first.same
    exact error (first.allowed halt rfl)

theorem map {checked : Except Halt α} {outcome : Except Failure α} (first : Agrees checked outcome)
    (change : α → β) : Agrees (checked.map change) (outcome.map change) := by
  cases checked with
  | ok a =>
    obtain rfl := first.same
    exact ok (change a)
  | error halt =>
    obtain rfl := first.same
    exact error (first.allowed halt rfl)

end Agrees

end Checked

end RegisterColoring
