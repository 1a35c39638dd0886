import RegisterColoring.Source.Reader
import RegisterColoring.Proofs.LockStep

namespace RegisterColoring.Source

open Grammar

theorem Machine.run_start_eq_ok {place : Nat} {lexemes : List Lexeme} {program : Program} :
    Machine.start.run place lexemes = some (.ok program) ↔
      (State.top []).run (lexemes.map (·.token)) = some (.top program) := by
  rw [Machine.run_start, Option.some.injEq, readFrom_eq_ok]

theorem parse_eq_run {source : String} {program : Program} :
    parse source = .ok program ↔
      (State.top []).run ((scan source).map (·.token)) = some (.top program) := by
  have read : Machine.start.run 0 (scan source) = some (.ok program) ↔ _ :=
    Machine.run_start_eq_ok
  rw [← read, parse, Machine.run_start]
  cases readFrom (.top []) 0 (scan source) <;> simp

theorem parse_eq_ok {source : String} {program : Program} :
    parse source = .ok program ↔ IsProgram ((scan source).map (·.token)) program :=
  parse_eq_run.trans State.run_eq_top

theorem parse_eq_error {source : String} {failure : Failure}
    (failed : parse source = .error failure) :
    ∃ e line column, readFrom (.top []) 0 (scan source) = .error e ∧
      positionFrom 1 1 e.place source.toList = (line, column) ∧
      failure = .malformed inputName (.unexpected line column e.found e.expected) := by
  unfold parse at failed
  rw [Machine.run_start] at failed
  cases read : readFrom (.top []) 0 (scan source) with
  | ok program =>
    rw [read] at failed
    cases failed
  | error e =>
    rw [read] at failed
    cases failed
    exact ⟨e, _, _, rfl, rfl, rfl⟩

/-- The machine comes to a result on every row of lexemes. It accepts exactly the rows of tokens that
the grammar derives, with the value of the derivation; that value is unique, and no row with an
invalid token is accepted. -/
theorem Machine.run_ok_iff_isProgram (place : Nat) (lexemes : List Lexeme) :
    (∃ outcome, Machine.start.run place lexemes = some outcome) ∧
    (∀ program, Machine.start.run place lexemes = some (.ok program) ↔
      IsProgram (lexemes.map (·.token)) program) ∧
    (∀ p q, IsProgram (lexemes.map (·.token)) p → IsProgram (lexemes.map (·.token)) q → p = q) ∧
    (.invalid ∈ lexemes.map (·.token) →
      ∀ program, Machine.start.run place lexemes ≠ some (.ok program)) := by
  refine ⟨⟨_, Machine.run_start place lexemes⟩,
    fun program => Machine.run_start_eq_ok.trans State.run_eq_top, ?_, ?_⟩
  · intro p q left right
    have same := (State.run_of_isProgram left).symm.trans (State.run_of_isProgram right)
    cases same
    rfl
  · intro bad program accepted
    have reached := Machine.run_start_eq_ok.mp accepted
    rw [State.run_of_invalid bad] at reached
    cases reached

/-- A function with a comma behind its last parameter and its last argument. -/
def commaText : String := "fn f(t0: %rdi, t1,) \x7b t2 <- call g(t1, $-1,); ret t2; \x7d"

theorem commaText_isProgram :
    IsProgram ((scan commaText).map (·.token))
      [⟨"f", [⟨0, some "%rdi"⟩, ⟨1, none⟩],
        [.statement (.assign 2 (.call "g" [.temp 1, .const (-1)])),
          .statement (.ret (some (.temp 2)))]⟩] := by
  have accepted := Machine.run_ok_iff_isProgram 0 (scan commaText)
  exact (accepted.2.1 _).mp (Machine.run_start_eq_ok.mpr (by decide +kernel))

end RegisterColoring.Source
