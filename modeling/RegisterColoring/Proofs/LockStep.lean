import RegisterColoring.Proofs.Productions
import RegisterColoring.Proofs.Recognition
import RegisterColoring.Proofs.Stacks

namespace RegisterColoring.Source

open Grammar

/-- The values on the stack are those of the pieces that lead to its states, and what they derive
makes up the row. -/
inductive Spelled : List Nat → List Value → List Token → Prop
  | start (state : Nat) : Spelled [state] [] []
  | push {state : Nat} {states : List Nat} {piece : Piece} {v : Value} {vs : List Value}
      {row last : List Token} : Spelled states vs row → entry? state = some piece →
      piece.Means v last → Spelled (state :: states) (v :: vs) (row ++ last)

theorem Pieces.snoc {pieces : List Piece} {vs : List Value} {row last : List Token} {piece : Piece}
    {v : Value} (derived : Pieces pieces vs row) (final : piece.Means v last) :
    Pieces (pieces ++ [piece]) (vs ++ [v]) (row ++ last) := by
  induction derived with
  | none => simpa using Pieces.more final .none
  | more first _ ih => simpa using Pieces.more first ih

namespace Spelled

/-- The states of some pieces can be taken off the stack, with values that derive the pieces. -/
theorem pop {above below : List Nat} {vs : List Value} {row : List Token} {pieces : List Piece}
    (spelled : Spelled (above ++ below) vs row) (nonempty : below ≠ [])
    (fit : above.map entry? = pieces.map some) :
    ∃ front rest, Pieces pieces.reverse (vs.take above.length).reverse rest ∧
      Spelled below (vs.drop above.length) front ∧ row = front ++ rest := by
  induction above generalizing vs row pieces with
  | nil =>
    cases List.map_eq_nil_iff.mp fit.symm
    exact ⟨row, [], .none, spelled, (List.append_nil row).symm⟩
  | cons state above ih =>
    cases pieces with
    | nil => cases fit
    | cons piece pieces =>
      obtain ⟨entered, fit⟩ := List.cons.inj fit
      generalize whole : state :: above ++ below = states at spelled
      cases spelled with
      | start =>
        obtain ⟨_, rest⟩ := List.cons.inj whole
        exact absurd (List.append_eq_nil_iff.mp rest).2 nonempty
      | push spelled led means =>
        cases whole
        obtain ⟨front, rest, derived, later, rfl⟩ := ih spelled fit
        cases led.symm.trans entered
        refine ⟨front, _, ?_, later, List.append_assoc ..⟩
        rw [List.reverse_cons, List.length_cons, List.take_succ_cons, List.reverse_cons]
        exact derived.snoc means

/-- A reduction keeps what the stack spells. -/
theorem reduce {p : Production} {states after : List Nat} {vs : List Value} {row : List Token}
    (spelled : Spelled states vs row) (fits : p.fits states = true)
    (reduced : reduceStates p states = some after) :
    ∃ ws, Machine.reduce ⟨states, vs⟩ p = some ⟨after, ws⟩ ∧ Spelled after ws row := by
  unfold Production.fits at fits
  unfold reduceStates at reduced
  cases rest : states.drop p.body.length with
  | nil =>
    rw [rest] at reduced
    cases reduced
  | cons below others =>
    rw [rest] at fits reduced
    obtain ⟨pieces, goal⟩ := (Bool.and_eq_true ..).mp fits
    have parts : states.take p.body.length ++ below :: others = states := by
      rw [← rest, List.take_append_drop]
    have size : (states.take p.body.length).length = p.body.length := by
      rw [List.length_take, Nat.min_eq_left]
      have longer := congrArg List.length rest
      rw [List.length_drop, List.length_cons] at longer
      omega
    rw [← parts] at spelled
    obtain ⟨front, last, derived, kept, rfl⟩ := spelled.pop (List.cons_ne_nil _ _) (eq_of_beq pieces)
    rw [List.reverse_reverse, size] at derived
    rw [size] at kept
    obtain ⟨v, value, means⟩ := Production.means_value? derived
    refine ⟨v :: vs.drop p.body.length, ?_, ?_⟩
    · unfold Machine.reduce reduceStates
      simp only [value, rest]
      exact congrArg _ (congrArg (Machine.mk · _) (Option.some.inj reduced))
    · cases reduced
      exact kept.push (eq_of_beq goal) means

end Spelled

section Loops

variable {α β : Type} [Nonempty β] {f : α → Option (α ⊕ β)} {a : α}

theorem repeatM_of_inl {b : α} (next : f a = some (.inl b)) : repeatM f a = repeatM f b := by
  rw [repeatM_eq_of_monadTail, repeatM.body, next]
  rfl

theorem repeatM_of_inr {result : Option β} (done : f a = result.map .inr) :
    repeatM f a = result := by
  rw [repeatM_eq_of_monadTail, repeatM.body, done]
  cases result <;> rfl

end Loops

/-- What the machine makes of an action once no reduction is left. -/
def Machine.conclude (m : Machine) : Action → Option Machine.Settled
  | .shift state => some (.shift state m)
  | .accept => m.program?.map .accept
  | .refuse => some (.refuse m)
  | .reduce _ => none

/-- The machine makes the reductions that its states call for. -/
theorem Spelled.settle {ahead : Option Terminal} {n : Nat} {states after : List Nat} {act : Action}
    {vs : List Value} {row : List Token} (spelled : Spelled states vs row)
    (settled : settleStates ahead n states = some (act, after)) :
    ∃ ws, Machine.settle ahead ⟨states, vs⟩ = Machine.conclude ⟨after, ws⟩ act ∧
      Spelled after ws row := by
  induction n generalizing states vs with
  | zero => cases settled
  | succ n ih =>
    cases states with
    | nil => cases settled
    | cons top below =>
      unfold settleStates at settled
      cases found : action top ahead with
      | reduce p =>
        simp only [found] at settled
        obtain ⟨fits, settled⟩ := Option.ite_none_right_eq_some.mp settled
        obtain ⟨next, reduced, settled⟩ := Option.bind_eq_some_iff.mp settled
        obtain ⟨ws, made, spelled⟩ := spelled.reduce fits reduced
        have turn : Machine.settleStep ahead ⟨top :: below, vs⟩ = some (.inl ⟨next, ws⟩) := by
          simp only [Machine.settleStep, found, made, Option.map_some]
        rw [Machine.settle, repeatM_of_inl turn]
        exact ih spelled settled
      | _ =>
        simp only [found] at settled
        cases settled
        refine ⟨vs, repeatM_of_inr ?_, spelled⟩
        simp only [Machine.settleStep, found, Machine.conclude, Option.map_some, Option.map_map,
          Function.comp_def]

/-- Whether the action goes on with the token ahead. -/
def Action.goesOn : Action → Bool
  | .refuse => false
  | _ => true

/-- The simulated reductions come to what the reductions come to. -/
theorem accepts_eq {ahead : Option Terminal} {n : Nat} {states after : List Nat} {act : Action}
    (settled : settleStates ahead n states = some (act, after)) :
    accepts ahead states = some act.goesOn := by
  induction n generalizing states with
  | zero => cases settled
  | succ n ih =>
    cases states with
    | nil => cases settled
    | cons top below =>
      unfold settleStates at settled
      cases found : action top ahead with
      | reduce p =>
        simp only [found] at settled
        obtain ⟨_, settled⟩ := Option.ite_none_right_eq_some.mp settled
        obtain ⟨next, reduced, settled⟩ := Option.bind_eq_some_iff.mp settled
        have turn : acceptsStep ahead (top :: below) = some (.inl next) := by
          simp only [acceptsStep, found, reduced, Option.map_some]
        rw [accepts, repeatM_of_inl turn]
        exact ih settled
      | _ =>
        simp only [found] at settled
        cases settled
        refine repeatM_of_inr ?_
        simp only [acceptsStep, found]
        rfl

theorem acceptedOf_eq {states : List Nat} {f : Terminal → Bool}
    (each : ∀ a, accepts (some a) states = some (f a)) (among : List Terminal) :
    acceptedOf states among = some (among.filter f) := by
  induction among with
  | nil => rfl
  | cons a others ih =>
    rw [acceptedOf, each, ih, List.filter_cons]
    cases f a <;> rfl

/-- The terminals listed for a stack are those that the reader has a step for. -/
theorem State.acceptedOf_all {s : State} {k : List Nat} (stacked : k ∈ s.stateRows) :
    acceptedOf k Terminal.all = some s.expected := by
  refine acceptedOf_eq (fun a => ?_) Terminal.all
  have kind : a.sample.terminal? = some a := by cases a <;> rfl
  rcases settleStates_token stacked kind with
    ⟨state, after, next, settled, _, step, _⟩ | ⟨after, settled, step, _⟩
  · rw [accepts_eq settled, step]
    rfl
  · rw [accepts_eq settled, step]
    rfl

namespace Machine

theorem mismatch_eq {s : State} {m : Machine} (stacked : m.states ∈ s.stateRows) (place : Nat)
    (found : Option Lexeme) :
    m.mismatch place found = some (.error ⟨place, found, s.expected⟩) := by
  rw [mismatch, State.acceptedOf_all stacked, Option.map_some]

/-- The end of the text, in a state of the reader that is complete or is not. -/
theorem run_nil {m : Machine} {s : State} {row : List Token} (stacked : m.states ∈ s.stateRows)
    (spelled : Spelled m.states m.values row) (reached : (State.top []).run row = some s)
    (place : Nat) : m.run place [] = some (readFrom s place []) := by
  unfold run readFrom
  rcases State.settleStates_end stacked with ⟨settled, complete⟩ | ⟨after, settled, none, again⟩
  · obtain ⟨ws, made, spelled⟩ := spelled.settle settled
    -- the program is all that is on the stack, so that it derives the whole row
    cases spelled with
    | push below entered means =>
      cases below with
      | push deeper => cases deeper
      | start =>
        cases entered
        obtain ⟨program, rfl, derived⟩ := means
        rw [List.nil_append, State.run_of_isProgram derived] at reached
        cases reached
        rw [made]
        rfl
  · obtain ⟨ws, made, _⟩ := spelled.settle settled
    rw [made, none]
    exact mismatch_eq again place _

/-- The machine and the reader of partial programs go on together: what the machine's states stand
for is the state of the reader, and its values are those of what has been read. -/
theorem run_eq {m : Machine} {s : State} {row : List Token} (stacked : m.states ∈ s.stateRows)
    (spelled : Spelled m.states m.values row) (reached : (State.top []).run row = some s)
    (place : Nat) (lexemes : List Lexeme) :
    m.run place lexemes = some (readFrom s place lexemes) := by
  induction lexemes generalizing m s row place with
  | nil => exact run_nil stacked spelled reached place
  | cons x rest ih =>
    unfold run readFrom
    cases kind : x.token.terminal? with
    | none =>
      have invalid : x.token = .invalid := by cases found : x.token <;> simp_all [Token.terminal?]
      rw [invalid, State.step_invalid]
      exact mismatch_eq stacked _ _
    | some a =>
      rcases State.settleStates_token stacked kind with
        ⟨state, after, next, settled, entered, step, again⟩ | ⟨after, settled, step, again⟩
      · obtain ⟨ws, made, spelled⟩ := spelled.settle settled
        rw [step]
        simp only [made, conclude]
        refine ih again (spelled.push entered ⟨x.token, rfl, rfl, kind⟩) ?_ x.stop
        rw [State.run_append, reached, Option.bind_some, State.run_cons, step]
        rfl
      · obtain ⟨ws, made, _⟩ := spelled.settle settled
        rw [step]
        simp only [made, conclude]
        exact mismatch_eq again _ _

/-- The machine reads what the reader of partial programs reads. -/
theorem run_start (place : Nat) (lexemes : List Lexeme) :
    start.run place lexemes = some (readFrom (.top []) place lexemes) :=
  run_eq (by decide) (.start 0) (State.run_nil _) place lexemes

end Machine

end RegisterColoring.Source
