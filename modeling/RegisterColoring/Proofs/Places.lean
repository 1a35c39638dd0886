import RegisterColoring.Proofs.PartialPrograms

namespace RegisterColoring.Source

namespace Pending

/-- The same place in a line with other values. -/
def blank : Pending → Pending
  | start => start
  | label _ => label ""
  | dest _ => dest 0
  | value _ => value 0
  | leftOperand .. => leftOperand 0 (.const 0)
  | binary .. => binary 0 .add (.const 0)
  | unary .. => unary 0 .neg
  | load _ => load 0
  | address _ => address 0
  | spillLoad _ => spillLoad 0
  | callee d => callee (d.map fun _ => 0)
  | callOpen d _ => callOpen (d.map fun _ => 0) ""
  | argument d .. => argument (d.map fun _ => 0) "" []
  | argumentEnd d .. => argumentEnd (d.map fun _ => 0) "" []
  | storeAddress => storeAddress
  | storeArrow _ => storeArrow 0
  | storeValue _ => storeValue 0
  | spillSlot => spillSlot
  | spillArrow _ => spillArrow 0
  | spillValue _ => spillValue 0
  | jump => jump
  | condition => condition
  | conditionLeft _ => conditionLeft (.const 0)
  | conditionRight .. => conditionRight .add (.const 0)
  | conditionEnd _ => conditionEnd (.test (.const 0))
  | branchYes _ => branchYes (.test (.const 0))
  | branchElse .. => branchElse (.test (.const 0)) ""
  | branchNo .. => branchNo (.test (.const 0)) ""
  | result => result
  | complete _ => complete (.ret none)

/-- The places in a line. -/
def blanks : List Pending :=
  [start, label "", dest 0, value 0, leftOperand 0 (.const 0), binary 0 .add (.const 0),
   unary 0 .neg, load 0, address 0, spillLoad 0, callee none, callee (some 0), callOpen none "",
   callOpen (some 0) "", argument none "" [], argument (some 0) "" [], argumentEnd none "" [],
   argumentEnd (some 0) "" [], storeAddress, storeArrow 0, storeValue 0, spillSlot, spillArrow 0,
   spillValue 0, jump, condition, conditionLeft (.const 0), conditionRight .add (.const 0),
   conditionEnd (.test (.const 0)), branchYes (.test (.const 0)),
   branchElse (.test (.const 0)) "", branchNo (.test (.const 0)) "", result, complete (.ret none)]

theorem blank_mem (p : Pending) : p.blank ∈ blanks := by
  cases p with
  | callee d | callOpen d _ | argument d | argumentEnd d => cases d <;> simp [blank, blanks]
  | _ => simp [blank, blanks]

end Pending

namespace State

/-- The same place in a program with other values. -/
def blank : State → State
  | top _ => top []
  | name _ => name []
  | paramsOpen .. => paramsOpen [] ""
  | param .. => param [] "" []
  | paramTemp .. => paramTemp [] "" [] 0
  | paramPin .. => paramPin [] "" [] 0
  | paramEnd .. => paramEnd [] "" []
  | bodyOpen .. => bodyOpen [] "" []
  | body _ _ _ _ pending => body [] "" [] [] pending.blank

/-- The places in a program. -/
def blanks : List State :=
  [top [], name [], paramsOpen [] "", param [] "" [], paramTemp [] "" [] 0, paramPin [] "" [] 0,
   paramEnd [] "" [], bodyOpen [] "" []] ++ Pending.blanks.map (body [] "" [] [])

theorem blank_mem (s : State) : s.blank ∈ blanks := by
  cases s with
  | body _ _ _ _ pending =>
    exact List.mem_append_right _ (List.mem_map.mpr ⟨_, pending.blank_mem, rfl⟩)
  | _ => exact List.mem_append_left _ (by simp [blank])

theorem program?_blank (s : State) : s.blank.program?.isSome = s.program?.isSome := by
  cases s <;> rfl

/-- The place in a program that a token of a line leads to. -/
def placeAfter : Pending ⊕ Line → State
  | .inl next => body [] "" [] [] next.blank
  | .inr _ => body [] "" [] [] .start

/-- Where a token leads depends on the place in the line and on its class only. -/
theorem placeAfter_step (p : Pending) {token : Token} {a : Terminal}
    (kind : token.terminal? = some a) :
    (p.step token).map placeAfter = (p.blank.step a.sample).map placeAfter := by
  cases token with
  | invalid => cases kind
  | symbol s =>
    cases kind
    cases p with
    | callee d | callOpen d _ | argument d | argumentEnd d => cases d <;> cases s <;> rfl
    | _ => cases s <;> rfl
  | _ =>
    cases kind
    cases p with
    | callee d | callOpen d _ | argument d | argumentEnd d => cases d <;> rfl
    | _ => rfl

theorem blank_bodyStep (done : Program) (f : String) (params : List Param) (lines : List Line)
    (pending : Pending) (token : Token) :
    (bodyStep done f params lines pending token).map blank =
      if pending = .start ∧ token = .symbol .rightBrace then some (top [])
      else (pending.step token).map placeAfter := by
  unfold bodyStep
  split
  · rfl
  · cases pending.step token with
    | none => rfl
    | some next => cases next <;> rfl

theorem step_blank (s : State) {token : Token} {a : Terminal} (kind : token.terminal? = some a) :
    (s.step token).map blank = (s.blank.step a.sample).map blank := by
  cases s with
  | body done f params lines pending =>
    have atStart : pending = .start ↔ pending.blank = .start := by
      cases pending <;> simp [Pending.blank]
    have brace : token = .symbol .rightBrace ↔ a.sample = .symbol .rightBrace := by
      cases token <;> cases kind <;> simp [Terminal.sample]
    have left := blank_bodyStep done f params lines pending token
    have right := blank_bodyStep [] "" [] [] pending.blank a.sample
    rw [placeAfter_step pending kind] at left
    simp only [atStart, brace] at left
    exact left.trans right.symm
  | _ =>
    cases token with
    | invalid => cases kind
    | symbol s =>
      cases kind
      cases s <;> rfl
    | _ =>
      cases kind
      rfl

end State

end RegisterColoring.Source
