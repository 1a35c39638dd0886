import RegisterColoring.Source.Machine
import RegisterColoring.Proofs.Places

namespace RegisterColoring.Source

/-- The pieces that lead to the states, without the first, which is that of the start. -/
def entries : List Piece :=
  [.phrase .funcs, .symbol .leftParen, .phrase .listedParams, .symbol .leftBrace, .phrase .lines,
   .symbol .ifWord, .symbol .retWord, .phrase .operand, .symbol .arrow, .symbol .arrow,
   .symbol .leftParen, .phrase .binOp, .phrase .operand, .phrase .unOp, .phrase .listedOperands,
   .phrase .binOp, .symbol .leftParen, .phrase .func, .phrase .program, .symbol .fnWord,
   .phrase .func, .terminal .ident, .phrase .paramList, .phrase .param, .terminal .temp,
   .phrase .param, .symbol .rightParen, .symbol .comma, .symbol .colon, .symbol .comma,
   .terminal .reg, .phrase .statement, .phrase .line, .symbol .star, .symbol .callWord,
   .symbol .gotoWord, .symbol .spillStoreWord, .symbol .rightBrace, .terminal .ident,
   .terminal .temp, .symbol .semicolon, .phrase .line, .symbol .rightBrace, .terminal .temp,
   .terminal .ident, .terminal .ident, .phrase .cond, .terminal .imm, .terminal .temp,
   .phrase .operand, .terminal .slot, .symbol .colon, .symbol .gotoWord, .symbol .notEqual,
   .symbol .percent, .symbol .ampersand, .symbol .star, .symbol .plus, .symbol .minus,
   .symbol .slash, .symbol .less, .symbol .shiftLeft, .symbol .lessEqual, .symbol .equal,
   .symbol .greater, .symbol .greaterEqual, .symbol .shiftRight, .symbol .caret, .symbol .bar,
   .symbol .arrow, .phrase .expr, .symbol .bang, .symbol .ampersand, .symbol .star,
   .symbol .minus, .symbol .callWord, .symbol .spillLoadWord, .symbol .tilde, .phrase .operand,
   .phrase .operandList, .phrase .operand, .terminal .ident, .phrase .operand, .terminal .temp,
   .phrase .operand, .terminal .slot, .terminal .temp, .terminal .temp, .terminal .ident,
   .terminal .slot, .phrase .operand, .symbol .rightParen, .symbol .comma, .symbol .elseWord,
   .phrase .operand, .symbol .comma, .terminal .ident, .phrase .operandList, .symbol .rightParen]

/-- The piece that leads to a state. -/
def entry? : Nat → Option Piece
  | 0 => none
  | n + 1 => entries[n]?

/-- Whether the last states are those of a production's pieces, and its phrase leads to the next. -/
def Production.fits (p : Production) (states : List Nat) : Bool :=
  match states.drop p.body.length with
  | [] => false
  | below :: _ =>
    (states.take p.body.length).map entry? == p.body.reverse.map some &&
      entry? (goto below p.makes) == some (.phrase p.makes)

/-- The states after the reductions that the token ahead calls for, and what is then done about it.
At most so many actions are taken. -/
def settleStates (ahead : Option Terminal) : Nat → List Nat → Option (Action × List Nat)
  | 0, _ => none
  | _, [] => none
  | n + 1, top :: below =>
    match action top ahead with
    | .reduce p =>
      if p.fits (top :: below) then
        (reduceStates p (top :: below)).bind (settleStates ahead n)
      else none
    | other => some (other, top :: below)

/-- The states that a last operand leads to behind some others: those of its token, or that of the
operand if a token ahead has called for the reduction. -/
def operandOn (reduced : Nat) (below : List Nat) : List (List Nat) :=
  [48 :: below, 49 :: below, reduced :: below]

namespace Pending

/-- The states of a call up to its word, its name and its parenthesis. -/
def wordStates : Option Temp → List Nat
  | none => [35]
  | some _ => [76, 9, 40]

def nameStates : Option Temp → List Nat
  | none => [45, 35]
  | some _ => [89, 76, 9, 40]

def parenStates : Option Temp → List Nat
  | none => [11, 45, 35]
  | some _ => [17, 89, 76, 9, 40]

/-- The states that may stand for what has been read of a line. -/
def stateRows : Pending → List (List Nat)
  | start => [[], [41, 32], [52, 39]]
  | label _ => [[39]]
  | dest _ => [[40]]
  | value _ => [[9, 40]]
  | leftOperand .. => operandOn 13 [9, 40]
  | binary .. => (List.range' 54 16).map (· :: [13, 9, 40])
  | unary .. => [[72, 9, 40], [75, 9, 40], [78, 9, 40]]
  | load _ => [[74, 9, 40]]
  | address _ => [[73, 9, 40]]
  | spillLoad _ => [[77, 9, 40]]
  | callee d => [wordStates d]
  | callOpen d _ => [nameStates d]
  | argument d .. => [parenStates d, 93 :: 81 :: parenStates d, 96 :: 91 :: 15 :: parenStates d]
  | argumentEnd d .. => operandOn 81 (parenStates d) ++ operandOn 91 (15 :: parenStates d)
  | storeAddress => [[34]]
  | storeArrow _ => [[44, 34]]
  | storeValue _ => [[10, 44, 34]]
  | spillSlot => [[37]]
  | spillArrow _ => [[51, 37]]
  | spillValue _ => [[70, 51, 37]]
  | jump => [[36]]
  | condition => [[6]]
  | conditionLeft _ => operandOn 8 [6]
  | conditionRight .. => (List.range' 54 16).map (· :: [8, 6])
  | conditionEnd _ => operandOn 83 [12, 8, 6]
  | branchYes _ => [[53, 47, 6]]
  | branchElse .. => [[82, 53, 47, 6]]
  | branchNo .. => [[94, 82, 53, 47, 6]]
  | result => [[7]]
  | complete _ =>
    operandOn 50 [7] ++ operandOn 79 [10, 44, 34] ++ operandOn 85 [14, 9, 40] ++
      operandOn 95 [16, 13, 9, 40] ++
      [[46, 36], [84, 70, 51, 37], [86, 73, 9, 40], [87, 73, 9, 40], [88, 74, 9, 40],
       [90, 77, 9, 40], [92, 80, 11, 45, 35], [97, 94, 82, 53, 47, 6], [99, 98, 17, 89, 76, 9, 40]]

theorem stateRows_blank (p : Pending) : p.blank.stateRows = p.stateRows := by
  cases p with
  | callee d | callOpen d _ | argument d | argumentEnd d => cases d <;> rfl
  | _ => rfl

end Pending

namespace State

/-- The states below a function: those of the start, or of the functions before it. -/
def outside : List (List Nat) := [[0], [1, 0]]

/-- The states below a line. -/
def inside : List (List Nat) :=
  outside.flatMap fun below =>
    [4 :: 27 :: 23 :: 2 :: 22 :: 20 :: below, 5 :: 4 :: 27 :: 23 :: 2 :: 22 :: 20 :: below]

/-- The states that may stand for what has been read of a function or of a line in it. -/
def above : State → List (List Nat)
  | top _ =>
    [0] :: outside.flatMap fun below =>
      [38 :: 4 :: 27 :: 23 :: 2 :: 22 :: 20 :: below,
       43 :: 5 :: 4 :: 27 :: 23 :: 2 :: 22 :: 20 :: below]
  | name _ => [[20]]
  | paramsOpen .. => [[22, 20]]
  | param .. => [[2, 22, 20], [28, 24, 2, 22, 20], [30, 26, 3, 2, 22, 20]]
  | paramTemp .. => [[25, 2, 22, 20], [25, 3, 2, 22, 20]]
  | paramPin .. => [[29, 25, 2, 22, 20], [29, 25, 3, 2, 22, 20]]
  | paramEnd .. => [[31, 29, 25, 2, 22, 20], [31, 29, 25, 3, 2, 22, 20]]
  | bodyOpen .. => [[27, 23, 2, 22, 20]]
  | body _ _ _ _ pending => pending.stateRows

def below : State → List (List Nat)
  | top _ => [[]]
  | body .. => inside
  | _ => outside

/-- The stacks of states that may stand for what has been read. -/
def stateRows (s : State) : List (List Nat) := s.above.flatMap fun k => s.below.map (k ++ ·)

/-- Whether a stack is among them. -/
def stackedAs (s : State) (k : List Nat) : Bool :=
  s.above.any fun first => first.isPrefixOf k && s.below.contains (k.drop first.length)

theorem mem_stacks_of_stackedAs {s : State} {k : List Nat} (stacked : s.stackedAs k = true) :
    k ∈ s.stateRows := by
  obtain ⟨first, member, both⟩ := List.any_eq_true.mp stacked
  obtain ⟨isFirst, rest⟩ := (Bool.and_eq_true ..).mp both
  obtain ⟨later, rfl⟩ := List.isPrefixOf_iff_prefix.mp isFirst
  rw [List.drop_left, List.contains_iff_mem] at rest
  exact List.mem_flatMap.mpr ⟨first, member, List.mem_map.mpr ⟨later, rest, rfl⟩⟩

/-- Whether the states on a stack do about every token what the state of the reader does, and lead
to states that stand for the next. -/
def agreesOn (s : State) (k : List Nat) : Bool :=
  (Terminal.all.all fun a =>
    match settleStates (some a) 4 k, s.step a.sample with
    | some (.shift state, after), some next =>
      entry? state == some (.terminal a) && next.stackedAs (state :: after)
    | some (.refuse, after), none => after == k || s.stackedAs after
    | _, _ => false) &&
  match settleStates none 4 k, s.program? with
  | some (.accept, after), some _ => after == [19, 0]
  | some (.refuse, after), none => after == k || s.stackedAs after
  | _, _ => false

theorem stateRows_blank (s : State) : s.blank.stateRows = s.stateRows := by
  cases s with
  | body _ _ _ _ pending =>
    show (pending.blank.stateRows.flatMap fun k => inside.map (k ++ ·)) = _
    rw [pending.stateRows_blank]
    rfl
  | _ => rfl

/-- The stacks of every place agree with it: a finite check of the table. -/
theorem blanks_agree : (blanks.all fun s => s.stateRows.all s.agreesOn) = true := by decide +kernel

theorem agreesOn_blank {s : State} {k : List Nat} (stacked : k ∈ s.stateRows) :
    s.blank.agreesOn k = true := by
  have all := List.all_eq_true.mp blanks_agree s.blank s.blank_mem
  rw [← s.stateRows_blank] at stacked
  exact List.all_eq_true.mp all k stacked

/-- What the states on a stack do about a token: they shift it if the reader has a step for it, and
refuse it otherwise. -/
theorem settleStates_token {s : State} {k : List Nat} (stacked : k ∈ s.stateRows) {token : Token}
    {a : Terminal} (kind : token.terminal? = some a) :
    (∃ state after next, settleStates (some a) 4 k = some (.shift state, after) ∧
      entry? state = some (.terminal a) ∧ s.step token = some next ∧
      state :: after ∈ next.stateRows) ∨
    ∃ after, settleStates (some a) 4 k = some (.refuse, after) ∧ s.step token = none ∧
      after ∈ s.stateRows := by
  have agree := agreesOn_blank stacked
  unfold agreesOn at agree
  have each := List.all_eq_true.mp ((Bool.and_eq_true ..).mp agree).1 a a.mem_all
  have same := s.step_blank kind
  split at each
  next state after next settled step =>
    rw [step, Option.map_some, Option.map_eq_some_iff] at same
    obtain ⟨own, found, alike⟩ := same
    obtain ⟨entered, stacked⟩ := (Bool.and_eq_true ..).mp each
    refine Or.inl ⟨state, after, own, settled, eq_of_beq entered, found, ?_⟩
    rw [← stateRows_blank, alike, stateRows_blank]
    exact mem_stacks_of_stackedAs stacked
  next after settled step =>
    rw [step, Option.map_none, Option.map_eq_none_iff] at same
    refine Or.inr ⟨after, settled, same, ?_⟩
    rcases (Bool.or_eq_true ..).mp each with equal | other
    · rwa [eq_of_beq equal]
    · rw [← stateRows_blank]
      exact mem_stacks_of_stackedAs other
  next => cases each

/-- What the states on a stack do at the end of the text. -/
theorem settleStates_end {s : State} {k : List Nat} (stacked : k ∈ s.stateRows) :
    (settleStates none 4 k = some (.accept, [19, 0]) ∧ s.program?.isSome = true) ∨
    ∃ after, settleStates none 4 k = some (.refuse, after) ∧ s.program? = none ∧
      after ∈ s.stateRows := by
  have agree := agreesOn_blank stacked
  unfold agreesOn at agree
  have last := ((Bool.and_eq_true ..).mp agree).2
  have same := s.program?_blank
  split at last
  next after program settled complete =>
    rw [complete] at same
    rw [eq_of_beq last] at settled
    exact Or.inl ⟨settled, same.symm⟩
  next after settled incomplete =>
    rw [incomplete] at same
    have unfinished := Option.isNone_iff_eq_none.mp (Option.isSome_eq_false_iff.mp same.symm)
    refine Or.inr ⟨after, settled, unfinished, ?_⟩
    rcases (Bool.or_eq_true ..).mp last with equal | other
    · rwa [eq_of_beq equal]
    · rw [← stateRows_blank]
      exact mem_stacks_of_stackedAs other
  next => cases last

end State

end RegisterColoring.Source
