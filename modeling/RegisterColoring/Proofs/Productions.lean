import RegisterColoring.Proofs.Derivations

namespace RegisterColoring.Source

open Grammar

namespace Production

variable {p : Production} {vs : List Value} {row : List Token}

theorem value?_operand (made : p.makes = .operand) (derived : Pieces p.body vs row) :
    ∃ v, p.value? vs = some v ∧ Nonterminal.Means v row .operand := by
  cases p <;> cases made
  case tempOperand =>
    obtain ⟨t, _, _, rfl, rfl, done⟩ := derived.temp
    cases done
    exact ⟨_, rfl, _, rfl, .temp t⟩
  case immOperand =>
    obtain ⟨t, _, _, kind, rfl, rfl, done⟩ := derived.terminal
    cases done
    cases t <;> cases kind
    exact ⟨_, rfl, _, rfl, .imm _⟩

theorem value?_binOp (made : p.makes = .binOp) (derived : Pieces p.body vs row) :
    ∃ v, p.value? vs = some v ∧ Nonterminal.Means v row .binOp := by
  cases p <;> cases made
  case binOp op =>
    obtain ⟨_, _, rfl, rfl, done⟩ := derived.symbol
    cases done
    exact ⟨_, rfl, op, rfl, by cases op <;> constructor⟩

theorem value?_unOp (made : p.makes = .unOp) (derived : Pieces p.body vs row) :
    ∃ v, p.value? vs = some v ∧ Nonterminal.Means v row .unOp := by
  cases p <;> cases made
  case unOp op =>
    obtain ⟨_, _, rfl, rfl, done⟩ := derived.symbol
    cases done
    exact ⟨_, rfl, op, rfl, isUnOp_iff.mpr rfl⟩

theorem value?_cond (made : p.makes = .cond) (derived : Pieces p.body vs row) :
    ∃ v, p.value? vs = some v ∧ Nonterminal.Means v row .cond := by
  cases p <;> cases made
  case compareCond =>
    obtain ⟨_, _, _, _, _, _, left, op, right, rfl, rfl⟩ := Pieces.operation derived
    exact ⟨_, rfl, _, rfl, .compare left op right⟩
  case testCond =>
    obtain ⟨_, ⟨arg, rfl, only⟩, rfl⟩ := derived.last
    exact ⟨_, rfl, _, rfl, .test only⟩

theorem value?_expr (made : p.makes = .expr) (derived : Pieces p.body vs row) :
    ∃ v, p.value? vs = some v ∧ Nonterminal.Means v row .expr := by
  cases p <;> cases made
  case binaryExpr =>
    obtain ⟨_, _, _, _, _, _, left, op, right, rfl, rfl⟩ := derived.operation
    exact ⟨_, rfl, _, rfl, .binary left op right⟩
  case unaryExpr =>
    obtain ⟨_, _, _, _, ⟨op, rfl, first⟩, ⟨arg, rfl, second⟩, rfl, rfl⟩ := derived.two
    exact ⟨_, rfl, _, rfl, .unary first second⟩
  case moveExpr =>
    obtain ⟨_, ⟨arg, rfl, only⟩, rfl⟩ := derived.last
    exact ⟨_, rfl, _, rfl, .move only⟩
  case loadExpr =>
    obtain ⟨_, _, rfl, rfl, afterStar⟩ := derived.symbol
    obtain ⟨t, _, _, rfl, rfl, done⟩ := afterStar.temp
    cases done
    exact ⟨_, rfl, _, rfl, .load t⟩
  case addrOfExpr =>
    obtain ⟨_, _, rfl, rfl, afterSign⟩ := derived.symbol
    obtain ⟨t, _, _, rfl, rfl, done⟩ := afterSign.temp
    cases done
    exact ⟨_, rfl, _, rfl, .addrOf t⟩
  case slotAddrExpr =>
    obtain ⟨_, _, rfl, rfl, afterSign⟩ := derived.symbol
    obtain ⟨s, _, _, rfl, rfl, done⟩ := afterSign.slot
    cases done
    exact ⟨_, rfl, _, rfl, .slotAddr s⟩
  case spillLoadExpr =>
    obtain ⟨_, _, rfl, rfl, afterWord⟩ := derived.symbol
    obtain ⟨s, _, _, rfl, rfl, done⟩ := afterWord.slot
    cases done
    exact ⟨_, rfl, _, rfl, .spillLoad s⟩
  case callExpr =>
    obtain ⟨name, _, _, list, rfl, rfl⟩ := derived.call
    exact ⟨_, rfl, _, rfl, .call name list⟩

theorem value?_statement (made : p.makes = .statement) (derived : Pieces p.body vs row) :
    ∃ v, p.value? vs = some v ∧ Nonterminal.Means v row .statement := by
  cases p <;> cases made
  case assignment =>
    obtain ⟨t, _, _, rfl, rfl, afterDest⟩ := derived.temp
    obtain ⟨_, _, rfl, rfl, afterArrow⟩ := afterDest.symbol
    obtain ⟨_, ⟨e, rfl, expr⟩, rfl⟩ := afterArrow.last
    exact ⟨_, rfl, _, rfl, .assign t expr⟩
  case store =>
    obtain ⟨_, _, rfl, rfl, afterStar⟩ := derived.symbol
    obtain ⟨t, _, _, rfl, rfl, afterTemp⟩ := afterStar.temp
    obtain ⟨_, _, rfl, rfl, afterArrow⟩ := afterTemp.symbol
    obtain ⟨_, ⟨o, rfl, operand⟩, rfl⟩ := afterArrow.last
    exact ⟨_, rfl, _, rfl, .store t operand⟩
  case callStatement =>
    obtain ⟨name, _, _, list, rfl, rfl⟩ := Pieces.call derived
    exact ⟨_, rfl, _, rfl, .call name list⟩
  case spillStore =>
    obtain ⟨_, _, rfl, rfl, afterWord⟩ := derived.symbol
    obtain ⟨s, _, _, rfl, rfl, afterSlot⟩ := afterWord.slot
    obtain ⟨_, _, rfl, rfl, afterArrow⟩ := afterSlot.symbol
    obtain ⟨t, _, _, rfl, rfl, done⟩ := afterArrow.temp
    cases done
    exact ⟨_, rfl, _, rfl, .spillStore s t⟩
  case jump =>
    obtain ⟨_, _, rfl, rfl, afterWord⟩ := derived.symbol
    obtain ⟨name, _, _, rfl, rfl, done⟩ := afterWord.ident
    cases done
    exact ⟨_, rfl, _, rfl, .goto name⟩
  case branch =>
    obtain ⟨_, _, rfl, rfl, afterIf⟩ := derived.symbol
    obtain ⟨_, _, c, _, ⟨test, rfl, cond⟩, rfl, rfl, afterCond⟩ := afterIf.phrase
    obtain ⟨_, _, rfl, rfl, afterGoto⟩ := afterCond.symbol
    obtain ⟨yes, _, _, rfl, rfl, afterYes⟩ := afterGoto.ident
    obtain ⟨_, _, rfl, rfl, afterElse⟩ := afterYes.symbol
    obtain ⟨no, _, _, rfl, rfl, done⟩ := afterElse.ident
    cases done
    exact ⟨_, rfl, _, rfl, .branch yes no cond⟩
  case returnOperand =>
    obtain ⟨_, _, rfl, rfl, afterWord⟩ := derived.symbol
    obtain ⟨_, ⟨o, rfl, operand⟩, rfl⟩ := afterWord.last
    exact ⟨_, rfl, _, rfl, .ret (.some operand)⟩
  case returnNothing =>
    obtain ⟨_, _, rfl, rfl, done⟩ := derived.symbol
    cases done
    exact ⟨_, rfl, _, rfl, .ret .none⟩

theorem value?_line (made : p.makes = .line) (derived : Pieces p.body vs row) :
    ∃ v, p.value? vs = some v ∧ Nonterminal.Means v row .line := by
  cases p <;> cases made
  case labelLine =>
    obtain ⟨name, _, _, rfl, rfl, afterName⟩ := derived.ident
    obtain ⟨_, _, rfl, rfl, done⟩ := afterName.symbol
    cases done
    exact ⟨_, rfl, _, rfl, .label name⟩
  case statementLine =>
    obtain ⟨_, _, ⟨statement, rfl, whole⟩, rfl, rfl⟩ := derived.ended
    exact ⟨_, rfl, _, rfl, .statement whole⟩

theorem value?_param (made : p.makes = .param) (derived : Pieces p.body vs row) :
    ∃ v, p.value? vs = some v ∧ Nonterminal.Means v row .param := by
  cases p <;> cases made
  case freeParam =>
    obtain ⟨t, _, _, rfl, rfl, done⟩ := derived.temp
    cases done
    exact ⟨_, rfl, _, rfl, .free t⟩
  case pinnedParam =>
    obtain ⟨t, _, _, rfl, rfl, afterTemp⟩ := derived.temp
    obtain ⟨_, _, rfl, rfl, afterColon⟩ := afterTemp.symbol
    obtain ⟨r, _, _, kind, rfl, rfl, done⟩ := afterColon.terminal
    cases done
    cases r <;> cases kind
    exact ⟨_, rfl, _, rfl, .pinned t _⟩

theorem value?_func (made : p.makes = .func) (derived : Pieces p.body vs row) :
    ∃ v, p.value? vs = some v ∧ Nonterminal.Means v row .func := by
  cases p <;> cases made
  case emptyFunc =>
    obtain ⟨name, _, _, _, _, list, body, rfl, rfl⟩ := derived.header
    obtain ⟨_, _, rfl, rfl, done⟩ := body.symbol
    cases done
    exact ⟨_, rfl, _, rfl, by simpa using IsFunc.func name list .none⟩
  case filledFunc =>
    obtain ⟨name, _, _, _, _, list, body, rfl, rfl⟩ := derived.header
    obtain ⟨_, _, b, _, ⟨lines, rfl, whole⟩, rfl, rfl, afterLines⟩ := body.phrase
    obtain ⟨_, _, rfl, rfl, done⟩ := afterLines.symbol
    cases done
    exact ⟨_, rfl, _, rfl, by simpa using IsFunc.func name list whole⟩

theorem value?_listedOperands (made : p.makes = .listedOperands ∨ p.makes = .anyListedOperands)
    (derived : Pieces p.body vs row) :
    ∃ v, p.value? vs = some v ∧ Nonterminal.Means v row .listedOperands := by
  cases p <;> simp only [makes, reduceCtorEq, or_false, or_self] at made
  case noListedOperands =>
    cases derived
    exact ⟨_, rfl, _, rfl, .none⟩
  case someListedOperands =>
    obtain ⟨_, ⟨_, rfl, items⟩, rfl⟩ := derived.last
    exact ⟨_, rfl, _, rfl, items⟩
  case firstListedOperand =>
    obtain ⟨_, _, ⟨_, rfl, operand⟩, rfl, rfl⟩ := derived.ended
    exact ⟨_, rfl, _, rfl, Many.none.more (.comma operand)⟩
  case nextListedOperand =>
    obtain ⟨_, _, _, _, ⟨_, rfl, items⟩, rfl, rfl, afterItems⟩ := derived.phrase
    obtain ⟨_, _, ⟨_, rfl, operand⟩, rfl, rfl⟩ := afterItems.ended
    exact ⟨_, rfl, _, rfl, items.more (.comma operand)⟩

theorem value?_operandList (made : p.makes = .operandList) (derived : Pieces p.body vs row) :
    ∃ v, p.value? vs = some v ∧ Nonterminal.Means v row .operandList := by
  cases p <;> cases made
  case singleOperand =>
    obtain ⟨_, ⟨_, rfl, operand⟩, rfl⟩ := derived.last
    exact ⟨_, rfl, _, rfl, Many.none.last operand⟩
  case noOperands =>
    cases derived
    exact ⟨_, rfl, _, rfl, Many.none.comma⟩
  case operandsThenLast =>
    obtain ⟨_, _, _, _, ⟨_, rfl, items⟩, ⟨_, rfl, operand⟩, rfl, rfl⟩ := derived.two
    exact ⟨_, rfl, _, rfl, items.last operand⟩
  case operandsThenComma =>
    obtain ⟨_, ⟨_, rfl, items⟩, rfl⟩ := derived.last
    exact ⟨_, rfl, _, rfl, items.comma⟩

theorem value?_listedParams (made : p.makes = .listedParams ∨ p.makes = .anyListedParams)
    (derived : Pieces p.body vs row) :
    ∃ v, p.value? vs = some v ∧ Nonterminal.Means v row .listedParams := by
  cases p <;> simp only [makes, reduceCtorEq, or_false, or_self] at made
  case noListedParams =>
    cases derived
    exact ⟨_, rfl, _, rfl, .none⟩
  case someListedParams =>
    obtain ⟨_, ⟨_, rfl, items⟩, rfl⟩ := derived.last
    exact ⟨_, rfl, _, rfl, items⟩
  case firstListedParam =>
    obtain ⟨_, _, ⟨_, rfl, param⟩, rfl, rfl⟩ := derived.ended
    exact ⟨_, rfl, _, rfl, Many.none.more (.comma param)⟩
  case nextListedParam =>
    obtain ⟨_, _, _, _, ⟨_, rfl, items⟩, rfl, rfl, afterItems⟩ := derived.phrase
    obtain ⟨_, _, ⟨_, rfl, param⟩, rfl, rfl⟩ := afterItems.ended
    exact ⟨_, rfl, _, rfl, items.more (.comma param)⟩

theorem value?_paramList (made : p.makes = .paramList) (derived : Pieces p.body vs row) :
    ∃ v, p.value? vs = some v ∧ Nonterminal.Means v row .paramList := by
  cases p <;> cases made
  case singleParam =>
    obtain ⟨_, ⟨_, rfl, param⟩, rfl⟩ := derived.last
    exact ⟨_, rfl, _, rfl, Many.none.last param⟩
  case noParams =>
    cases derived
    exact ⟨_, rfl, _, rfl, Many.none.comma⟩
  case paramsThenLast =>
    obtain ⟨_, _, _, _, ⟨_, rfl, items⟩, ⟨_, rfl, param⟩, rfl, rfl⟩ := derived.two
    exact ⟨_, rfl, _, rfl, items.last param⟩
  case paramsThenComma =>
    obtain ⟨_, ⟨_, rfl, items⟩, rfl⟩ := derived.last
    exact ⟨_, rfl, _, rfl, items.comma⟩

theorem value?_lines (made : p.makes = .lines ∨ p.makes = .anyLines)
    (derived : Pieces p.body vs row) :
    ∃ v, p.value? vs = some v ∧ Nonterminal.Means v row .lines := by
  cases p <;> simp only [makes, reduceCtorEq, or_false, or_self] at made
  case noLines =>
    cases derived
    exact ⟨_, rfl, _, rfl, .none⟩
  case someLines =>
    obtain ⟨_, ⟨_, rfl, items⟩, rfl⟩ := derived.last
    exact ⟨_, rfl, _, rfl, items⟩
  case firstLine =>
    obtain ⟨_, ⟨_, rfl, line⟩, rfl⟩ := derived.last
    exact ⟨_, rfl, _, rfl, Many.none.more line⟩
  case nextLine =>
    obtain ⟨_, _, _, _, ⟨_, rfl, items⟩, ⟨_, rfl, line⟩, rfl, rfl⟩ := derived.two
    exact ⟨_, rfl, _, rfl, items.more line⟩

theorem value?_funcs (made : p.makes = .funcs ∨ p.makes = .anyFuncs)
    (derived : Pieces p.body vs row) :
    ∃ v, p.value? vs = some v ∧ Nonterminal.Means v row .funcs := by
  cases p <;> simp only [makes, reduceCtorEq, or_false, or_self] at made
  case noFuncs =>
    cases derived
    exact ⟨_, rfl, _, rfl, .none⟩
  case someFuncs =>
    obtain ⟨_, ⟨_, rfl, items⟩, rfl⟩ := derived.last
    exact ⟨_, rfl, _, rfl, items⟩
  case firstFunc =>
    obtain ⟨_, ⟨_, rfl, func⟩, rfl⟩ := derived.last
    exact ⟨_, rfl, _, rfl, Many.none.more func⟩
  case nextFunc =>
    obtain ⟨_, _, _, _, ⟨_, rfl, items⟩, ⟨_, rfl, func⟩, rfl, rfl⟩ := derived.two
    exact ⟨_, rfl, _, rfl, items.more func⟩

/-- A phrase with a comma behind it, and one that may be left out. -/
theorem value?_option (made : p.makes = .listedOperand ∨ p.makes = .listedParam ∨
      p.makes = .maybeOperand ∨ p.makes = .maybeParam) (derived : Pieces p.body vs row) :
    ∃ v, p.value? vs = some v ∧ p.makes.Means v row := by
  cases p <;> simp only [makes, reduceCtorEq, or_false, or_self] at made
  case listedOperand | listedParam =>
    obtain ⟨_, _, ⟨_, rfl, item⟩, rfl, rfl⟩ := derived.ended
    exact ⟨_, rfl, _, rfl, .comma item⟩
  case givenOperand | givenParam =>
    obtain ⟨_, ⟨_, rfl, item⟩, rfl⟩ := derived.last
    exact ⟨_, rfl, _, rfl, .some item⟩
  case omittedOperand | omittedParam =>
    cases derived
    exact ⟨_, rfl, _, rfl, .none⟩

theorem value?_program (made : p.makes = .program) (derived : Pieces p.body vs row) :
    ∃ v, p.value? vs = some v ∧ Nonterminal.Means v row .program := by
  cases p <;> cases made
  case emptyProgram =>
    cases derived
    exact ⟨_, rfl, _, rfl, .none⟩
  case filledProgram =>
    obtain ⟨_, ⟨_, rfl, funcs⟩, rfl⟩ := derived.last
    exact ⟨_, rfl, _, rfl, funcs⟩

/-- The value that a production puts together is that of the phrase it makes. -/
theorem means_value? (derived : Pieces p.body vs row) :
    ∃ v, p.value? vs = some v ∧ p.makes.Means v row := by
  cases made : p.makes with
  | anyListedOperands => exact value?_listedOperands (.inr made) derived
  | listedOperands => exact value?_listedOperands (.inl made) derived
  | anyListedParams => exact value?_listedParams (.inr made) derived
  | listedParams => exact value?_listedParams (.inl made) derived
  | binOp => exact value?_binOp made derived
  | operandList => exact value?_operandList made derived
  | paramList => exact value?_paramList made derived
  | cond => exact value?_cond made derived
  | func => exact value?_func made derived
  | anyFuncs => exact value?_funcs (.inr made) derived
  | funcs => exact value?_funcs (.inl made) derived
  | statement => exact value?_statement made derived
  | line => exact value?_line made derived
  | anyLines => exact value?_lines (.inr made) derived
  | lines => exact value?_lines (.inl made) derived
  | operand => exact value?_operand made derived
  | param => exact value?_param made derived
  | expr => exact value?_expr made derived
  | program => exact value?_program made derived
  | unOp => exact value?_unOp made derived
  | listedOperand | listedParam | maybeOperand | maybeParam =>
    rw [← made]
    exact value?_option (by simp [made]) derived

end Production

end RegisterColoring.Source
