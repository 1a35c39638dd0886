import RegisterColoring.Source.Production
import RegisterColoring.Proofs.Grammar

namespace RegisterColoring.Source

open Grammar

/-- The row derives the phrase, and the value is that of the derivation. -/
def Nonterminal.Means (v : Value) (row : List Token) : Nonterminal → Prop
  | .listedOperand => ∃ o, v = .operand o ∧ Listed IsOperand row o
  | .anyListedOperands | .listedOperands =>
    ∃ os, v = .listedOperands os ∧ Many (Listed IsOperand) row os
  | .listedParam => ∃ p, v = .param p ∧ Listed IsParam row p
  | .anyListedParams | .listedParams => ∃ ps, v = .listedParams ps ∧ Many (Listed IsParam) row ps
  | .binOp => ∃ op, v = .binOp op ∧ IsBinOp row op
  | .operandList => ∃ os, v = .operandList os ∧ Comma IsOperand row os
  | .paramList => ∃ ps, v = .paramList ps ∧ Comma IsParam row ps
  | .cond => ∃ c, v = .cond c ∧ IsCond row c
  | .func => ∃ f, v = .func f ∧ IsFunc row f
  | .anyFuncs | .funcs => ∃ fs, v = .funcs fs ∧ Many IsFunc row fs
  | .statement => ∃ s, v = .statement s ∧ IsStatement row s
  | .line => ∃ l, v = .line l ∧ IsLine row l
  | .anyLines | .lines => ∃ ls, v = .lines ls ∧ Many IsLine row ls
  | .operand => ∃ o, v = .operand o ∧ IsOperand row o
  | .maybeOperand => ∃ o, v = .maybeOperand o ∧ Perhaps IsOperand row o
  | .param => ∃ p, v = .param p ∧ IsParam row p
  | .maybeParam => ∃ p, v = .maybeParam p ∧ Perhaps IsParam row p
  | .expr => ∃ e, v = .expr e ∧ IsExpr row e
  | .program => ∃ p, v = .program p ∧ IsProgram row p
  | .unOp => ∃ op, v = .unOp op ∧ IsUnOp row op

/-- The row derives the piece: it is one token of the class, or it derives the phrase. -/
def Piece.Means (v : Value) (row : List Token) : Piece → Prop
  | .terminal a => ∃ t, v = .token t ∧ row = [t] ∧ t.terminal? = some a
  | .phrase n => n.Means v row

/-- The row derives the pieces one behind the other. -/
inductive Pieces : List Piece → List Value → List Token → Prop
  | none : Pieces [] [] []
  | more {piece : Piece} {pieces : List Piece} {v : Value} {vs : List Value}
      {row rest : List Token} :
      piece.Means v row → Pieces pieces vs rest → Pieces (piece :: pieces) (v :: vs) (row ++ rest)

namespace Pieces

variable {pieces : List Piece} {vs : List Value} {row : List Token}

theorem terminal {a : Terminal} (derived : Pieces (.terminal a :: pieces) vs row) :
    ∃ t vs' rest, t.terminal? = some a ∧ vs = .token t :: vs' ∧ row = t :: rest ∧
      Pieces pieces vs' rest := by
  cases derived with
  | more first later =>
    obtain ⟨t, rfl, rfl, kind⟩ := first
    exact ⟨t, _, _, kind, rfl, rfl, later⟩

theorem symbol {s : Symbol} (derived : Pieces (.symbol s :: pieces) vs row) :
    ∃ vs' rest, vs = .token (.symbol s) :: vs' ∧ row = .symbol s :: rest ∧
      Pieces pieces vs' rest := by
  obtain ⟨t, vs', rest, kind, rfl, rfl, later⟩ := derived.terminal
  cases t <;> cases kind
  exact ⟨vs', rest, rfl, rfl, later⟩

theorem ident (derived : Pieces (.terminal .ident :: pieces) vs row) :
    ∃ name vs' rest, vs = .token (.ident name) :: vs' ∧ row = .ident name :: rest ∧
      Pieces pieces vs' rest := by
  obtain ⟨t, vs', rest, kind, rfl, rfl, later⟩ := derived.terminal
  cases t <;> cases kind
  exact ⟨_, vs', rest, rfl, rfl, later⟩

theorem temp (derived : Pieces (.terminal .temp :: pieces) vs row) :
    ∃ t vs' rest, vs = .token (.temp t) :: vs' ∧ row = .temp t :: rest ∧
      Pieces pieces vs' rest := by
  obtain ⟨t, vs', rest, kind, rfl, rfl, later⟩ := derived.terminal
  cases t <;> cases kind
  exact ⟨_, vs', rest, rfl, rfl, later⟩

theorem slot (derived : Pieces (.terminal .slot :: pieces) vs row) :
    ∃ s vs' rest, vs = .token (.slot s) :: vs' ∧ row = .slot s :: rest ∧
      Pieces pieces vs' rest := by
  obtain ⟨t, vs', rest, kind, rfl, rfl, later⟩ := derived.terminal
  cases t <;> cases kind
  exact ⟨_, vs', rest, rfl, rfl, later⟩

theorem phrase {n : Nonterminal} (derived : Pieces (.phrase n :: pieces) vs row) :
    ∃ v vs' front rest, n.Means v front ∧ vs = v :: vs' ∧ row = front ++ rest ∧
      Pieces pieces vs' rest := by
  cases derived with
  | more first later => exact ⟨_, _, _, _, first, rfl, rfl, later⟩

theorem last {n : Nonterminal} (derived : Pieces [.phrase n] vs row) :
    ∃ v, n.Means v row ∧ vs = [v] := by
  obtain ⟨v, _, front, _, first, rfl, rfl, later⟩ := derived.phrase
  cases later
  exact ⟨v, by simpa using first, rfl⟩

theorem two {m n : Nonterminal} (derived : Pieces [.phrase m, .phrase n] vs row) :
    ∃ v w front rest, m.Means v front ∧ n.Means w rest ∧ vs = [v, w] ∧ row = front ++ rest := by
  obtain ⟨v, _, front, rest, first, rfl, rfl, later⟩ := derived.phrase
  obtain ⟨w, second, rfl⟩ := later.last
  exact ⟨v, w, front, rest, first, second, rfl, rfl⟩

theorem ended {n : Nonterminal} {s : Symbol} (derived : Pieces [.phrase n, .symbol s] vs row) :
    ∃ v front, n.Means v front ∧ vs = [v, .token (.symbol s)] ∧ row = front ++ [.symbol s] := by
  obtain ⟨v, _, front, _, first, rfl, rfl, later⟩ := derived.phrase
  obtain ⟨_, _, rfl, rfl, done⟩ := later.symbol
  cases done
  exact ⟨v, front, first, rfl, rfl⟩

/-- The pieces of an operator between two operands. -/
theorem operation (derived : Pieces Production.binaryExpr.body vs row) :
    ∃ l o r left op right, IsOperand l left ∧ IsBinOp o op ∧ IsOperand r right ∧
      vs = [.operand left, .binOp op, .operand right] ∧ row = l ++ o ++ r := by
  obtain ⟨_, _, l, _, ⟨left, rfl, first⟩, rfl, rfl, afterLeft⟩ := derived.phrase
  obtain ⟨_, _, o, _, ⟨op, rfl, second⟩, rfl, rfl, afterOp⟩ := afterLeft.phrase
  obtain ⟨_, ⟨right, rfl, third⟩, rfl⟩ := afterOp.last
  exact ⟨l, o, _, left, op, right, first, second, third, rfl, (List.append_assoc ..).symm⟩

/-- The pieces of a call. -/
theorem call (derived : Pieces Production.callExpr.body vs row) :
    ∃ name a args, Comma IsOperand a args ∧
      vs = [.token (.symbol .callWord), .token (.ident name), .token (.symbol .leftParen),
        .operandList args, .token (.symbol .rightParen)] ∧
      row = [.symbol .callWord, .ident name, .symbol .leftParen] ++ a ++
        [.symbol .rightParen] := by
  obtain ⟨_, _, rfl, rfl, afterWord⟩ := derived.symbol
  obtain ⟨name, _, _, rfl, rfl, afterName⟩ := afterWord.ident
  obtain ⟨_, _, rfl, rfl, afterParen⟩ := afterName.symbol
  obtain ⟨_, _, a, _, ⟨args, rfl, list⟩, rfl, rfl, afterArgs⟩ := afterParen.phrase
  obtain ⟨_, _, rfl, rfl, done⟩ := afterArgs.symbol
  cases done
  exact ⟨name, a, args, list, rfl, rfl⟩

/-- The pieces of a function up to its body. -/
theorem header (derived : Pieces (.symbol .fnWord :: .terminal .ident :: .symbol .leftParen ::
      .phrase .paramList :: .symbol .rightParen :: .symbol .leftBrace :: pieces) vs row) :
    ∃ name a params vs' rest, Comma IsParam a params ∧ Pieces pieces vs' rest ∧
      vs = .token (.symbol .fnWord) :: .token (.ident name) :: .token (.symbol .leftParen) ::
        .paramList params :: .token (.symbol .rightParen) :: .token (.symbol .leftBrace) :: vs' ∧
      row = [.symbol .fnWord, .ident name, .symbol .leftParen] ++ a ++
        [.symbol .rightParen, .symbol .leftBrace] ++ rest := by
  obtain ⟨_, _, rfl, rfl, afterWord⟩ := derived.symbol
  obtain ⟨name, _, _, rfl, rfl, afterName⟩ := afterWord.ident
  obtain ⟨_, _, rfl, rfl, afterParen⟩ := afterName.symbol
  obtain ⟨_, _, a, _, ⟨params, rfl, list⟩, rfl, rfl, afterParams⟩ := afterParen.phrase
  obtain ⟨_, _, rfl, rfl, afterClose⟩ := afterParams.symbol
  obtain ⟨vs', rest, rfl, rfl, body⟩ := afterClose.symbol
  exact ⟨name, a, params, vs', rest, list, body, rfl, by simp⟩

end Pieces

end RegisterColoring.Source
