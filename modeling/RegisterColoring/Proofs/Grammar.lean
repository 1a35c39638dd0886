import RegisterColoring.Proofs.PartialPrograms

namespace RegisterColoring.Source

namespace Grammar

section Repetition

variable {α : Type}

/-- Any number of phrases. -/
inductive Many (P : List Token → α → Prop) : List Token → List α → Prop
  | none : Many P [] []
  | more {row last : List Token} {values : List α} {value : α} :
      Many P row values → P last value → Many P (row ++ last) (values ++ [value])

/-- A phrase that may be left out. -/
inductive Perhaps (P : List Token → α → Prop) : List Token → Option α → Prop
  | none : Perhaps P [] none
  | some {row : List Token} {value : α} : P row value → Perhaps P row (some value)

/-- A phrase and a comma. -/
inductive Listed (P : List Token → α → Prop) : List Token → α → Prop
  | comma {row : List Token} {value : α} : P row value → Listed P (row ++ [.symbol .comma]) value

/-- Phrases with commas between them; one more comma may stand behind the last. -/
inductive Comma (P : List Token → α → Prop) : List Token → List α → Prop
  | list {row last : List Token} {values : List α} {value : Option α} :
      Many (Listed P) row values → Perhaps P last value →
      Comma P (row ++ last) (values ++ value.toList)

end Repetition

inductive IsOperand : List Token → Operand → Prop
  | temp (t : Temp) : IsOperand [.temp t] (.temp t)
  | imm (n : Int) : IsOperand [.imm n] (.const n)

inductive IsBinOp : List Token → BinOp → Prop
  | add : IsBinOp [.symbol .plus] .add
  | sub : IsBinOp [.symbol .minus] .sub
  | mul : IsBinOp [.symbol .star] .mul
  | div : IsBinOp [.symbol .slash] .div
  | mod : IsBinOp [.symbol .percent] .mod
  | bitAnd : IsBinOp [.symbol .ampersand] .bitAnd
  | bitOr : IsBinOp [.symbol .bar] .bitOr
  | bitXor : IsBinOp [.symbol .caret] .bitXor
  | shiftLeft : IsBinOp [.symbol .shiftLeft] .shiftLeft
  | shiftRight : IsBinOp [.symbol .shiftRight] .shiftRight
  | less : IsBinOp [.symbol .less] .less
  | lessEqual : IsBinOp [.symbol .lessEqual] .lessEqual
  | greater : IsBinOp [.symbol .greater] .greater
  | greaterEqual : IsBinOp [.symbol .greaterEqual] .greaterEqual
  | equal : IsBinOp [.symbol .equal] .equal
  | notEqual : IsBinOp [.symbol .notEqual] .notEqual

inductive IsUnOp : List Token → UnOp → Prop
  | neg : IsUnOp [.symbol .minus] .neg
  | not : IsUnOp [.symbol .bang] .not
  | bitNot : IsUnOp [.symbol .tilde] .bitNot

inductive IsCond : List Token → Cond → Prop
  | compare {l o r : List Token} {left right : Operand} {op : BinOp} :
      IsOperand l left → IsBinOp o op → IsOperand r right →
      IsCond (l ++ o ++ r) (.compare op left right)
  | test {a : List Token} {arg : Operand} : IsOperand a arg → IsCond a (.test arg)

inductive IsExpr : List Token → Expr → Prop
  | binary {l o r : List Token} {left right : Operand} {op : BinOp} :
      IsOperand l left → IsBinOp o op → IsOperand r right →
      IsExpr (l ++ o ++ r) (.binary op left right)
  | unary {o a : List Token} {op : UnOp} {arg : Operand} :
      IsUnOp o op → IsOperand a arg → IsExpr (o ++ a) (.unary op arg)
  | move {a : List Token} {arg : Operand} : IsOperand a arg → IsExpr a (.move arg)
  | load (addr : Temp) : IsExpr [.symbol .star, .temp addr] (.load addr)
  | addrOf (var : Temp) : IsExpr [.symbol .ampersand, .temp var] (.addrOf var)
  | slotAddr (slot : Slot) : IsExpr [.symbol .ampersand, .slot slot] (.slotAddr slot)
  | spillLoad (slot : Slot) : IsExpr [.symbol .spillLoadWord, .slot slot] (.spillLoad slot)
  | call (callee : String) {a : List Token} {args : List Operand} : Comma IsOperand a args →
      IsExpr ([.symbol .callWord, .ident callee, .symbol .leftParen] ++ a ++ [.symbol .rightParen])
        (.call callee args)

inductive IsStatement : List Token → Statement → Prop
  | assign (dest : Temp) {e : List Token} {value : Expr} : IsExpr e value →
      IsStatement ([.temp dest, .symbol .arrow] ++ e) (.assign dest value)
  | store (addr : Temp) {a : List Token} {value : Operand} : IsOperand a value →
      IsStatement ([.symbol .star, .temp addr, .symbol .arrow] ++ a) (.store addr value)
  | call (callee : String) {a : List Token} {args : List Operand} : Comma IsOperand a args →
      IsStatement
        ([.symbol .callWord, .ident callee, .symbol .leftParen] ++ a ++ [.symbol .rightParen])
        (.call callee args)
  | spillStore (slot : Slot) (value : Temp) :
      IsStatement [.symbol .spillStoreWord, .slot slot, .symbol .arrow, .temp value]
        (.spillStore slot value)
  | goto (label : String) : IsStatement [.symbol .gotoWord, .ident label] (.goto label)
  | branch (yes no : String) {c : List Token} {cond : Cond} : IsCond c cond →
      IsStatement
        ([.symbol .ifWord] ++ c ++ [.symbol .gotoWord, .ident yes, .symbol .elseWord, .ident no])
        (.branch cond yes no)
  | ret {a : List Token} {value : Option Operand} : Perhaps IsOperand a value →
      IsStatement ([.symbol .retWord] ++ a) (.ret value)

inductive IsLine : List Token → Line → Prop
  | label (name : String) : IsLine [.ident name, .symbol .colon] (.label name)
  | statement {row : List Token} {s : Statement} : IsStatement row s →
      IsLine (row ++ [.symbol .semicolon]) (.statement s)

inductive IsParam : List Token → Param → Prop
  | free (t : Temp) : IsParam [.temp t] ⟨t, none⟩
  | pinned (t : Temp) (reg : String) : IsParam [.temp t, .symbol .colon, .reg reg] ⟨t, some reg⟩

inductive IsFunc : List Token → Func → Prop
  | func (name : String) {p b : List Token} {params : List Param} {body : List Line} :
      Comma IsParam p params → Many IsLine b body →
      IsFunc ([.symbol .fnWord, .ident name, .symbol .leftParen] ++ p ++
        [.symbol .rightParen, .symbol .leftBrace] ++ b ++ [.symbol .rightBrace])
        ⟨name, params, body⟩

/-- A program is any number of functions. -/
abbrev IsProgram : List Token → Program → Prop := Many IsFunc

theorem isOperand_iff {row : List Token} {value : Operand} :
    IsOperand row value ↔ ∃ token, row = [token] ∧ operand? token = some value := by
  constructor
  · intro derived
    cases derived with
    | temp t => exact ⟨_, rfl, rfl⟩
    | imm n => exact ⟨_, rfl, rfl⟩
  · intro ⟨token, single, found⟩
    subst single
    cases token with
    | temp t =>
      cases found
      exact .temp t
    | imm n =>
      cases found
      exact .imm n
    | _ => cases found

theorem isBinOp_iff {row : List Token} {op : BinOp} :
    IsBinOp row op ↔ ∃ token, row = [token] ∧ binOp? token = some op := by
  constructor
  · intro derived
    cases derived <;> exact ⟨_, rfl, rfl⟩
  · intro ⟨token, single, found⟩
    subst single
    cases token with
    | symbol s =>
      have same : s = op.symbol := BinOp.ofSymbol?_eq_some.mp found
      subst same
      cases op <;> constructor
    | _ => cases found

theorem isUnOp_iff {row : List Token} {op : UnOp} :
    IsUnOp row op ↔ row = [.symbol op.symbol] := by
  constructor
  · intro derived
    cases derived <;> rfl
  · intro single
    subst single
    cases op <;> constructor

theorem isOperand_of {token : Token} {value : Operand} (found : operand? token = some value) :
    IsOperand [token] value := isOperand_iff.mpr ⟨token, rfl, found⟩

theorem isBinOp_of {token : Token} {op : BinOp} (found : binOp? token = some op) :
    IsBinOp [token] op := isBinOp_iff.mpr ⟨token, rfl, found⟩

section Repetition

variable {α : Type} {P : List Token → α → Prop}

theorem Many.append {row rest : List Token} {values more : List α} (first : Many P row values)
    (last : Many P rest more) : Many P (row ++ rest) (values ++ more) := by
  induction last with
  | none => simpa using first
  | more _ last ih => simpa using ih.more last

/-- A list that ends with a comma. -/
theorem Many.comma {row : List Token} {values : List α} (items : Many (Listed P) row values) :
    Comma P row values := by
  simpa using Comma.list items .none

/-- A list that ends with a phrase. -/
theorem Many.last {row end_ : List Token} {values : List α} {value : α}
    (items : Many (Listed P) row values) (last : P end_ value) :
    Comma P (row ++ end_) (values ++ [value]) :=
  .list items (.some last)

end Repetition

end Grammar

end RegisterColoring.Source
