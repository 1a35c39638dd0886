import RegisterColoring.Proofs.WrittenPhrases

namespace RegisterColoring

open Source.Grammar

theorem Source.Grammar.Many.cons {α : Type} {P : List Token → α → Prop} {first row : List Token}
    {value : α} {values : List α} (head : P first value) (rest : Many P row values) :
    Many P (first ++ row) (value :: values) := by
  induction rest with
  | none => simpa using Many.more .none head
  | more _ last ih => simpa using ih.more last

theorem Source.Grammar.Comma.cons {α : Type} {P : List Token → α → Prop} {first row : List Token}
    {value : α} {values : List α} (head : P first value) (rest : Comma P row values) :
    Comma P (first ++ [.symbol .comma] ++ row) (value :: values) := by
  cases rest with
  | list items last =>
    have longer := Comma.list (Many.cons (.comma head) items) last
    simpa using longer

/-- A list with a comma and a blank between two entries. -/
theorem writes_list {α β : Type} {P : List Token → β → Prop} {text : α → String} {value : α → β}
    {xs : List α} (each : ∀ x ∈ xs, Writes P (text x).toList (value x)) :
    Writes (Comma P) (", ".intercalate (xs.map text)).toList (xs.map value) := by
  induction xs with
  | nil => exact ⟨[], .list .none .none, fun rest _ => rfl⟩
  | cons x xs ih =>
    obtain ⟨first, isFirst, readFirst⟩ := each x List.mem_cons_self
    cases xs with
    | nil =>
      refine ⟨first, .list .none (.some isFirst), ?_⟩
      rw [List.map_cons, List.map_nil, String.intercalate_singleton]
      exact readFirst
    | cons y ys =>
      obtain ⟨row, isRow, readRow⟩ := ih fun z member => each z (List.mem_cons_of_mem _ member)
      refine ⟨_, .cons isFirst isRow, fun rest apart => ?_⟩
      rw [List.map_cons, List.map_cons, String.intercalate_cons_cons, ← List.map_cons]
      simp only [String.toList_append, List.append_assoc]
      rw [readFirst, show ", ".toList = Symbol.comma.spelling.toList ++ " ".toList from rfl,
        List.append_assoc, tokensOf_lone .comma (by decide), tokensOf_space, readRow rest apart]
      all_goals rfl

/-- The text of a call behind the temp that takes its result. -/
def callText (f : Func) (callee : String) (args : List Operand) : List Char :=
  Symbol.callWord.spelling.toList ++ (" ".toList ++ (callee.toList ++
    (Symbol.leftParen.spelling.toList ++
      ((", ".intercalate (args.map (·.text f.naming))).toList ++ Symbol.rightParen.spelling.toList))))

theorem writes_call {f : Func} {α : Type} {P : List Token → α → Prop} {value : α} {callee : String}
    {args : List Operand}
    (derive : ∀ {a}, Comma IsOperand a args → P ([.symbol .callWord, .ident callee,
      .symbol .leftParen] ++ a ++ [.symbol .rightParen]) value)
    (ident : IsIdent callee) (readable : ∀ x ∈ args, x.Readable) :
    Writes P (callText f callee args) value := by
  obtain ⟨row, isRow, readRow⟩ := writes_list fun x member =>
    writes_operand (f := f) (readable x member)
  rw [List.map_id'] at isRow
  refine ⟨_, derive isRow, fun rest apart => ?_⟩
  simp only [callText, List.append_assoc]
  rw [tokensOf_word, ident.tokensOf, tokensOf_lone .leftParen (by decide), readRow,
    tokensOf_lone .rightParen (by decide)]
  · simp
  all_goals rfl

theorem Writes.of_eq {α : Type} {P : List Token → α → Prop} {text other : List Char} {value : α}
    (writes : Writes P text value) (same : other = text) : Writes P other value := by
  rw [same]
  exact writes

/-- The text of an instruction writes its statement. -/
theorem writes_instr {f : Func} (labels : ∀ b, IsIdent (f.blockName b)) {i : Instr}
    (readable : i.Readable) :
    Writes IsStatement (i.text f.naming).toList (i.statement f.blockName) := by
  obtain ⟨dest, operands, slot, callee⟩ := readable
  cases i with
  | binary op d left right =>
    have value := writes_compared (f := f)
      (fun isLeft isRight => IsExpr.binary isLeft (isBinOp_symbol op) isRight)
      (operands left (by simp [Instr.operands])) (operands right (by simp [Instr.operands]))
    exact (writes_assign (dest d rfl) value).of_eq (by simp [Instr.text])
  | unary op d arg =>
    have value := writes_unary (f := f) op (operands arg (by simp [Instr.operands]))
    exact (writes_assign (dest d rfl) value).of_eq (by simp [Instr.text])
  | move d arg =>
    have value := writes_move (f := f) (operands arg (by simp [Instr.operands]))
    exact (writes_assign (dest d rfl) value).of_eq (by simp [Instr.text])
  | load d addr =>
    have value := writes_load (operands (.temp addr) (by simp [Instr.operands]))
    exact (writes_assign (dest d rfl) value).of_eq (by simp [Instr.text, Symbol.spelling])
  | addrOf d var =>
    have value := writes_addrOf (operands (.temp var) (by simp [Instr.operands]))
    exact (writes_assign (dest d rfl) value).of_eq (by simp [Instr.text, Symbol.spelling])
  | slotAddr d s =>
    exact (writes_assign (dest d rfl) (writes_slotAddr (slot s rfl))).of_eq
      (by simp [Instr.text, Symbol.spelling])
  | spillLoad d s =>
    exact (writes_assign (dest d rfl) (writes_spillLoad (slot s rfl))).of_eq
      (by simp [Instr.text, Symbol.spelling])
  | call d name args =>
    have ident := callee name rfl
    cases d with
    | none =>
      exact (writes_call (f := f) (fun list => .call name list) ident operands).of_eq
        (by simp [Instr.text, callText, Symbol.spelling, Instr.operands])
    | some d =>
      have value := writes_call (f := f) (fun list => IsExpr.call name list) ident operands
      exact (writes_assign (dest d rfl) value).of_eq
        (by simp [Instr.text, callText, Symbol.spelling, Instr.operands])
  | store addr value =>
    exact (writes_store (f := f) (operands (.temp addr) (by simp [Instr.operands]))
      (operands value (by simp [Instr.operands]))).of_eq (by simp [Instr.text, Symbol.spelling])
  | spillStore s value =>
    exact (writes_spillStore (slot s rfl) (operands (.temp value) (by simp [Instr.operands]))).of_eq
      (by simp [Instr.text, Symbol.spelling])
  | jump target =>
    exact (writes_goto (labels target)).of_eq (by simp [Instr.text, Symbol.spelling])
  | branch cond yes no =>
    exact (writes_branch (f := f) operands (labels yes) (labels no)).of_eq
      (by simp [Instr.text, Symbol.spelling])
  | ret value =>
    cases value with
    | none =>
      exact ⟨_, .ret .none, fun rest apart => tokensOf_symbol .retWord apart⟩
    | some value =>
      exact (writes_ret (f := f) (operands value (by simp [Instr.operands]))).of_eq
        (by simp [Instr.text, Symbol.spelling])

end RegisterColoring
