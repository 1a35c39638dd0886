import RegisterColoring.Proofs.Spelling
import RegisterColoring.Report

namespace RegisterColoring

open Source (Statement Expr)
open Source.Grammar

/-- The tokens of a text derive a value, in front of any break. -/
def Writes {α : Type} (P : List Token → α → Prop) (text : List Char) (value : α) : Prop :=
  ∃ row, P row value ∧ ∀ rest, Apart rest → tokensOf (text ++ rest) = row ++ tokensOf rest

/-- An operand that can be written and read again. -/
def Operand.Readable : Operand → Prop
  | const n => fitsWord n = true
  | temp t => t ≤ maxIndex

/-- The function that the instruction calls. -/
def Instr.callee? : Instr → Option String
  | call _ callee _ => some callee
  | _ => none

/-- An instruction that can be written and read again. -/
structure Instr.Readable (i : Instr) : Prop where
  dest : ∀ t, i.dest? = some t → t ≤ maxIndex
  operands : ∀ x ∈ i.operands, x.Readable
  slot : ∀ s, i.slot? = some s → s ≤ maxIndex
  callee : ∀ name, i.callee? = some name → IsIdent name

/-- The statement that writes an instruction. -/
def Instr.statement (name : BlockId → String) : Instr → Statement
  | binary op dest left right => .assign dest (.binary op left right)
  | unary op dest arg => .assign dest (.unary op arg)
  | move dest arg => .assign dest (.move arg)
  | load dest addr => .assign dest (.load addr)
  | store addr value => .store addr value
  | addrOf dest var => .assign dest (.addrOf var)
  | slotAddr dest slot => .assign dest (.slotAddr slot)
  | call none callee args => .call callee args
  | call (some dest) callee args => .assign dest (.call callee args)
  | spillLoad dest slot => .assign dest (.spillLoad slot)
  | spillStore slot value => .spillStore slot value
  | jump target => .goto (name target)
  | branch cond yes no => .branch cond (name yes) (name no)
  | ret value => .ret value

theorem tokensOf_space (rest : List Char) : tokensOf (" ".toList ++ rest) = tokensOf rest :=
  tokensOf_blank rfl rest

/-- A word in front of a space. -/
theorem tokensOf_word (s : Symbol) (rest : List Char) :
    tokensOf (s.spelling.toList ++ (" ".toList ++ rest)) = .symbol s :: tokensOf rest := by
  rw [tokensOf_symbol, tokensOf_space]
  rfl

/-- A mark in front of anything. -/
theorem tokensOf_lone (s : Symbol) (lone : s.isMark = true ∧ s ≠ .bang) (rest : List Char) :
    tokensOf (s.spelling.toList ++ rest) = .symbol s :: tokensOf rest :=
  tokensOf_mark lone.1 fun bang => absurd bang lone.2

theorem tokensOf_arrow (rest : List Char) :
    tokensOf (" <- ".toList ++ rest) = .symbol .arrow :: tokensOf rest :=
  (tokensOf_space _).trans (tokensOf_word .arrow rest)

section Instructions

variable {f : Func}

@[simp] theorem naming_temp : f.naming.temp = Temp.name := rfl

@[simp] theorem naming_slot : f.naming.slot = Slot.name := rfl

@[simp] theorem naming_block : f.naming.block = f.blockName := rfl

theorem writes_operand {x : Operand} (readable : x.Readable) :
    Writes IsOperand (x.text f.naming).toList x := by
  cases x with
  | const c => exact ⟨_, .imm c, fun rest apart => tokensOf_imm readable apart⟩
  | temp t => exact ⟨_, .temp t, fun rest apart => tokensOf_temp readable apart⟩

theorem isBinOp_symbol (op : BinOp) : IsBinOp [.symbol op.symbol] op :=
  isBinOp_of (BinOp.ofSymbol?_eq_some.mpr rfl)

/-- Two operands and the operator between them. -/
theorem writes_compared {α : Type} {P : List Token → α → Prop} {value : α} {left right : Operand}
    {op : BinOp}
    (derive : ∀ {l r}, IsOperand l left → IsOperand r right →
      P (l ++ [.symbol op.symbol] ++ r) value)
    (readLeft : left.Readable) (readRight : right.Readable) :
    Writes P (left.text f.naming ++ " " ++ op.text ++ " " ++ right.text f.naming).toList value := by
  obtain ⟨l, isLeft, readLeft⟩ := writes_operand (f := f) readLeft
  obtain ⟨r, isRight, readRight⟩ := writes_operand (f := f) readRight
  refine ⟨_, derive isLeft isRight, fun rest apart => ?_⟩
  simp only [BinOp.text, String.toList_append, List.append_assoc]
  rw [readLeft, tokensOf_space, tokensOf_word, readRight rest apart]
  all_goals rfl

theorem writes_cond {cond : Cond} (readable : ∀ x ∈ cond.operands, x.Readable) :
    Writes IsCond (cond.text f.naming).toList cond := by
  cases cond with
  | test arg =>
    obtain ⟨a, isArg, readArg⟩ := writes_operand (f := f) (readable arg (by simp [Cond.operands]))
    exact ⟨a, .test isArg, readArg⟩
  | compare op left right =>
    exact writes_compared (fun isLeft isRight => .compare isLeft (isBinOp_symbol op) isRight)
      (readable left (by simp [Cond.operands])) (readable right (by simp [Cond.operands]))

theorem writes_assign {dest : Temp} (small : dest ≤ maxIndex) {text : List Char} {value : Expr}
    (writes : Writes IsExpr text value) :
    Writes IsStatement ((Temp.name dest).toList ++ (" <- ".toList ++ text))
      (.assign dest value) := by
  obtain ⟨e, isValue, readValue⟩ := writes
  refine ⟨_, .assign dest isValue, fun rest apart => ?_⟩
  rw [List.append_assoc, List.append_assoc, tokensOf_temp small, tokensOf_arrow,
    readValue rest apart]
  all_goals rfl

theorem tokensOf_unOp (op : UnOp) {rest : List Char} (next : rest.head? ≠ some '=') :
    tokensOf (op.symbol.spelling.toList ++ rest) = .symbol op.symbol :: tokensOf rest := by
  refine tokensOf_mark ?_ fun _ => next
  cases op <;> rfl

theorem operand_head (x : Operand) (rest : List Char) :
    ((x.text f.naming).toList ++ rest).head? ≠ some '=' := by
  cases x with
  | const c =>
    rw [Operand.text, String.toList_append]
    exact (by decide : some '$' ≠ some '=')
  | temp t =>
    rw [Operand.text, naming_temp, Temp.name, String.toList_append]
    exact (by decide : some 't' ≠ some '=')

theorem writes_unary (op : UnOp) {arg : Operand} (readable : arg.Readable) :
    Writes IsExpr (op.text ++ arg.text f.naming).toList (.unary op arg) := by
  obtain ⟨a, isArg, readArg⟩ := writes_operand (f := f) readable
  refine ⟨_, .unary (isUnOp_iff.mpr rfl) isArg, fun rest apart => ?_⟩
  rw [String.toList_append, List.append_assoc, UnOp.text, tokensOf_unOp op (operand_head arg rest),
    readArg rest apart]
  rfl

theorem writes_move {arg : Operand} (readable : arg.Readable) :
    Writes IsExpr (arg.text f.naming).toList (.move arg) := by
  obtain ⟨a, isArg, readArg⟩ := writes_operand (f := f) readable
  exact ⟨a, .move isArg, readArg⟩

theorem writes_load {addr : Temp} (small : addr ≤ maxIndex) :
    Writes IsExpr (Symbol.star.spelling.toList ++ (Temp.name addr).toList) (.load addr) := by
  refine ⟨_, .load addr, fun rest apart => ?_⟩
  rw [List.append_assoc, tokensOf_lone .star (by decide), tokensOf_temp small apart]
  rfl

theorem writes_addrOf {var : Temp} (small : var ≤ maxIndex) :
    Writes IsExpr (Symbol.ampersand.spelling.toList ++ (Temp.name var).toList) (.addrOf var) := by
  refine ⟨_, .addrOf var, fun rest apart => ?_⟩
  rw [List.append_assoc, tokensOf_lone .ampersand (by decide), tokensOf_temp small apart]
  rfl

theorem writes_slotAddr {slot : Slot} (small : slot ≤ maxIndex) :
    Writes IsExpr (Symbol.ampersand.spelling.toList ++ (Slot.name slot).toList)
      (.slotAddr slot) := by
  refine ⟨_, .slotAddr slot, fun rest apart => ?_⟩
  rw [List.append_assoc, tokensOf_lone .ampersand (by decide), tokensOf_slot small apart]
  rfl

theorem writes_spillLoad {slot : Slot} (small : slot ≤ maxIndex) :
    Writes IsExpr (Symbol.spillLoadWord.spelling.toList ++ (" ".toList ++ (Slot.name slot).toList))
      (.spillLoad slot) := by
  refine ⟨_, .spillLoad slot, fun rest apart => ?_⟩
  rw [List.append_assoc, List.append_assoc, tokensOf_word, tokensOf_slot small apart]
  rfl

theorem writes_store {addr : Temp} {value : Operand} (small : addr ≤ maxIndex)
    (readable : value.Readable) :
    Writes IsStatement (Symbol.star.spelling.toList ++ ((Temp.name addr).toList ++ (" <- ".toList ++
      (value.text f.naming).toList))) (.store addr value) := by
  obtain ⟨v, isValue, readValue⟩ := writes_operand (f := f) readable
  refine ⟨_, .store addr isValue, fun rest apart => ?_⟩
  simp only [List.append_assoc]
  rw [tokensOf_lone .star (by decide), tokensOf_temp small, tokensOf_arrow, readValue rest apart]
  all_goals rfl

theorem writes_spillStore {slot : Slot} {value : Temp} (small : slot ≤ maxIndex)
    (smallValue : value ≤ maxIndex) :
    Writes IsStatement (Symbol.spillStoreWord.spelling.toList ++ (" ".toList ++
      ((Slot.name slot).toList ++ (" <- ".toList ++ (Temp.name value).toList))))
      (.spillStore slot value) := by
  refine ⟨_, .spillStore slot value, fun rest apart => ?_⟩
  simp only [List.append_assoc]
  rw [tokensOf_word, tokensOf_slot small, tokensOf_arrow, tokensOf_temp smallValue apart]
  all_goals rfl

theorem writes_goto {label : String} (ident : IsIdent label) :
    Writes IsStatement (Symbol.gotoWord.spelling.toList ++ (" ".toList ++ label.toList))
      (.goto label) := by
  refine ⟨_, .goto label, fun rest apart => ?_⟩
  simp only [List.append_assoc]
  rw [tokensOf_word, ident.tokensOf apart]
  rfl

theorem writes_branch {cond : Cond} {yes no : String}
    (readable : ∀ x ∈ cond.operands, x.Readable) (isYes : IsIdent yes) (isNo : IsIdent no) :
    Writes IsStatement (Symbol.ifWord.spelling.toList ++ (" ".toList ++
      ((cond.text f.naming).toList ++ (" ".toList ++ (Symbol.gotoWord.spelling.toList ++
        (" ".toList ++ (yes.toList ++ (" ".toList ++ (Symbol.elseWord.spelling.toList ++
          (" ".toList ++ no.toList)))))))))) (.branch cond yes no) := by
  obtain ⟨c, isCond, readCond⟩ := writes_cond (f := f) readable
  refine ⟨_, .branch yes no isCond, fun rest apart => ?_⟩
  simp only [List.append_assoc]
  rw [tokensOf_word, readCond, tokensOf_space, tokensOf_word, isYes.tokensOf, tokensOf_space,
    tokensOf_word, isNo.tokensOf apart]
  all_goals rfl

theorem writes_ret {value : Operand} (readable : value.Readable) :
    Writes IsStatement (Symbol.retWord.spelling.toList ++ (" ".toList ++
      (value.text f.naming).toList)) (.ret (some value)) := by
  obtain ⟨v, isValue, readValue⟩ := writes_operand (f := f) readable
  refine ⟨_, .ret (.some isValue), fun rest apart => ?_⟩
  simp only [List.append_assoc]
  rw [tokensOf_word, readValue rest apart]
  rfl

end Instructions

end RegisterColoring
