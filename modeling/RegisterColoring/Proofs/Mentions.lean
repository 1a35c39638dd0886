import RegisterColoring.Proofs.Parsing
import RegisterColoring.Proofs.Labels
import RegisterColoring.Proofs.Scanning

namespace RegisterColoring

/-- The index in a token, if there is one, lies within the limit. -/
def Token.InRange : Token → Prop
  | .temp n | .slot n => n ≤ maxIndex
  | _ => True

theorem indexToken_inRange {make : Nat → Token} {n : Nat}
    (small : n ≤ maxIndex → (make n).InRange) : (Rule.token?.indexToken make n).InRange := by
  unfold Rule.token?.indexToken
  split
  next fits => exact small fits
  next => trivial

theorem wordToken_inRange (n : Int) : (Rule.token?.wordToken n).InRange := by
  unfold Rule.token?.wordToken
  split <;> trivial

theorem token?_inRange {rule : Rule} {text : List Char} {token : Token}
    (found : rule.token? text = some token) : token.InRange := by
  unfold Rule.token? at found
  split at found <;> cases found
  -- symbols, temps, slots, names, registers and the two forms of an immediate
  · trivial
  · exact indexToken_inRange id
  · exact indexToken_inRange id
  · trivial
  · trivial
  · exact wordToken_inRange _
  · exact wordToken_inRange _

theorem front_inRange {cs : List Char} {token : Token} (found : (front cs).1 = some token) :
    token.InRange := by
  unfold front at found
  split at found
  · cases found
    trivial
  · exact token?_inRange found

theorem scanFrom_inRange (steps place : Nat) (cs : List Char) :
    ∀ token ∈ (scanFrom steps place cs).map (·.token), token.InRange := by
  induction steps generalizing place cs with
  | zero => exact fun token member => absurd member List.not_mem_nil
  | succ steps ih =>
    cases cs with
    | nil => exact fun token member => absurd member List.not_mem_nil
    | cons c cs =>
      intro token member
      rw [scanFrom_cons] at member
      rcases List.mem_append.mp member with first | later
      · exact front_inRange (Option.mem_toList.mp first)
      · exact ih _ _ token later

namespace Source

/-- What the right hand side of an assignment reads, in order. -/
def Expr.operands : Expr → List Operand
  | binary _ left right => [left, right]
  | unary _ arg => [arg]
  | move arg => [arg]
  | load addr => [.temp addr]
  | addrOf var => [.temp var]
  | call _ args => args
  | slotAddr _ | spillLoad _ => []

def Expr.slot? : Expr → Option Slot
  | slotAddr slot | spillLoad slot => some slot
  | _ => none

def Statement.dest? : Statement → Option Temp
  | assign dest _ => some dest
  | _ => none

/-- What a statement reads, in order. -/
def Statement.operands : Statement → List Operand
  | assign _ value => value.operands
  | store addr value => [.temp addr, value]
  | call _ args => args
  | spillStore _ value => [.temp value]
  | branch cond _ _ => cond.operands
  | ret value => value.toList
  | goto _ => []

def Statement.slot? : Statement → Option Slot
  | assign _ value => value.slot?
  | spillStore slot _ => some slot
  | _ => none

/-- The temps that a statement mentions. -/
def Statement.temps (s : Statement) : List Temp :=
  s.dest?.toList ++ s.operands.filterMap Operand.temp?

/-- The temps that a function mentions, as parameters and in its body. -/
def Func.temps (f : Func) : List Temp :=
  f.params.map (·.temp) ++ f.statements.flatMap Statement.temps

/-- The slots that a function mentions. -/
def Func.slots (f : Func) : List Slot := f.statements.filterMap Statement.slot?

theorem Statement.mem_temps {s : Statement} {t : Temp} :
    t ∈ s.temps ↔ s.dest? = some t ∨ ∃ x ∈ s.operands, x.temp? = some t := by
  rw [Statement.temps, List.mem_append, Option.mem_toList, List.mem_filterMap]

theorem Func.mem_temps {f : Func} {t : Temp} :
    t ∈ f.temps ↔ (∃ p ∈ f.params, p.temp = t) ∨ ∃ s ∈ f.statements, t ∈ s.temps := by
  rw [Func.temps, List.mem_append, List.mem_map, List.mem_flatMap]

namespace Grammar

section Repetition

variable {α : Type} {P : List Token → α → Prop} {token : Token} {Mentions : α → Prop}
  (phrase : ∀ row value, P row value → (token ∈ row ↔ Mentions value))
include phrase

theorem Many.mem_iff {row : List Token} {values : List α} (derived : Many P row values) :
    token ∈ row ↔ ∃ value ∈ values, Mentions value := by
  induction derived with
  | none => simp
  | more _ last ih => simp [ih, phrase _ _ last, or_and_right, exists_or]

theorem Perhaps.mem_iff {row : List Token} {value : Option α} (derived : Perhaps P row value) :
    token ∈ row ↔ ∃ v ∈ value.toList, Mentions v := by
  cases derived with
  | none => simp
  | some here => simp [phrase _ _ here]

theorem Comma.mem_iff (other : token ≠ .symbol .comma) {row : List Token} {values : List α}
    (derived : Comma P row values) : token ∈ row ↔ ∃ value ∈ values, Mentions value := by
  cases derived with
  | list many perhaps =>
    have listed : ∀ row value, Listed P row value → (token ∈ row ↔ Mentions value) := by
      intro row value here
      cases here with
      | comma inner => simp [phrase _ _ inner, other]
    simp [many.mem_iff listed, perhaps.mem_iff phrase, or_and_right, exists_or]

end Repetition

theorem IsOperand.temp_mem {t : Temp} (row : List Token) (x : Operand) (derived : IsOperand row x) :
    .temp t ∈ row ↔ x.temp? = some t := by
  cases derived with
  | temp u => simp [Operand.temp?, eq_comm]
  | imm n => simp [Operand.temp?]

theorem IsOperand.slot_mem {n : Slot} (row : List Token) (x : Operand) (derived : IsOperand row x) :
    .slot n ∈ row ↔ False := by
  cases derived <;> simp

theorem IsBinOp.not_mem {op : BinOp} {row : List Token} (derived : IsBinOp row op) (token : Token)
    (other : ∀ s, token ≠ .symbol s) : token ∉ row := by
  cases derived <;> simp [other]

theorem IsUnOp.not_mem {op : UnOp} {row : List Token} (derived : IsUnOp row op) (token : Token)
    (other : ∀ s, token ≠ .symbol s) : token ∉ row := by
  cases derived <;> simp [other]

theorem IsCond.temp_mem {t : Temp} {row : List Token} {cond : Cond} (derived : IsCond row cond) :
    .temp t ∈ row ↔ ∃ x ∈ cond.operands, x.temp? = some t := by
  cases derived with
  | compare left op right =>
    have apart := op.not_mem (.temp t) (by simp)
    simp [left.temp_mem, apart, right.temp_mem, Cond.operands]
  | test arg => simp [arg.temp_mem, Cond.operands]

theorem IsCond.slot_mem {n : Slot} {row : List Token} {cond : Cond} (derived : IsCond row cond) :
    .slot n ∉ row := by
  cases derived with
  | compare left op right =>
    have apart := op.not_mem (.slot n) (by simp)
    simp [left.slot_mem, apart, right.slot_mem]
  | test arg => simp [arg.slot_mem]

theorem IsExpr.temp_mem {t : Temp} {row : List Token} {e : Expr} (derived : IsExpr row e) :
    .temp t ∈ row ↔ ∃ x ∈ e.operands, x.temp? = some t := by
  cases derived with
  | binary left op right =>
    have apart := op.not_mem (.temp t) (by simp)
    simp [left.temp_mem, apart, right.temp_mem, Expr.operands]
  | unary op arg =>
    have apart := op.not_mem (.temp t) (by simp)
    simp [apart, arg.temp_mem, Expr.operands]
  | move arg => simp [arg.temp_mem, Expr.operands]
  | load | addrOf | slotAddr | spillLoad => simp [Expr.operands, Operand.temp?, eq_comm]
  | call callee args => simp [args.mem_iff IsOperand.temp_mem, Expr.operands]

theorem IsExpr.slot_mem {n : Slot} {row : List Token} {e : Expr} (derived : IsExpr row e) :
    .slot n ∈ row ↔ e.slot? = some n := by
  cases derived with
  | binary left op right =>
    have apart := op.not_mem (.slot n) (by simp)
    simp [left.slot_mem, apart, right.slot_mem, Expr.slot?]
  | unary op arg =>
    have apart := op.not_mem (.slot n) (by simp)
    simp [apart, arg.slot_mem, Expr.slot?]
  | move arg => simp [arg.slot_mem, Expr.slot?]
  | load | addrOf | slotAddr | spillLoad => simp [Expr.slot?, eq_comm]
  | call callee args => simp [args.mem_iff IsOperand.slot_mem, Expr.slot?]

theorem IsStatement.temp_mem {t : Temp} {row : List Token} {s : Statement}
    (derived : IsStatement row s) : .temp t ∈ row ↔ t ∈ s.temps := by
  rw [Statement.mem_temps]
  cases derived with
  | assign dest value => simp [value.temp_mem, Statement.dest?, Statement.operands, eq_comm]
  | store addr value =>
    simp [value.temp_mem, Statement.dest?, Statement.operands, Operand.temp?, eq_comm]
  | call callee args =>
    simp [args.mem_iff IsOperand.temp_mem, Statement.dest?, Statement.operands]
  | spillStore slot value => simp [Statement.dest?, Statement.operands, Operand.temp?, eq_comm]
  | goto label => simp [Statement.dest?, Statement.operands]
  | branch yes no cond => simp [cond.temp_mem, Statement.dest?, Statement.operands]
  | ret value => simp [value.mem_iff IsOperand.temp_mem, Statement.dest?, Statement.operands]

theorem IsStatement.slot_mem {n : Slot} {row : List Token} {s : Statement}
    (derived : IsStatement row s) : .slot n ∈ row ↔ s.slot? = some n := by
  cases derived with
  | assign dest value => simp [value.slot_mem, Statement.slot?]
  | store addr value => simp [value.slot_mem, Statement.slot?]
  | call callee args => simp [args.mem_iff IsOperand.slot_mem, Statement.slot?]
  | spillStore slot value => simp [Statement.slot?, eq_comm]
  | goto label => simp [Statement.slot?]
  | branch yes no cond => simp [cond.slot_mem, Statement.slot?]
  | ret value => simp [value.mem_iff IsOperand.slot_mem, Statement.slot?]

theorem IsParam.temp_mem {t : Temp} (row : List Token) (p : Param) (derived : IsParam row p) :
    .temp t ∈ row ↔ p.temp = t := by
  cases derived <;> simp [eq_comm]

theorem IsParam.slot_mem {n : Slot} (row : List Token) (p : Param) (derived : IsParam row p) :
    .slot n ∈ row ↔ False := by
  cases derived <;> simp

theorem IsLine.temp_mem {t : Temp} (row : List Token) (line : Line) (derived : IsLine row line) :
    .temp t ∈ row ↔ ∃ s, line.statement? = some s ∧ t ∈ s.temps := by
  cases derived with
  | label name => simp [Line.statement?]
  | statement here => simp [here.temp_mem, Line.statement?]

theorem IsLine.slot_mem {n : Slot} (row : List Token) (line : Line) (derived : IsLine row line) :
    .slot n ∈ row ↔ ∃ s, line.statement? = some s ∧ s.slot? = some n := by
  cases derived with
  | label name => simp [Line.statement?]
  | statement here => simp [here.slot_mem, Line.statement?]

/-- A function mentions the temps whose tokens stand in its text. -/
theorem IsFunc.temp_mem {t : Temp} (row : List Token) (f : Func) (derived : IsFunc row f) :
    .temp t ∈ row ↔ t ∈ f.temps := by
  rw [Func.mem_temps, f.statements_eq]
  cases derived with
  | func name params body =>
    have header := params.mem_iff (IsParam.temp_mem (t := t)) (by simp)
    have lines := body.mem_iff (IsLine.temp_mem (t := t))
    simp only [List.mem_append, header, lines, List.mem_filterMap]
    simp only [List.mem_cons, List.not_mem_nil, reduceCtorEq, false_or, or_false]
    refine or_congr_right ⟨?_, ?_⟩
    · rintro ⟨line, inside, s, same, named⟩
      exact ⟨s, ⟨line, inside, same⟩, named⟩
    · rintro ⟨s, ⟨line, inside, same⟩, named⟩
      exact ⟨line, inside, s, same, named⟩

/-- A function mentions the slots whose tokens stand in its text. -/
theorem IsFunc.slot_mem {n : Slot} (row : List Token) (f : Func) (derived : IsFunc row f) :
    .slot n ∈ row ↔ n ∈ f.slots := by
  rw [Func.slots, f.statements_eq, List.filterMap_filterMap, List.mem_filterMap]
  cases derived with
  | func name params body =>
    have header := params.mem_iff (IsParam.slot_mem (n := n)) (by simp)
    have lines := body.mem_iff (IsLine.slot_mem (n := n))
    simp only [List.mem_append, header, lines, Option.bind_eq_some_iff]
    simp

end Grammar

/-- The temps and the slots that a program mentions lie within the limit. -/
theorem parse_inRange {source : String} {program : Program} (parsed : parse source = .ok program)
    {f : Func} (member : f ∈ program) :
    (∀ t ∈ f.temps, t ≤ maxIndex) ∧ ∀ n ∈ f.slots, n ≤ maxIndex := by
  have derived := parse_eq_ok.mp parsed
  have range := scanFrom_inRange source.toList.length 0 source.toList
  refine ⟨fun t mentioned => ?_, fun n mentioned => ?_⟩
  · exact range (.temp t) ((derived.mem_iff Grammar.IsFunc.temp_mem).mpr ⟨f, member, mentioned⟩)
  · exact range (.slot n) ((derived.mem_iff Grammar.IsFunc.slot_mem).mpr ⟨f, member, mentioned⟩)

end Source

end RegisterColoring
