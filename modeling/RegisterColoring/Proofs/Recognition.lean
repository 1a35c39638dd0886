import RegisterColoring.Proofs.ProgramsRead

namespace RegisterColoring.Source

open Grammar

namespace Pending

/-- The part of a line that a token extends, if the line goes on. -/
def next (p : Pending) (token : Token) : Option Pending := (p.step token).bind Sum.getLeft?

/-- What has been read of a line after some more tokens, if they do not end it. -/
def follow (p : Pending) (tokens : List Token) : Option Pending := tokens.foldlM next p

@[simp] theorem follow_nil (p : Pending) : p.follow [] = some p := rfl

@[simp] theorem follow_cons (p : Pending) (token : Token) (rest : List Token) :
    p.follow (token :: rest) = (p.next token).bind (·.follow rest) := rfl

theorem follow_append (p : Pending) (row rest : List Token) :
    p.follow (row ++ rest) = (p.follow row).bind (·.follow rest) := List.foldlM_append

theorem next_eq_some {p q : Pending} {token : Token} :
    p.next token = some q ↔ p.step token = some (.inl q) := by
  unfold next
  cases p.step token with
  | none => simp
  | some r => cases r <;> simp

theorem follow_arguments (d : Option Temp) (name : String) {row : List Token}
    {args : List Operand} (items : Many (Listed IsOperand) row args) :
    (argument d name []).follow row = some (argument d name args) := by
  induction items with
  | none => rfl
  | more _ last ih =>
    cases last with
    | comma operand =>
      rw [follow_append, ih]
      cases operand <;> rfl

theorem follow_call (d : Option Temp) (name : String) {row : List Token} {args : List Operand}
    (list : Comma IsOperand row args) :
    (callee d).follow ([.ident name, .symbol .leftParen] ++ row ++ [.symbol .rightParen]) =
      some (complete (callStatement d name args)) := by
  cases list with
  | list items last =>
    have opened : (callee d).follow [.ident name, .symbol .leftParen] =
        some (argument d name []) := rfl
    rw [List.append_assoc, List.append_assoc, follow_append, opened, Option.bind_some,
      follow_append, follow_arguments d name items, Option.bind_some]
    cases last with
    | none =>
      rw [Option.toList_none, List.append_nil]
      rfl
    | some operand => cases operand <;> rfl

/-- A condition leads to a state in which only the jump may follow. -/
theorem follow_condition {row : List Token} {cond : Cond} (derived : IsCond row cond) :
    condition.follow (row ++ [.symbol .gotoWord]) = some (branchYes cond) := by
  cases derived with
  | compare left op right => cases left <;> cases op <;> cases right <;> rfl
  | test arg => cases arg <;> rfl

/-- A state in which the semicolon completes the statement. -/
def Ready (p : Pending) (s : Statement) : Prop := p.step (.symbol .semicolon) = finish s

theorem follow_value (t : Temp) {row : List Token} {e : Expr} (derived : IsExpr row e) :
    ∃ p, (value t).follow row = some p ∧ p.Ready (.assign t e) := by
  cases derived with
  | binary left op right =>
    cases left <;> cases op <;> cases right <;> exact ⟨_, rfl, rfl⟩
  | unary op arg => cases op <;> cases arg <;> exact ⟨_, rfl, rfl⟩
  | move arg => cases arg <;> exact ⟨_, rfl, rfl⟩
  | call callee list => exact ⟨_, follow_call (some t) callee list, rfl⟩
  | _ => exact ⟨_, rfl, rfl⟩

theorem follow_statement {row : List Token} {s : Statement} (derived : IsStatement row s) :
    ∃ p, start.follow row = some p ∧ p.Ready s := by
  cases derived with
  | assign dest value => exact follow_value dest value
  | store addr value => cases value <;> exact ⟨_, rfl, rfl⟩
  | call callee list => exact ⟨_, follow_call none callee list, rfl⟩
  | spillStore slot value => exact ⟨_, rfl, rfl⟩
  | goto label => exact ⟨_, rfl, rfl⟩
  | @branch yes no c value cond =>
    have started : start.follow [.symbol .ifWord] = some condition := rfl
    have parts : ∀ (first next : Token) (rest : List Token),
        [first] ++ c ++ next :: rest = [first] ++ ((c ++ [next]) ++ rest) := by simp
    rw [parts, follow_append, started, Option.bind_some, follow_append, follow_condition cond]
    exact ⟨_, rfl, rfl⟩
  | ret value =>
    cases value with
    | none => exact ⟨_, rfl, rfl⟩
    | some operand => cases operand <;> exact ⟨_, rfl, rfl⟩

end Pending

namespace State

section Body

variable (done : Program) (f : String) (params : List Param) (lines : List Line)

theorem step_body {p q : Pending} {token : Token} (step : p.step token = some (.inl q)) :
    (body done f params lines p).step token = some (body done f params lines q) := by
  show bodyStep done f params lines p token = _
  unfold bodyStep
  -- the brace that closes a body starts no line
  rw [if_neg, step]
  rintro ⟨rfl, rfl⟩
  cases step

theorem step_body_line {p : Pending} {token : Token} {line : Line}
    (step : p.step token = some (.inr line)) :
    (body done f params lines p).step token =
      some (body done f params (lines ++ [line]) .start) := by
  show bodyStep done f params lines p token = _
  unfold bodyStep
  rw [if_neg, step]
  rintro ⟨rfl, rfl⟩
  cases step

theorem run_body {p q : Pending} {row : List Token} (follow : p.follow row = some q) :
    (body done f params lines p).run row = some (body done f params lines q) := by
  induction row generalizing p with
  | nil =>
    cases follow
    rfl
  | cons token rest ih =>
    obtain ⟨r, first, follow⟩ := Option.bind_eq_some_iff.mp follow
    rw [run_cons, step_body done f params lines (Pending.next_eq_some.mp first)]
    exact ih follow

theorem run_line {row : List Token} {line : Line} (derived : IsLine row line) :
    (body done f params lines .start).run row =
      some (body done f params (lines ++ [line]) .start) := by
  cases derived with
  | label name => rfl
  | statement derived =>
    obtain ⟨p, follow, ready⟩ := Pending.follow_statement derived
    rw [run_append, run_body done f params lines follow, Option.bind_some, run_cons,
      step_body_line done f params lines ready]
    rfl

theorem run_lines {row : List Token} {more : List Line} (derived : Many IsLine row more) :
    (body done f params lines .start).run row =
      some (body done f params (lines ++ more) .start) := by
  induction derived with
  | none => rw [run_nil, List.append_nil]
  | more _ last ih =>
    rw [run_append, ih, Option.bind_some, run_line done f params _ last, List.append_assoc]

theorem run_params {row : List Token} {params : List Param}
    (items : Many (Listed IsParam) row params) :
    (param done f []).run row = some (param done f params) := by
  induction items with
  | none => rfl
  | more _ last ih =>
    cases last with
    | comma param =>
      rw [run_append, ih]
      cases param <;> rfl

theorem run_header {row : List Token} {params : List Param} (list : Comma IsParam row params) :
    (param done f []).run (row ++ [.symbol .rightParen]) = some (bodyOpen done f params) := by
  cases list with
  | list items last =>
    rw [List.append_assoc, run_append, run_params done f items, Option.bind_some]
    cases last with
    | none =>
      rw [Option.toList_none, List.append_nil]
      rfl
    | some param => cases param <;> rfl

end Body

theorem run_func (done : Program) {row : List Token} {f : Func} (derived : IsFunc row f) :
    (top done).run row = some (top (done ++ [f])) := by
  cases derived with
  | @func name p b values lines params body =>
    have opened : (top done).run [.symbol .fnWord, .ident name, .symbol .leftParen] =
        some (param done name []) := rfl
    have entered : (bodyOpen done name values).run [.symbol .leftBrace] =
        some (.body done name values [] .start) := rfl
    have closed : (State.body done name values lines .start).run [.symbol .rightBrace] =
        some (top (done ++ [⟨name, values, lines⟩])) := rfl
    have parts : ∀ (front : List Token) (right left last : Token),
        front ++ p ++ [right, left] ++ b ++ [last] =
          front ++ ((p ++ [right]) ++ ([left] ++ (b ++ [last]))) := by simp
    rw [parts, run_append, opened, Option.bind_some, run_append, run_header done name params,
      Option.bind_some, run_append, entered, Option.bind_some, run_append,
      run_lines done name values [] body, Option.bind_some, List.nil_append, closed]

/-- What the grammar derives is accepted, with the value of the derivation. -/
theorem run_of_isProgram {tokens : List Token} {program : Program}
    (derived : IsProgram tokens program) : (top []).run tokens = some (top program) := by
  induction derived with
  | none => rfl
  | more _ last ih => rw [run_append, ih, Option.bind_some, run_func _ last]

theorem run_eq_top {tokens : List Token} {program : Program} :
    (top []).run tokens = some (top program) ↔ IsProgram tokens program :=
  ⟨isProgram_of_run, run_of_isProgram⟩

end State

end RegisterColoring.Source
