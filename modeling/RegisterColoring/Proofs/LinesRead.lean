import RegisterColoring.Proofs.Grammar

namespace RegisterColoring.Source

open Grammar

namespace Pending

/-- The tokens that stand before a call. -/
def destination : Option Temp → List Token
  | none => []
  | some t => [.temp t, .symbol .arrow]

/-- The tokens of a call up to its arguments. -/
def callHead (dest : Option Temp) (name : String) : List Token :=
  destination dest ++ [.symbol .callWord, .ident name, .symbol .leftParen]

/-- The tokens that may have been read of the line. -/
def Reads : Pending → List Token → Prop
  | start, row => row = []
  | label name, row => row = [.ident name]
  | dest t, row => row = [.temp t]
  | value t, row => row = [.temp t, .symbol .arrow]
  | leftOperand t left, row =>
    ∃ l, operand? l = some left ∧ row = [.temp t, .symbol .arrow, l]
  | binary t op left, row =>
    ∃ l o, operand? l = some left ∧ binOp? o = some op ∧ row = [.temp t, .symbol .arrow, l, o]
  | unary t op, row => row = [.temp t, .symbol .arrow, .symbol op.symbol]
  | load t, row => row = [.temp t, .symbol .arrow, .symbol .star]
  | address t, row => row = [.temp t, .symbol .arrow, .symbol .ampersand]
  | spillLoad t, row => row = [.temp t, .symbol .arrow, .symbol .spillLoadWord]
  | callee d, row => row = destination d ++ [.symbol .callWord]
  | callOpen d name, row => row = destination d ++ [.symbol .callWord, .ident name]
  | argument d name args, row => ∃ a, Many (Listed IsOperand) a args ∧ row = callHead d name ++ a
  | argumentEnd d name args, row =>
    ∃ a before l last, Many (Listed IsOperand) a before ∧ IsOperand l last ∧
      args = before ++ [last] ∧ row = callHead d name ++ (a ++ l)
  | storeAddress, row => row = [.symbol .star]
  | storeArrow addr, row => row = [.symbol .star, .temp addr]
  | storeValue addr, row => row = [.symbol .star, .temp addr, .symbol .arrow]
  | spillSlot, row => row = [.symbol .spillStoreWord]
  | spillArrow s, row => row = [.symbol .spillStoreWord, .slot s]
  | spillValue s, row => row = [.symbol .spillStoreWord, .slot s, .symbol .arrow]
  | jump, row => row = [.symbol .gotoWord]
  | condition, row => row = [.symbol .ifWord]
  | conditionLeft left, row => ∃ l, operand? l = some left ∧ row = [.symbol .ifWord, l]
  | conditionRight op left, row =>
    ∃ l o, operand? l = some left ∧ binOp? o = some op ∧ row = [.symbol .ifWord, l, o]
  | conditionEnd cond, row => ∃ c, IsCond c cond ∧ row = [.symbol .ifWord] ++ c
  | branchYes cond, row =>
    ∃ c, IsCond c cond ∧ row = [.symbol .ifWord] ++ c ++ [.symbol .gotoWord]
  | branchElse cond yes, row =>
    ∃ c, IsCond c cond ∧ row = [.symbol .ifWord] ++ c ++ [.symbol .gotoWord, .ident yes]
  | branchNo cond yes, row =>
    ∃ c, IsCond c cond ∧
      row = [.symbol .ifWord] ++ c ++ [.symbol .gotoWord, .ident yes, .symbol .elseWord]
  | result, row => row = [.symbol .retWord]
  | complete s, row => IsStatement row s

@[simp] theorem more_eq_more {p q : Pending} : more p = some (.inl q) ↔ p = q := by
  simp [more]

@[simp] theorem more_ne_line {p : Pending} {line : Line} : more p ≠ some (.inr line) := by
  simp [more]

@[simp] theorem finish_ne_more {s : Statement} {p : Pending} : finish s ≠ some (.inl p) := by
  simp [finish]

@[simp] theorem finish_eq_line {s : Statement} {line : Line} :
    finish s = some (.inr line) ↔ .statement s = line := by
  simp [finish]

theorem more_of_bind {α : Type} {x : Option α} {f : α → Pending} {q : Pending}
    (run : (x.bind fun a => more (f a)) = some (.inl q)) : ∃ a, x = some a ∧ f a = q := by
  simpa [Option.bind_eq_some_iff] using run

theorem more_of_if {token only : Token} {p q : Pending}
    (run : (if token = only then more p else none) = some (.inl q)) : token = only ∧ p = q := by
  simpa using run

end Pending

namespace Grammar

theorem isStatement_call (dest : Option Temp) (name : String) {a : List Token}
    {args : List Operand} (list : Comma IsOperand a args) :
    IsStatement (Pending.callHead dest name ++ a ++ [.symbol .rightParen])
      (Pending.callStatement dest name args) := by
  cases dest with
  | none => exact .call name list
  | some t => exact .assign t (.call name list)

end Grammar

namespace Pending

theorem reads_of_value {t : Temp} {token : Token} {q : Pending}
    (run : (value t).step token = some (.inl q)) : q.Reads [.temp t, .symbol .arrow, token] := by
  cases token with
  | symbol s =>
    cases s <;>
      simp only [step, UnOp.ofSymbol?, Option.bind_none, Option.bind_some, more_eq_more,
        reduceCtorEq] at run <;> subst run <;> rfl
  | temp u =>
    cases more_eq_more.mp run
    exact ⟨_, rfl, rfl⟩
  | imm n =>
    cases more_eq_more.mp run
    exact ⟨_, rfl, rfl⟩
  | _ => simp [step, operand?] at run

/-- What a line is read as. -/
inductive Kind
  | plain
  | assignment
  | call
  | store
  | branch

def kind : Pending → Kind
  | start | label _ | jump | result | complete _ => .plain
  | dest _ | value _ | leftOperand .. | binary .. | unary .. | load _ | address _ | spillLoad _ =>
    .assignment
  | callee _ | callOpen .. | argument .. | argumentEnd .. => .call
  | storeAddress | storeArrow _ | storeValue _ | spillSlot | spillArrow _ | spillValue _ => .store
  | condition | conditionLeft _ | conditionRight .. | conditionEnd _ | branchYes _ | branchElse ..
  | branchNo .. => .branch

section Steps

variable {p q : Pending} {row : List Token} {token : Token} (read : p.Reads row)
  (run : p.step token = some (.inl q))
include read run

theorem Reads.step_plain (kind : p.kind = .plain) : q.Reads (row ++ [token]) := by
  cases p with
  | start =>
    subst read
    simp only [Pending.step] at run
    split at run <;> cases run <;> rfl
  | label name =>
    simp only [Pending.step] at run
    split at run <;> cases run
  | jump =>
    subst read
    obtain ⟨target, found, rfl⟩ := more_of_bind run
    cases ident?_eq_some.mp found
    exact .goto target
  | result =>
    subst read
    simp only [Pending.step] at run
    split at run
    · cases finish_ne_more run
    · obtain ⟨v, found, rfl⟩ := more_of_bind run
      exact .ret (.some (isOperand_of found))
  | complete s =>
    simp only [Pending.step, Option.ite_none_right_eq_some] at run
    cases finish_ne_more run.2
  | _ => cases kind

theorem Reads.step_assignment (kind : p.kind = .assignment) : q.Reads (row ++ [token]) := by
  cases p with
  | dest t =>
    subst read
    obtain ⟨rfl, rfl⟩ := more_of_if run
    rfl
  | value t =>
    subst read
    exact reads_of_value run
  | leftOperand t left =>
    obtain ⟨l, foundLeft, rfl⟩ := read
    simp only [Pending.step] at run
    split at run
    · cases finish_ne_more run
    · obtain ⟨op, foundOp, rfl⟩ := more_of_bind run
      exact ⟨l, token, foundLeft, foundOp, rfl⟩
  | binary t op left =>
    obtain ⟨l, o, foundLeft, foundOp, rfl⟩ := read
    obtain ⟨right, foundRight, rfl⟩ := more_of_bind run
    exact .assign t (.binary (isOperand_of foundLeft) (isBinOp_of foundOp)
      (isOperand_of foundRight))
  | unary t op =>
    subst read
    obtain ⟨arg, found, rfl⟩ := more_of_bind run
    exact .assign t (.unary (isUnOp_iff.mpr rfl) (isOperand_of found))
  | load t =>
    subst read
    obtain ⟨addr, found, rfl⟩ := more_of_bind run
    cases temp?_eq_some.mp found
    exact .assign t (.load addr)
  | address t =>
    subst read
    simp only [Pending.step] at run
    split at run
    · cases more_eq_more.mp run
      exact .assign t (.addrOf _)
    · cases more_eq_more.mp run
      exact .assign t (.slotAddr _)
    · cases run
  | spillLoad t =>
    subst read
    obtain ⟨slot, found, rfl⟩ := more_of_bind run
    cases slot?_eq_some.mp found
    exact .assign t (.spillLoad slot)
  | _ => cases kind

theorem Reads.step_call (kind : p.kind = .call) : q.Reads (row ++ [token]) := by
  cases p with
  | callee d =>
    subst read
    obtain ⟨name, found, rfl⟩ := more_of_bind run
    cases ident?_eq_some.mp found
    exact List.append_assoc ..
  | callOpen d name =>
    subst read
    obtain ⟨rfl, rfl⟩ := more_of_if run
    exact ⟨[], .none, by simp [callHead]⟩
  | argument d name args =>
    obtain ⟨a, items, rfl⟩ := read
    simp only [Pending.step] at run
    split at run
    next close =>
      subst close
      cases more_eq_more.mp run
      exact isStatement_call d name items.comma
    next =>
      obtain ⟨arg, found, rfl⟩ := more_of_bind run
      exact ⟨a, args, [token], arg, items, isOperand_of found, rfl, List.append_assoc ..⟩
  | argumentEnd d name args =>
    obtain ⟨a, before, l, last, items, operand, rfl, rfl⟩ := read
    simp only [Pending.step] at run
    split at run
    next comma =>
      subst comma
      cases more_eq_more.mp run
      exact ⟨a ++ (l ++ [.symbol .comma]), items.more (.comma operand), by simp⟩
    next =>
      obtain ⟨rfl, rfl⟩ := more_of_if run
      exact isStatement_call d name (items.last operand)
  | _ => cases kind

theorem Reads.step_store (kind : p.kind = .store) : q.Reads (row ++ [token]) := by
  cases p with
  | storeAddress =>
    subst read
    obtain ⟨addr, found, rfl⟩ := more_of_bind run
    cases temp?_eq_some.mp found
    rfl
  | storeArrow addr =>
    subst read
    obtain ⟨rfl, rfl⟩ := more_of_if run
    rfl
  | storeValue addr =>
    subst read
    obtain ⟨v, found, rfl⟩ := more_of_bind run
    exact .store addr (isOperand_of found)
  | spillSlot =>
    subst read
    obtain ⟨slot, found, rfl⟩ := more_of_bind run
    cases slot?_eq_some.mp found
    rfl
  | spillArrow slot =>
    subst read
    obtain ⟨rfl, rfl⟩ := more_of_if run
    rfl
  | spillValue slot =>
    subst read
    obtain ⟨t, found, rfl⟩ := more_of_bind run
    cases temp?_eq_some.mp found
    exact .spillStore slot t
  | _ => cases kind

theorem Reads.step_branch (kind : p.kind = .branch) : q.Reads (row ++ [token]) := by
  cases p with
  | condition =>
    subst read
    obtain ⟨left, found, rfl⟩ := more_of_bind run
    exact ⟨token, found, rfl⟩
  | conditionLeft left =>
    obtain ⟨l, foundLeft, rfl⟩ := read
    simp only [Pending.step] at run
    split at run
    next word =>
      subst word
      cases more_eq_more.mp run
      exact ⟨[l], .test (isOperand_of foundLeft), rfl⟩
    next =>
      obtain ⟨op, foundOp, rfl⟩ := more_of_bind run
      exact ⟨l, token, foundLeft, foundOp, rfl⟩
  | conditionRight op left =>
    obtain ⟨l, o, foundLeft, foundOp, rfl⟩ := read
    obtain ⟨right, foundRight, rfl⟩ := more_of_bind run
    exact ⟨[l] ++ [o] ++ [token],
      .compare (isOperand_of foundLeft) (isBinOp_of foundOp) (isOperand_of foundRight), rfl⟩
  | conditionEnd cond =>
    obtain ⟨c, whole, rfl⟩ := read
    obtain ⟨rfl, rfl⟩ := more_of_if run
    exact ⟨c, whole, rfl⟩
  | branchYes cond =>
    obtain ⟨c, whole, rfl⟩ := read
    obtain ⟨yes, found, rfl⟩ := more_of_bind run
    cases ident?_eq_some.mp found
    exact ⟨c, whole, List.append_assoc ..⟩
  | branchElse cond yes =>
    obtain ⟨c, whole, rfl⟩ := read
    obtain ⟨rfl, rfl⟩ := more_of_if run
    exact ⟨c, whole, List.append_assoc ..⟩
  | branchNo cond yes =>
    obtain ⟨c, whole, rfl⟩ := read
    obtain ⟨no, found, rfl⟩ := more_of_bind run
    cases ident?_eq_some.mp found
    rw [List.append_assoc]
    exact .branch yes no whole
  | _ => cases kind

/-- A token that does not end the line extends what has been read. -/
theorem Reads.step : q.Reads (row ++ [token]) := by
  cases kind : p.kind with
  | plain => exact read.step_plain run kind
  | assignment => exact read.step_assignment run kind
  | call => exact read.step_call run kind
  | store => exact read.step_store run kind
  | branch => exact read.step_branch run kind

end Steps

/-- The token that ends the line completes a line of the grammar. -/
theorem Reads.line {p : Pending} {row : List Token} {token : Token} {line : Line}
    (read : p.Reads row) (run : p.step token = some (.inr line)) :
    IsLine (row ++ [token]) line := by
  cases p with
  | label name =>
    subst read
    simp only [Pending.step, Option.ite_none_right_eq_some, Option.some.injEq, Sum.inr.injEq] at run
    obtain ⟨rfl, rfl⟩ := run
    exact .label name
  | leftOperand t left =>
    obtain ⟨l, found, rfl⟩ := read
    simp only [Pending.step] at run
    split at run
    next semicolon =>
      subst semicolon
      cases finish_eq_line.mp run
      exact .statement (.assign t (.move (isOperand_of found)))
    next =>
      obtain ⟨_, _, run⟩ := Option.bind_eq_some_iff.mp run
      cases more_ne_line run
  | result =>
    subst read
    simp only [Pending.step] at run
    split at run
    next semicolon =>
      subst semicolon
      cases finish_eq_line.mp run
      exact .statement (.ret .none)
    next =>
      obtain ⟨_, _, run⟩ := Option.bind_eq_some_iff.mp run
      cases more_ne_line run
  | complete s =>
    simp only [Pending.step, Option.ite_none_right_eq_some, finish_eq_line] at run
    obtain ⟨rfl, rfl⟩ := run
    exact .statement read
  | value t =>
    simp only [Pending.step] at run
    split at run <;> simp [Option.bind_eq_some_iff] at run
  | _ =>
    simp only [Pending.step] at run
    repeat' split at run
    all_goals simp [Option.bind_eq_some_iff] at run

end Pending

end RegisterColoring.Source
