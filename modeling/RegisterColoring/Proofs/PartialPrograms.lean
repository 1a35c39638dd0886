import RegisterColoring.Source.Machine

namespace RegisterColoring

namespace BinOp

/-- The operator that a symbol writes between two operands. -/
def ofSymbol? : Symbol → Option BinOp
  | .plus => some add
  | .minus => some sub
  | .star => some mul
  | .slash => some div
  | .percent => some mod
  | .ampersand => some bitAnd
  | .bar => some bitOr
  | .caret => some bitXor
  | .shiftLeft => some shiftLeft
  | .shiftRight => some shiftRight
  | .less => some less
  | .lessEqual => some lessEqual
  | .greater => some greater
  | .greaterEqual => some greaterEqual
  | .equal => some equal
  | .notEqual => some notEqual
  | _ => none

theorem ofSymbol?_eq_some {s : Symbol} {op : BinOp} : ofSymbol? s = some op ↔ s = op.symbol := by
  cases s <;> cases op <;> simp [ofSymbol?, symbol]

end BinOp

namespace UnOp

/-- The operator that a symbol writes in front of an operand. -/
def ofSymbol? : Symbol → Option UnOp
  | .minus => some neg
  | .bang => some not
  | .tilde => some bitNot
  | _ => none

end UnOp

namespace Source

/-- The name that an identifier writes. -/
def ident? : Token → Option String
  | .ident name => some name
  | _ => none

def temp? : Token → Option Temp
  | .temp t => some t
  | _ => none

def slot? : Token → Option Slot
  | .slot s => some s
  | _ => none

def register? : Token → Option String
  | .reg name => some name
  | _ => none

/-- The operand that a token writes. -/
def operand? : Token → Option Operand
  | .temp t => some (.temp t)
  | .imm n => some (.const n)
  | _ => none

def binOp? : Token → Option BinOp
  | .symbol s => BinOp.ofSymbol? s
  | _ => none

theorem ident?_eq_some {token : Token} {name : String} :
    ident? token = some name ↔ token = .ident name := by
  cases token <;> simp [ident?]

theorem temp?_eq_some {token : Token} {t : Temp} : temp? token = some t ↔ token = .temp t := by
  cases token <;> simp [temp?]

theorem slot?_eq_some {token : Token} {s : Slot} : slot? token = some s ↔ token = .slot s := by
  cases token <;> simp [slot?]

theorem register?_eq_some {token : Token} {name : String} :
    register? token = some name ↔ token = .reg name := by
  cases token <;> simp [register?]

/-- What has been read of a line. -/
inductive Pending
  /-- Nothing yet. -/
  | start
  /-- An identifier, which can only be a label. -/
  | label (name : String)
  /-- A temp, to be assigned. -/
  | dest (t : Temp)
  /-- A temp and the arrow. -/
  | value (t : Temp)
  /-- An operand behind the arrow: the whole value, or the left side of an operator. -/
  | leftOperand (t : Temp) (left : Operand)
  | binary (t : Temp) (op : BinOp) (left : Operand)
  | unary (t : Temp) (op : UnOp)
  | load (t : Temp)
  | address (t : Temp)
  | spillLoad (t : Temp)
  /-- The word that starts a call, with the temp that takes its result. -/
  | callee (dest : Option Temp)
  | callOpen (dest : Option Temp) (name : String)
  /-- A place in a list of arguments where the next one, or the end, may stand. -/
  | argument (dest : Option Temp) (name : String) (args : List Operand)
  /-- An argument, after which only a comma or the end may stand. -/
  | argumentEnd (dest : Option Temp) (name : String) (args : List Operand)
  | storeAddress
  | storeArrow (addr : Temp)
  | storeValue (addr : Temp)
  | spillSlot
  | spillArrow (slot : Slot)
  | spillValue (slot : Slot)
  | jump
  /-- The word that starts a branch. -/
  | condition
  | conditionLeft (left : Operand)
  | conditionRight (op : BinOp) (left : Operand)
  /-- A whole condition. -/
  | conditionEnd (cond : Cond)
  | branchYes (cond : Cond)
  | branchElse (cond : Cond) (yes : String)
  | branchNo (cond : Cond) (yes : String)
  | result
  /-- A whole statement, of which only the semicolon is missing. -/
  | complete (s : Statement)
deriving DecidableEq

namespace Pending

/-- Go on in the same line. -/
def more (p : Pending) : Option (Pending ⊕ Line) := some (.inl p)

/-- A line is complete. -/
def finish (s : Statement) : Option (Pending ⊕ Line) := some (.inr (.statement s))

/-- The call statement with or without a temp for its result. -/
def callStatement (dest : Option Temp) (name : String) (args : List Operand) : Statement :=
  match dest with
  | none => .call name args
  | some t => .assign t (.call name args)

/-- What a token adds to a line, if it may stand there. -/
def step : Pending → Token → Option (Pending ⊕ Line)
  | start, token =>
    match token with
    | .ident name => more (label name)
    | .temp t => more (dest t)
    | .symbol .star => more storeAddress
    | .symbol .callWord => more (callee none)
    | .symbol .spillStoreWord => more spillSlot
    | .symbol .gotoWord => more jump
    | .symbol .ifWord => more condition
    | .symbol .retWord => more result
    | _ => none
  | label name, token => if token = .symbol .colon then some (.inr (.label name)) else none
  | dest t, token => if token = .symbol .arrow then more (value t) else none
  | value t, token =>
    match token with
    | .symbol .star => more (load t)
    | .symbol .ampersand => more (address t)
    | .symbol .spillLoadWord => more (spillLoad t)
    | .symbol .callWord => more (callee (some t))
    | .symbol s => (UnOp.ofSymbol? s).bind fun op => more (unary t op)
    | _ => (operand? token).bind fun left => more (leftOperand t left)
  | leftOperand t left, token =>
    if token = .symbol .semicolon then finish (.assign t (.move left))
    else (binOp? token).bind fun op => more (binary t op left)
  | binary t op left, token =>
    (operand? token).bind fun right => more (complete (.assign t (.binary op left right)))
  | unary t op, token =>
    (operand? token).bind fun arg => more (complete (.assign t (.unary op arg)))
  | load t, token => (temp? token).bind fun addr => more (complete (.assign t (.load addr)))
  | address t, token =>
    match token with
    | .temp var => more (complete (.assign t (.addrOf var)))
    | .slot s => more (complete (.assign t (.slotAddr s)))
    | _ => none
  | spillLoad t, token => (slot? token).bind fun s => more (complete (.assign t (.spillLoad s)))
  | callee d, token => (ident? token).bind fun name => more (callOpen d name)
  | callOpen d name, token =>
    if token = .symbol .leftParen then more (argument d name []) else none
  | argument d name args, token =>
    if token = .symbol .rightParen then more (complete (callStatement d name args))
    else (operand? token).bind fun arg => more (argumentEnd d name (args ++ [arg]))
  | argumentEnd d name args, token =>
    if token = .symbol .comma then more (argument d name args)
    else if token = .symbol .rightParen then more (complete (callStatement d name args))
    else none
  | storeAddress, token => (temp? token).bind fun addr => more (storeArrow addr)
  | storeArrow addr, token => if token = .symbol .arrow then more (storeValue addr) else none
  | storeValue addr, token => (operand? token).bind fun v => more (complete (.store addr v))
  | spillSlot, token => (slot? token).bind fun s => more (spillArrow s)
  | spillArrow s, token => if token = .symbol .arrow then more (spillValue s) else none
  | spillValue s, token => (temp? token).bind fun t => more (complete (.spillStore s t))
  | jump, token => (ident? token).bind fun target => more (complete (.goto target))
  | condition, token => (operand? token).bind fun left => more (conditionLeft left)
  | conditionLeft left, token =>
    if token = .symbol .gotoWord then more (branchYes (.test left))
    else (binOp? token).bind fun op => more (conditionRight op left)
  | conditionRight op left, token =>
    (operand? token).bind fun right => more (conditionEnd (.compare op left right))
  | conditionEnd cond, token => if token = .symbol .gotoWord then more (branchYes cond) else none
  | branchYes cond, token => (ident? token).bind fun yes => more (branchElse cond yes)
  | branchElse cond yes, token =>
    if token = .symbol .elseWord then more (branchNo cond yes) else none
  | branchNo cond yes, token => (ident? token).bind fun no => more (complete (.branch cond yes no))
  | result, token =>
    if token = .symbol .semicolon then finish (.ret none)
    else (operand? token).bind fun v => more (complete (.ret (some v)))
  | complete s, token => if token = .symbol .semicolon then finish s else none

end Pending

/-- What has been read of a program: the functions that are complete, and the parts of the one that
is being read. -/
inductive State
  /-- Between two functions. -/
  | top (done : Program)
  /-- The word that starts a function. -/
  | name (done : Program)
  | paramsOpen (done : Program) (name : String)
  /-- A place in the parameter list where the next one, or the end, may stand. -/
  | param (done : Program) (name : String) (params : List Param)
  /-- A parameter that may still be pinned. -/
  | paramTemp (done : Program) (name : String) (params : List Param) (t : Temp)
  | paramPin (done : Program) (name : String) (params : List Param) (t : Temp)
  /-- A pinned parameter, after which only a comma or the end may stand. -/
  | paramEnd (done : Program) (name : String) (params : List Param)
  | bodyOpen (done : Program) (name : String) (params : List Param)
  /-- Inside the body. -/
  | body (done : Program) (name : String) (params : List Param) (lines : List Line)
      (pending : Pending)
deriving DecidableEq

namespace State

/-- What a token adds to a body. -/
def bodyStep (done : Program) (f : String) (params : List Param) (lines : List Line)
    (pending : Pending) (token : Token) : Option State :=
  if pending = .start ∧ token = .symbol .rightBrace then
    some (top (done ++ [⟨f, params, lines⟩]))
  else
    match pending.step token with
    | none => none
    | some (.inl next) => some (body done f params lines next)
    | some (.inr line) => some (body done f params (lines ++ [line]) .start)

/-- What a token adds to a program, if it may stand there. -/
def step : State → Token → Option State
  | top done, token => if token = .symbol .fnWord then some (name done) else none
  | name done, token => (ident? token).map (paramsOpen done)
  | paramsOpen done f, token => if token = .symbol .leftParen then some (param done f []) else none
  | param done f params, token =>
    if token = .symbol .rightParen then some (bodyOpen done f params)
    else (temp? token).map (paramTemp done f params)
  | paramTemp done f params t, token =>
    match token with
    | .symbol .colon => some (paramPin done f params t)
    | .symbol .comma => some (param done f (params ++ [⟨t, none⟩]))
    | .symbol .rightParen => some (bodyOpen done f (params ++ [⟨t, none⟩]))
    | _ => none
  | paramPin done f params t, token =>
    (register? token).map fun r => paramEnd done f (params ++ [⟨t, some r⟩])
  | paramEnd done f params, token =>
    match token with
    | .symbol .comma => some (param done f params)
    | .symbol .rightParen => some (bodyOpen done f params)
    | _ => none
  | bodyOpen done f params, token =>
    if token = .symbol .leftBrace then some (body done f params [] .start) else none
  | body done f params lines pending, token => bodyStep done f params lines pending token

/-- The program, if the text may end here. -/
def program? : State → Option Program
  | top done => some done
  | _ => none

/-- The terminals that may come next. -/
def expected (s : State) : List Terminal := Terminal.all.filter fun a => (s.step a.sample).isSome

end State

/-- Read the rest of a program; `place` is where the text read so far ends. -/
def readFrom : State → Nat → List Lexeme → Except Mismatch Program
  | s, place, [] =>
    match s.program? with
    | some program => .ok program
    | none => .error ⟨place, none, s.expected⟩
  | s, _, x :: rest =>
    match s.step x.token with
    | some next => readFrom next x.stop rest
    | none => .error ⟨x.start, some x, s.expected⟩

namespace State

/-- The state after some tokens, if each of them may stand where it does. -/
def run (s : State) (tokens : List Token) : Option State := tokens.foldlM State.step s

@[simp] theorem run_nil (s : State) : s.run [] = some s := rfl

@[simp] theorem run_cons (s : State) (token : Token) (rest : List Token) :
    s.run (token :: rest) = (s.step token).bind (·.run rest) := rfl

theorem run_append (s : State) (row rest : List Token) :
    s.run (row ++ rest) = (s.run row).bind (·.run rest) := List.foldlM_append

/-- Characters that form no token may stand nowhere. -/
theorem step_invalid (s : State) : s.step .invalid = none := by
  cases s with
  | body done f params lines pending => cases pending <;> rfl
  | _ => rfl

theorem run_of_invalid {s : State} {tokens : List Token} (bad : .invalid ∈ tokens) :
    s.run tokens = none := by
  obtain ⟨row, rest, rfl⟩ := List.append_of_mem bad
  rw [run_append]
  cases s.run row with
  | none => rfl
  | some t => rw [Option.bind_some, run_cons, step_invalid, Option.bind_none]

theorem program?_eq_some {s : State} {program : Program} :
    s.program? = some program ↔ s = top program := by
  cases s <;> simp [program?]

end State

theorem readFrom_eq_ok {s : State} {place : Nat} {lexemes : List Lexeme} {program : Program} :
    readFrom s place lexemes = .ok program ↔
      s.run (lexemes.map (·.token)) = some (.top program) := by
  induction lexemes generalizing s place with
  | nil =>
    rw [List.map_nil, State.run_nil, Option.some.injEq, ← State.program?_eq_some]
    cases found : s.program? <;> simp [readFrom, found]
  | cons x rest ih =>
    rw [List.map_cons, State.run_cons]
    cases found : s.step x.token with
    | none => simp [readFrom, found]
    | some next =>
      rw [Option.bind_some]
      simpa [readFrom, found] using ih

end Source

end RegisterColoring
