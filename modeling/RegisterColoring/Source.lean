import RegisterColoring.Operand

namespace RegisterColoring.Source

/-- A parameter, possibly pinned to a register as in `t0: %rdi`. -/
structure Param where
  temp : Temp
  reg : Option String
deriving DecidableEq

/-- The right hand side of an assignment. -/
inductive Expr
  | binary (op : BinOp) (left right : Operand)
  | unary (op : UnOp) (arg : Operand)
  | move (arg : Operand)
  | load (addr : Temp)
  | addrOf (var : Temp)
  | slotAddr (slot : Slot)
  | spillLoad (slot : Slot)
  | call (callee : String) (args : List Operand)
deriving DecidableEq

inductive Statement
  | assign (dest : Temp) (value : Expr)
  | store (addr : Temp) (value : Operand)
  | call (callee : String) (args : List Operand)
  | spillStore (slot : Slot) (value : Temp)
  | goto (label : String)
  | branch (cond : Cond) (yes no : String)
  | ret (value : Option Operand)
deriving DecidableEq

/-- Whether control never passes to the line below. -/
def Statement.isTerminator : Statement → Bool
  | .goto _ | .branch .. | .ret _ => true
  | _ => false

inductive Line
  | label (name : String)
  | statement (s : Statement)
deriving DecidableEq

structure Func where
  name : String
  params : List Param
  body : List Line
deriving DecidableEq

abbrev Program := List Func

/-- The statements of a body, without the labels. -/
def Func.statements (f : Func) : List Statement :=
  f.body.filterMap fun
    | .label _ => none
    | .statement s => some s

/-- The parameter as a header writes it. -/
def Param.text (p : Param) : String :=
  match p.reg with
  | some reg => "t" ++ toString p.temp ++ ": " ++ reg
  | none => "t" ++ toString p.temp

end RegisterColoring.Source
