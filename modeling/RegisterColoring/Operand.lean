import RegisterColoring.Token

namespace RegisterColoring

/-- A value that an instruction reads. -/
inductive Operand
  | const (n : Int)
  | temp (t : Temp)
deriving DecidableEq

namespace Operand

/-- The temp that the operand reads, if it is one. -/
def temp? : Operand → Option Temp
  | const _ => none
  | temp t => some t

/-- The operand with its temp renamed. -/
def map (f : Temp → Temp) : Operand → Operand
  | const n => const n
  | temp t => temp (f t)

end Operand

inductive BinOp
  | add | sub | mul | div | mod | bitAnd | bitOr | bitXor | shiftLeft | shiftRight
  | less | lessEqual | greater | greaterEqual | equal | notEqual
deriving DecidableEq

namespace BinOp

/-- The symbol that writes the operator. -/
def symbol : BinOp → Symbol
  | add => .plus
  | sub => .minus
  | mul => .star
  | div => .slash
  | mod => .percent
  | bitAnd => .ampersand
  | bitOr => .bar
  | bitXor => .caret
  | shiftLeft => .shiftLeft
  | shiftRight => .shiftRight
  | less => .less
  | lessEqual => .lessEqual
  | greater => .greater
  | greaterEqual => .greaterEqual
  | equal => .equal
  | notEqual => .notEqual

/-- Division and remainder stop the program on a zero divisor. -/
def mayTrap : BinOp → Bool
  | div | mod => true
  | _ => false

end BinOp

inductive UnOp
  | neg | not | bitNot
deriving DecidableEq

namespace UnOp

/-- The symbol that writes the operator. -/
def symbol : UnOp → Symbol
  | neg => .minus
  | not => .bang
  | bitNot => .tilde

end UnOp

/-- The test of a conditional branch. -/
inductive Cond
  | test (arg : Operand)
  | compare (op : BinOp) (left right : Operand)
deriving DecidableEq

namespace Cond

/-- What the test reads, in order. -/
def operands : Cond → List Operand
  | test arg => [arg]
  | compare _ left right => [left, right]

def map (f : Temp → Temp) : Cond → Cond
  | test arg => test (arg.map f)
  | compare op left right => compare op (left.map f) (right.map f)

end Cond

end RegisterColoring
