import RegisterColoring.Operand

namespace RegisterColoring

/-- The entries of a list in the order of their first occurrences, each once. -/
def distinct : List Nat → List Nat
  | [] => []
  | x :: rest => x :: (distinct rest).filter (· ≠ x)

theorem mem_distinct {x : Nat} {l : List Nat} : x ∈ distinct l ↔ x ∈ l := by
  induction l with
  | nil => simp [distinct]
  | cons y rest ih =>
    by_cases h : x = y
    · simp [distinct, h]
    · simp [distinct, ih, h]

inductive Instr
  | binary (op : BinOp) (dest : Temp) (left right : Operand)
  | unary (op : UnOp) (dest : Temp) (arg : Operand)
  | move (dest : Temp) (arg : Operand)
  | load (dest addr : Temp)
  | store (addr : Temp) (value : Operand)
  /-- The address of a temp, which keeps the temp live in the whole function. -/
  | addrOf (dest var : Temp)
  /-- The address of a slot, which is what `addrOf` becomes once its temp lives in memory. -/
  | slotAddr (dest : Temp) (slot : Slot)
  | call (dest : Option Temp) (callee : String) (args : List Operand)
  | spillLoad (dest : Temp) (slot : Slot)
  | spillStore (slot : Slot) (value : Temp)
  | jump (target : BlockId)
  | branch (cond : Cond) (yes no : BlockId)
  | ret (value : Option Operand)
deriving DecidableEq

namespace Instr

/-- The temp that the instruction writes. -/
def dest? : Instr → Option Temp
  | binary _ dest _ _ => some dest
  | unary _ dest _ => some dest
  | move dest _ => some dest
  | load dest _ => some dest
  | addrOf dest _ => some dest
  | slotAddr dest _ => some dest
  | call dest _ _ => dest
  | spillLoad dest _ => some dest
  | store .. | spillStore .. | jump .. | branch .. | ret .. => none

/-- What the instruction reads, in order. -/
def operands : Instr → List Operand
  | binary _ _ left right => [left, right]
  | unary _ _ arg => [arg]
  | move _ arg => [arg]
  | load _ addr => [.temp addr]
  | store addr value => [.temp addr, value]
  | addrOf _ var => [.temp var]
  | call _ _ args => args
  | spillStore _ value => [.temp value]
  | branch cond _ _ => cond.operands
  | ret value => value.toList
  | slotAddr .. | spillLoad .. | jump .. => []

/-- The temps that the instruction reads, in the order of their first occurrences. -/
def uses (i : Instr) : List Temp := distinct (i.operands.filterMap Operand.temp?)

/-- Whether the instruction can be observed apart from the temp that it writes. -/
def hasEffect : Instr → Bool
  | call .. | store .. | spillStore .. | jump .. | branch .. | ret .. => true
  | binary op .. => op.mayTrap
  | _ => false

/-- Destination and source of a copy between temps. -/
def copy? : Instr → Option (Temp × Temp)
  | move dest (.temp src) => some (dest, src)
  | _ => none

/-- The temp whose address the instruction takes. -/
def addressTaken? : Instr → Option Temp
  | addrOf _ var => some var
  | _ => none

/-- Whether control never passes to the instruction below. -/
def isTerminator : Instr → Bool
  | jump .. | branch .. | ret .. => true
  | _ => false

/-- The blocks to which the instruction may jump, each once. -/
def targets : Instr → List BlockId
  | jump target => [target]
  | branch _ yes no => distinct [yes, no]
  | _ => []

/-- The slot that the instruction names. -/
def slot? : Instr → Option Slot
  | slotAddr _ slot => some slot
  | spillLoad _ slot => some slot
  | spillStore slot _ => some slot
  | _ => none

/-- The instruction with every temp that it reads renamed. -/
def mapUses (f : Temp → Temp) : Instr → Instr
  | binary op dest left right => binary op dest (left.map f) (right.map f)
  | unary op dest arg => unary op dest (arg.map f)
  | move dest arg => move dest (arg.map f)
  | load dest addr => load dest (f addr)
  | store addr value => store (f addr) (value.map f)
  | addrOf dest var => addrOf dest (f var)
  | call dest callee args => call dest callee (args.map (·.map f))
  | spillStore slot value => spillStore slot (f value)
  | branch cond yes no => branch (cond.map f) yes no
  | ret value => ret (value.map (·.map f))
  | slotAddr dest slot => slotAddr dest slot
  | spillLoad dest slot => spillLoad dest slot
  | jump target => jump target

/-- The instruction with the temp that it writes renamed. -/
def mapDest (f : Temp → Temp) : Instr → Instr
  | binary op dest left right => binary op (f dest) left right
  | unary op dest arg => unary op (f dest) arg
  | move dest arg => move (f dest) arg
  | load dest addr => load (f dest) addr
  | addrOf dest var => addrOf (f dest) var
  | slotAddr dest slot => slotAddr (f dest) slot
  | call dest callee args => call (dest.map f) callee args
  | spillLoad dest slot => spillLoad (f dest) slot
  | store addr value => store addr value
  | spillStore slot value => spillStore slot value
  | jump target => jump target
  | branch cond yes no => branch cond yes no
  | ret value => ret value

/-- The instruction with its targets renumbered. -/
def mapTargetsM {m : Type → Type} [Monad m] (f : BlockId → m BlockId) : Instr → m Instr
  | jump target => return jump (← f target)
  | branch cond yes no => return branch cond (← f yes) (← f no)
  | i => return i

def mapTargets (f : BlockId → BlockId) (i : Instr) : Instr := Id.run (i.mapTargetsM f)

end Instr

end RegisterColoring
