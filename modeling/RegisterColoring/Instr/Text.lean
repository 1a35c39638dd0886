import RegisterColoring.Failure
import RegisterColoring.Instr

namespace RegisterColoring

/-- How temps, blocks and slots are called. -/
structure Naming where
  temp : Temp → String
  block : BlockId → String
  slot : Slot → String

/-- A slot as a listing writes it. -/
def Slot.name (s : Slot) : String := "slot" ++ toString s

def BinOp.text (op : BinOp) : String := op.symbol.spelling

def UnOp.text (op : UnOp) : String := op.symbol.spelling

def Operand.text (n : Naming) : Operand → String
  | const c => "$" ++ toString c
  | temp t => n.temp t

def Cond.text (n : Naming) : Cond → String
  | test arg => arg.text n
  | compare op left right => left.text n ++ " " ++ op.text ++ " " ++ right.text n

/-- The instruction as a listing writes it, without the semicolon. -/
def Instr.text (n : Naming) : Instr → String
  | binary op dest left right =>
    n.temp dest ++ " <- " ++ left.text n ++ " " ++ op.text ++ " " ++ right.text n
  | unary op dest arg => n.temp dest ++ " <- " ++ op.text ++ arg.text n
  | move dest arg => n.temp dest ++ " <- " ++ arg.text n
  | load dest addr => n.temp dest ++ " <- *" ++ n.temp addr
  | store addr value => "*" ++ n.temp addr ++ " <- " ++ value.text n
  | addrOf dest var => n.temp dest ++ " <- &" ++ n.temp var
  | slotAddr dest slot => n.temp dest ++ " <- &" ++ n.slot slot
  | call dest callee args =>
    let assigned := match dest with
      | some t => n.temp t ++ " <- "
      | none => ""
    assigned ++ "call " ++ callee ++ "(" ++ ", ".intercalate (args.map (·.text n)) ++ ")"
  | spillLoad dest slot => n.temp dest ++ " <- spill_load " ++ n.slot slot
  | spillStore slot value => "spill_store " ++ n.slot slot ++ " <- " ++ n.temp value
  | jump target => "goto " ++ n.block target
  | branch cond yes no =>
    "if " ++ cond.text n ++ " goto " ++ n.block yes ++ " else " ++ n.block no
  | ret none => "ret"
  | ret (some value) => "ret " ++ value.text n

end RegisterColoring
