import RegisterColoring.Token

namespace RegisterColoring

inductive Register
  | rax | rdi | rsi | rdx | rcx | r8 | r9 | r10 | rbx | r12 | r13 | r14 | r15
  | r11 | rbp | rsp
deriving DecidableEq

namespace Register

/-- The registers that colors name, in the order of the colors. -/
def pool : List Register := [rax, rdi, rsi, rdx, rcx, r8, r9, r10, rbx, r12, r13, r14, r15]

def all : List Register := pool ++ [r11, rbp, rsp]

/-- The registers of the first parameters, in order. -/
def arguments : List Register := [rdi, rsi, rdx, rcx, r8, r9]

/-- The name without the percent sign. -/
def bareName : Register → String
  | rax => "rax"
  | rdi => "rdi"
  | rsi => "rsi"
  | rdx => "rdx"
  | rcx => "rcx"
  | r8 => "r8"
  | r9 => "r9"
  | r10 => "r10"
  | rbx => "rbx"
  | r12 => "r12"
  | r13 => "r13"
  | r14 => "r14"
  | r15 => "r15"
  | r11 => "r11"
  | rbp => "rbp"
  | rsp => "rsp"

/-- The register as a listing writes it. -/
def name (r : Register) : String := "%" ++ r.bareName

/-- The register of a name, which may be written with or without one percent sign. -/
def ofName? (name : String) : Option Register :=
  match name.toList with
  | '%' :: rest => all.find? (·.bareName.toList = rest)
  | bare => all.find? (·.bareName.toList = bare)

/-- The register of a color. -/
def ofColor? (c : Color) : Option Register := pool[c]?

/-- The color of a register of the pool. -/
def color? (r : Register) : Option Color := pool.findIdx? (· = r)

end Register

/-- The place of a spill slot in the frame: slot `n` lies `8 (n + 1)` bytes below the base. -/
def Slot.operand (s : Slot) : String :=
  "-" ++ toString (8 * (s + 1)) ++ "(" ++ Register.rbp.name ++ ")"

end RegisterColoring
