namespace RegisterColoring

/-- Index of a virtual register. -/
abbrev Temp := Nat

/-- Index of a spill slot in the frame of a function. -/
abbrev Slot := Nat

/-- Index of a physical register. -/
abbrev Color := Nat

/-- Position of a block in its function. -/
abbrev BlockId := Nat

/-- The largest number that a temp or a slot may carry, and the last value of their counters. -/
def maxIndex : Nat := 4294967295

/-- Whether an immediate fits a signed word of 64 bits. -/
def fitsWord (n : Int) : Bool := -9223372036854775808 ≤ n && n ≤ 9223372036854775807

/-- Tokens with a fixed spelling, in the order of their spellings. -/
inductive Symbol
  | bang | notEqual | percent | ampersand | leftParen | rightParen | star | plus | comma | minus
  | slash | colon | semicolon | less | arrow | shiftLeft | lessEqual | equal | greater
  | greaterEqual | shiftRight | caret | callWord | elseWord | fnWord | gotoWord | ifWord | retWord
  | spillLoadWord | spillStoreWord | leftBrace | bar | rightBrace | tilde
deriving DecidableEq

namespace Symbol

def all : List Symbol :=
  [bang, notEqual, percent, ampersand, leftParen, rightParen, star, plus, comma, minus,
   slash, colon, semicolon, less, arrow, shiftLeft, lessEqual, equal, greater,
   greaterEqual, shiftRight, caret, callWord, elseWord, fnWord, gotoWord, ifWord, retWord,
   spillLoadWord, spillStoreWord, leftBrace, bar, rightBrace, tilde]

theorem mem_all (s : Symbol) : s ∈ all := by cases s <;> decide

/-- The characters of the symbol in a source text. -/
def spelling : Symbol → String
  | bang => "!"
  | notEqual => "!="
  | percent => "%"
  | ampersand => "&"
  | leftParen => "("
  | rightParen => ")"
  | star => "*"
  | plus => "+"
  | comma => ","
  | minus => "-"
  | slash => "/"
  | colon => ":"
  | semicolon => ";"
  | less => "<"
  | arrow => "<-"
  | shiftLeft => "<<"
  | lessEqual => "<="
  | equal => "=="
  | greater => ">"
  | greaterEqual => ">="
  | shiftRight => ">>"
  | caret => "^"
  | callWord => "call"
  | elseWord => "else"
  | fnWord => "fn"
  | gotoWord => "goto"
  | ifWord => "if"
  | retWord => "ret"
  | spillLoadWord => "spill_load"
  | spillStoreWord => "spill_store"
  | leftBrace => "\x7b"
  | bar => "|"
  | rightBrace => "\x7d"
  | tilde => "~"

/-- The name by which a syntax error calls the symbol. -/
def kind : Symbol → String
  | bang => "Not"
  | notEqual => "Neq"
  | percent => "Mod"
  | ampersand => "BitAnd"
  | leftParen => "LParen"
  | rightParen => "RParen"
  | star => "Asterisk"
  | plus => "Plus"
  | comma => "Comma"
  | minus => "Minus"
  | slash => "Div"
  | colon => "Colon"
  | semicolon => "Semicolon"
  | less => "LessThan"
  | arrow => "Arrow"
  | shiftLeft => "Shl"
  | lessEqual => "Leq"
  | equal => "Eq"
  | greater => "GreaterThan"
  | greaterEqual => "Geq"
  | shiftRight => "Shr"
  | caret => "BitXor"
  | callWord => "Call"
  | elseWord => "Else"
  | fnWord => "Fn"
  | gotoWord => "Goto"
  | ifWord => "If"
  | retWord => "Ret"
  | spillLoadWord => "SpillLoad"
  | spillStoreWord => "SpillStore"
  | leftBrace => "LBrace"
  | bar => "BitOr"
  | rightBrace => "RBrace"
  | tilde => "BitNot"

end Symbol

/-- A token of a source text. `invalid` stands for characters that form no token. -/
inductive Token
  | symbol (s : Symbol)
  | ident (name : String)
  | temp (t : Temp)
  | slot (s : Slot)
  | reg (name : String)
  | imm (n : Int)
  | invalid
deriving DecidableEq

namespace Token

/-- The name by which a syntax error calls the token. -/
def kind : Token → String
  | symbol s => s.kind
  | ident _ => "Ident"
  | temp _ => "Temp"
  | slot _ => "Slot"
  | reg _ => "Reg"
  | imm _ => "Imm"
  | invalid => "Error"

/-- The kind of the token, followed by its value in parentheses if it carries one. -/
def describe : Token → String
  | ident name => "Ident(\"" ++ name ++ "\")"
  | temp t => "Temp(" ++ toString t ++ ")"
  | slot s => "Slot(" ++ toString s ++ ")"
  | reg name => "Reg(\"" ++ name ++ "\")"
  | imm n => "Imm(" ++ toString n ++ ")"
  | other => other.kind

end Token

/-- A token class as the grammar sees it. -/
inductive Terminal
  | symbol (s : Symbol)
  | ident | imm | reg | slot | temp
deriving DecidableEq

namespace Terminal

/-- All terminals, in the order in which a syntax error lists them. -/
def all : List Terminal := Symbol.all.map symbol ++ [ident, imm, reg, slot, temp]

theorem mem_all (a : Terminal) : a ∈ all := by
  cases a with
  | symbol s => exact List.mem_append_left _ (List.mem_map.mpr ⟨s, s.mem_all, rfl⟩)
  | _ => exact List.mem_append_right _ (by decide)

/-- The terminal as a syntax error writes it. -/
def name : Terminal → String
  | symbol s => "\"" ++ s.spelling ++ "\""
  | ident => "Ident"
  | imm => "ImmTok"
  | reg => "RegTok"
  | slot => "SlotTok"
  | temp => "TempTok"

/-- A token of the class. -/
def sample : Terminal → Token
  | symbol s => .symbol s
  | ident => .ident ""
  | imm => .imm 0
  | reg => .reg ""
  | slot => .slot 0
  | temp => .temp 0

end Terminal

/-- The class of a token; characters that form no token have none. -/
def Token.terminal? : Token → Option Terminal
  | .symbol s => some (.symbol s)
  | .ident _ => some .ident
  | .temp _ => some .temp
  | .slot _ => some .slot
  | .reg _ => some .reg
  | .imm _ => some .imm
  | .invalid => none

end RegisterColoring
