import RegisterColoring.Token

namespace RegisterColoring

namespace Numeral

/-- The value of a digit of the given base. Letters may have either case. -/
def digit? (base : Nat) (c : Char) : Option Nat :=
  let value :=
    if c.isDigit then c.toNat - '0'.toNat
    else if 'a' ≤ c ∧ c ≤ 'f' then c.toNat - 'a'.toNat + 10
    else if 'A' ≤ c ∧ c ≤ 'F' then c.toNat - 'A'.toNat + 10
    else base
  if value < base then some value else none

/-- The value of digits that follow those of value `high`. -/
def plainFrom (base high : Nat) : List Char → Option Nat
  | [] => some high
  | c :: rest => (digit? base c).bind fun d => plainFrom base (base * high + d) rest

/-- The value of digits that follow those of value `high`, each with at most one underscore in
front of it. -/
def groupedFrom (base high : Nat) : List Char → Option Nat
  | [] => some high
  | '_' :: c :: rest => (digit? base c).bind fun d => groupedFrom base (base * high + d) rest
  | c :: rest => (digit? base c).bind fun d => groupedFrom base (base * high + d) rest

/-- The value of a nonempty row of digits. -/
def plain? (base : Nat) : List Char → Option Nat
  | [] => none
  | c :: rest => (digit? base c).bind fun d => plainFrom base d rest

/-- The value of a nonempty row of digits, with single underscores between digits. -/
def grouped? (base : Nat) : List Char → Option Nat
  | [] => none
  | c :: rest => (digit? base c).bind fun d => groupedFrom base d rest

/-- A number after an optional sign, if it fits a word. -/
def signed? (magnitude? : List Char → Option Nat) (cs : List Char) : Option Int :=
  let value := match cs with
    | '-' :: rest => (magnitude? rest).map fun n => -(n : Int)
    | '+' :: rest => (magnitude? rest).map fun n => (n : Int)
    | _ => (magnitude? cs).map fun n => (n : Int)
  value.filter fitsWord

end Numeral

end RegisterColoring
