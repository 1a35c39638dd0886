import RegisterColoring.Token

namespace RegisterColoring

/-- A piece of a source text that forms one token, with the place where it starts. Places are
counted in bytes. -/
structure Lexeme where
  token : Token
  text : String
  start : Nat
deriving DecidableEq

/-- The place right after the lexeme. -/
def Lexeme.stop (x : Lexeme) : Nat := x.start + x.text.utf8ByteSize

def isIdentStart (c : Char) : Bool := c.isAlpha || c = '_' || c = '.'

def isIdentRest (c : Char) : Bool := isIdentStart c || c.isDigit

def isRegisterRest (c : Char) : Bool := c.isLower || c.isDigit

/-- Space, tab, line feed, vertical tab, form feed and carriage return. -/
def isBlank (c : Char) : Bool := c = ' ' || c = '\t' || c = '\n' || c = '\x0b' || c = '\x0c' || c = '\r'

/-- The number of leading characters of a class. -/
def countWhile (p : Char → Bool) (cs : List Char) : Nat := (cs.takeWhile p).length

/-- The number of leading digits if there are any, with `lead` characters in front of them. -/
def countDigits (lead : Nat) (cs : List Char) : Nat :=
  if countWhile Char.isDigit cs = 0 then 0 else lead + countWhile Char.isDigit cs

/-- The number that a row of decimal digits denotes. -/
def decimalValue (digits : List Char) : Nat :=
  digits.foldl (fun n c => 10 * n + (c.toNat - '0'.toNat)) 0

/-- The rules of the scanner. -/
inductive Rule
  | symbol (s : Symbol)
  | temp | slot | ident | reg | imm | blank | comment
deriving DecidableEq

namespace Rule

/-- All rules. Of two that match equally much the earlier one is taken. -/
def all : List Rule := Symbol.all.map symbol ++ [temp, slot, ident, reg, imm, blank, comment]

/-- The length of the longest beginning of `cs` that the rule matches, zero if it matches none. -/
def longest : Rule → List Char → Nat
  | symbol s, cs => if s.spelling.toList.isPrefixOf cs then s.spelling.toList.length else 0
  | temp, 't' :: cs => countDigits 1 cs
  | slot, 's' :: 'l' :: 'o' :: 't' :: cs => countDigits 4 cs
  | ident, c :: cs => if isIdentStart c then 1 + countWhile isIdentRest cs else 0
  | reg, '%' :: c :: cs => if c.isLower then 2 + countWhile isRegisterRest cs else 0
  | imm, '$' :: '-' :: cs => countDigits 2 cs
  | imm, '$' :: cs => countDigits 1 cs
  | blank, cs => countWhile isBlank cs
  | comment, '/' :: '/' :: cs => 2 + countWhile (· ≠ '\n') cs
  | _, _ => 0

/-- The token of a lexeme, or nothing if the lexeme is dropped. An index or an immediate out of
range is no token. -/
def token? : Rule → List Char → Option Token
  | symbol s, _ => some (.symbol s)
  | temp, cs => some (indexToken .temp (decimalValue (cs.drop 1)))
  | slot, cs => some (indexToken .slot (decimalValue (cs.drop 4)))
  | ident, cs => some (.ident (String.ofList cs))
  | reg, cs => some (.reg (String.ofList cs))
  | imm, '$' :: '-' :: cs => some (wordToken (-(decimalValue cs : Int)))
  | imm, cs => some (wordToken (decimalValue (cs.drop 1)))
  | blank, _ => none
  | comment, _ => none
where
  indexToken (make : Nat → Token) (n : Nat) : Token := if n ≤ maxIndex then make n else .invalid
  wordToken (n : Int) : Token := if fitsWord n then .imm n else .invalid

/-- The first rule of `rules` with the longest match, if any matches at all. -/
def best (rules : List Rule) (cs : List Char) : Option (Rule × Nat) :=
  rules.foldl (fun found rule => pick found rule (rule.longest cs)) none
where
  pick (found : Option (Rule × Nat)) (rule : Rule) (n : Nat) : Option (Rule × Nat) :=
    match found with
    | none => if n = 0 then none else some (rule, n)
    | some (_, m) => if m < n then some (rule, n) else found

end Rule

/-- What stands at the front of a text: its token, unless it is dropped, and its length. -/
def front (cs : List Char) : Option Token × Nat :=
  match Rule.best Rule.all cs with
  | none => (some .invalid, 1)
  | some (rule, n) => (rule.token? (cs.take n), n)

/-- Scan `cs`, which starts at byte `place`. Each step consumes a character, so the length of the
text bounds the steps. -/
def scanFrom : Nat → Nat → List Char → List Lexeme
  | 0, _, _ => []
  | _ + 1, _, [] => []
  | steps + 1, place, c :: cs =>
    let (token?, n) := front (c :: cs)
    let text := String.ofList ((c :: cs).take n)
    (token?.toList.map fun token => ⟨token, text, place⟩) ++
      scanFrom steps (place + text.utf8ByteSize) ((c :: cs).drop n)

/-- The lexemes of a source text, in order. -/
def scan (source : String) : List Lexeme := scanFrom source.toList.length 0 source.toList

end RegisterColoring
