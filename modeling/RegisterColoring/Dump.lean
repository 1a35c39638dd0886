namespace RegisterColoring

/-- Structured data that is printed as indented text. -/
inductive Dump
  | null
  | number (n : Nat)
  | text (s : String)
  | list (items : List Dump)
  | record (fields : List (String × Dump))

namespace Dump

/-- The digits of a number below sixteen to the fourth power. -/
def hex4 (n : Nat) : String :=
  let digits := Nat.toDigits 16 n
  String.ofList (List.replicate (4 - digits.length) '0' ++ digits)

/-- The character inside a quoted text. -/
def escape (c : Char) : String :=
  if c = '\x22' then "\\\""
  else if c = '\x5c' then "\\\\"
  else if c = '\n' then "\\n"
  else if c = '\r' then "\\r"
  else if c = '\t' then "\\t"
  else if c = '\x08' then "\\b"
  else if c = '\x0c' then "\\f"
  else if c.toNat < 32 then "\\u" ++ hex4 c.toNat
  else String.ofList [c]

def quote (s : String) : String := "\"" ++ String.join (s.toList.map escape) ++ "\""

/-- The blanks in front of a line. -/
def margin (level : Nat) : String := String.ofList (List.replicate (2 * level) ' ')

/-- The lines of a list or a record between its brackets. -/
def enclose (left right : String) (level : Nat) : List String → String
  | [] => left ++ right
  | items =>
    left ++ "\n" ++ ",\n".intercalate (items.map (margin (level + 1) ++ ·)) ++ "\n" ++
      margin level ++ right

mutual

/-- The text of a value whose first line stands at `level`. -/
def render (level : Nat) : Dump → String
  | null => "null"
  | number n => toString n
  | text s => quote s
  | list items => enclose "[" "]" level (renderItems (level + 1) items)
  | record fields => enclose "\x7b" "\x7d" level (renderFields (level + 1) fields)

def renderItems (level : Nat) : List Dump → List String
  | [] => []
  | item :: rest => render level item :: renderItems level rest

def renderFields (level : Nat) : List (String × Dump) → List String
  | [] => []
  | (key, value) :: rest => (quote key ++ ": " ++ render level value) :: renderFields level rest

end

/-- The text of a value on its own. -/
def pretty (d : Dump) : String := d.render 0

end Dump

end RegisterColoring
