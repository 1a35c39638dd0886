import RegisterColoring.Host.Pattern
import RegisterColoring.Host.Pattern.Refusal
import RegisterColoring.Host.Space

namespace RegisterColoring

namespace Pattern

/-- The rest of a text, from the character numbered `place`. -/
structure Cursor where
  place : Nat
  rest : List Char

/-- The result of reading, and where reading goes on. -/
abbrev Read (α : Type) := Except Problem (α × Cursor)

def refuse {α : Type} (span : Span) (reason : Reason) : Except Problem α :=
  .error ⟨span, none, reason⟩

namespace Cursor

/-- The empty part of the text at the cursor. -/
def here (c : Cursor) : Span := ⟨c.place, c.place⟩

/-- The part of the text with the next character only. -/
def mark (c : Cursor) : Span := ⟨c.place, c.place + 1⟩

/-- Go over one character. -/
def next (c : Cursor) : Cursor :=
  match c.rest with
  | [] => c
  | _ :: rest => ⟨c.place + 1, rest⟩

/-- Go over some characters. -/
def drop (c : Cursor) (count : Nat) : Cursor := ⟨c.place + count, c.rest.drop count⟩

/-- Go over blanks. -/
def skipBlanks (place : Nat) : List Char → Cursor
  | [] => ⟨place, []⟩
  | x :: rest => if isSpace x then skipBlanks (place + 1) rest else ⟨place, x :: rest⟩

/-- Go over blanks and comments, which go from `#` to the end of the line. -/
def skipComments (inside : Bool) (place : Nat) : List Char → Cursor
  | [] => ⟨place, []⟩
  | x :: rest =>
    if inside then skipComments (x ≠ '\n') (place + 1) rest
    else if isSpace x then skipComments false (place + 1) rest
    else if x = '#' then skipComments true (place + 1) rest
    else ⟨place, x :: rest⟩

def skip (spaced : Bool) (c : Cursor) : Cursor :=
  if spaced then skipComments false c.place c.rest else c

/-- Go over one character and over what counts for nothing after it. -/
def advance (spaced : Bool) (c : Cursor) : Cursor := c.next.skip spaced

/-- At most `count` characters of a kind, and what is after them. -/
def takeUpTo (spaced : Bool) (p : Char → Bool) : Nat → Cursor → List Char × Cursor
  | 0, c => ([], c)
  | count + 1, c =>
    match c.rest with
    | [] => ([], c)
    | x :: _ =>
      if p x then
        let (more, stop) := takeUpTo spaced p count (c.advance spaced)
        (x :: more, stop)
      else ([], c)

/-- All characters of a kind, and what is after them. -/
def takeWhile (spaced : Bool) (p : Char → Bool) (c : Cursor) : List Char × Cursor :=
  takeUpTo spaced p c.rest.length c

end Cursor

/-- What an atom stands for. -/
inductive AtomKind
  /-- A character; `byte` tells that it is written as two hexadecimal digits. -/
  | literal (c : Char) (byte : Bool)
  /-- A class for which there is a letter. -/
  | shorthand (k : CharClass) (negated : Bool)
  /-- A class by a property that Unicode gives to characters. -/
  | property
  | place (p : Place)
  /-- A condition on the words next to a position. -/
  | word (p : Place)

structure Atom where
  span : Span
  kind : AtomKind

def isHexDigit (c : Char) : Bool :=
  c.isDigit || ('a' ≤ c && c ≤ 'f') || ('A' ≤ c && c ≤ 'F')

def hexValue (digits : List Char) : Nat :=
  digits.foldl
    (fun n c => 16 * n + (if c.isDigit then c.toNat - 48 else c.toLower.toNat - 87)) 0

/-- The character with a number that is given by hexadecimal digits. -/
def hexChar (span : Span) (digits : List Char) : Except Problem Char :=
  if (hexValue digits).isValidChar then .ok (Char.ofNat (hexValue digits))
  else refuse span .hexInvalid

/-- Read a number of hexadecimal digits. -/
def readDigits (spaced : Bool) (start count : Nat) (c : Cursor) : Read Atom :=
  let (digits, stop) := c.takeUpTo spaced isHexDigit count
  if digits.length < count then
    if stop.rest.isEmpty then refuse stop.here .escapeAtEnd else refuse stop.mark .hexDigit
  else
    (hexChar ⟨c.place, stop.place⟩ digits).map fun x =>
      (⟨⟨start, stop.place⟩, .literal x (count = 2)⟩, stop)

/-- Read hexadecimal digits in braces. -/
def readBracedDigits (spaced : Bool) (start : Nat) (c : Cursor) : Read Atom :=
  let (digits, stop) := (c.advance spaced).takeWhile spaced isHexDigit
  match stop.rest with
  | [] => refuse ⟨c.place, stop.place⟩ .escapeAtEnd
  | x :: _ =>
    let after := stop.advance spaced
    if x ≠ '\x7d' then refuse stop.mark .hexDigit
    else if digits.isEmpty then refuse ⟨c.place, after.place⟩ .hexEmpty
    else
      (hexChar ⟨c.place + 1, stop.place⟩ digits).map fun x =>
        (⟨⟨start, after.place⟩, .literal x false⟩, after)

/-- Read the number of a character, after the letter that tells how many digits it has. -/
def readNumber (spaced : Bool) (start count : Nat) (c : Cursor) : Read Atom :=
  match c.rest with
  | [] => refuse c.here .escapeAtEnd
  | '\x7b' :: _ => readBracedDigits spaced start c
  | _ => readDigits spaced start count c

/-- Read the name of a property, which is a letter or stands in braces. -/
def readProperty (spaced : Bool) (start : Nat) (c : Cursor) : Read Atom :=
  let done (stop : Cursor) : Read Atom := .ok (⟨⟨start, stop.place⟩, .property⟩, stop)
  match c.rest with
  | [] => refuse c.here .escapeAtEnd
  | '\x7b' :: _ =>
    let (_, stop) := (c.advance spaced).takeWhile spaced (· ≠ '\x7d')
    if stop.rest.isEmpty then refuse stop.here .escapeAtEnd else done stop.next
  | '\x5c' :: _ => refuse c.mark .propertyInvalid
  | _ => done (c.advance spaced)

/-- The condition that a name in braces gives for the edge of a word. -/
def edgeNamed? (name : String) : Option Place :=
  if name = "start" then some .wordStart
  else if name = "end" then some .wordEnd
  else if name = "start-half" then some .noWordBefore
  else if name = "end-half" then some .noWordAfter
  else none

/-- Read what follows the sign for the edge of a word: a name in braces tells which edge is meant.
Braces without a letter in them are left, since they may hold a count. -/
def readEdge (spaced : Bool) (start : Nat) (c : Cursor) : Read Atom :=
  let inName (x : Char) : Bool := x.isAlpha || x = '-'
  let plain : Read Atom := .ok (⟨⟨start, c.place⟩, .word .wordEdge⟩, c)
  match c.rest with
  | '\x7b' :: _ =>
    let inside := c.advance spaced
    match inside.rest with
    | [] => refuse ⟨start, inside.place⟩ .edgeAtEnd
    | x :: _ =>
      if inName x then
        let (name, stop) := inside.takeWhile spaced inName
        if stop.rest.head? ≠ some '\x7d' then refuse ⟨c.place, stop.place⟩ .edgeUnclosed
        else
          match edgeNamed? (String.ofList name) with
          | some p => .ok (⟨⟨start, stop.next.place⟩, .word p⟩, stop.next)
          | none => refuse ⟨inside.place, stop.place⟩ .edgeUnknown
      else plain
  | _ => plain

/-- What a backslash and one more character stand for, for most characters. -/
def escaped? : Char → Option AtomKind
  | 'd' => some (.shorthand .digit false)
  | 'D' => some (.shorthand .digit true)
  | 's' => some (.shorthand .space false)
  | 'S' => some (.shorthand .space true)
  | 'w' => some (.shorthand .word false)
  | 'W' => some (.shorthand .word true)
  | 'a' => some (.literal '\x07' false)
  | 'f' => some (.literal '\x0c' false)
  | 't' => some (.literal '\t' false)
  | 'n' => some (.literal '\n' false)
  | 'r' => some (.literal '\r' false)
  | 'v' => some (.literal '\x0b' false)
  | 'A' => some (.place .textStart)
  | 'z' => some (.place .textEnd)
  | 'B' => some (.word .noWordEdge)
  | '<' => some (.word .wordStart)
  | '>' => some (.word .wordEnd)
  | c => if c.toNat < 128 && !c.isAlphanum && c ≠ '%' then some (.literal c false) else none

/-- Read an atom that starts with a backslash. -/
def readEscape (spaced : Bool) (c : Cursor) : Read Atom :=
  let letter := c.next
  let stop := letter.next
  match letter.rest with
  | [] => refuse ⟨c.place, letter.place⟩ .escapeAtEnd
  | x :: _ =>
    if x.isDigit then refuse ⟨c.place, stop.place⟩ .backReference
    else if x = 'x' then readNumber spaced c.place 2 (letter.advance spaced)
    else if x = 'u' then readNumber spaced c.place 4 (letter.advance spaced)
    else if x = 'U' then readNumber spaced c.place 8 (letter.advance spaced)
    else if x = 'p' || x = 'P' then readProperty spaced c.place (letter.advance spaced)
    else if x = 'b' then readEdge spaced c.place stop
    else
      match escaped? x with
      | some kind => .ok (⟨⟨c.place, stop.place⟩, kind⟩, stop)
      | none => refuse ⟨c.place, stop.place⟩ .escapeUnknown

end Pattern

end RegisterColoring
