import RegisterColoring.Numeral
import RegisterColoring.Options

namespace RegisterColoring

namespace OptionFile

def isInlineBlank (c : Char) : Bool := c = ' ' || c = '\t'

/-- A tab or a character that is no control character. -/
def isPrintable (c : Char) : Bool := c = '\t' || (' ' ≤ c && c ≠ '\x7f')

/-- A character of a key without quotes. -/
def isKeyChar (c : Char) : Bool := c.isAlphanum || c = '_' || c = '-'

/-- The lines of a text. A line ends before a line feed, with or without a carriage return. -/
def lines : List Char → List (List Char)
  | [] => [[]]
  | '\n' :: rest => [] :: lines rest
  | '\r' :: '\n' :: rest => [] :: lines rest
  | c :: rest =>
    match lines rest with
    | [] => [[c]]
    | line :: later => (c :: line) :: later

/-- The character that stands for itself after a backslash, or the control character it names. -/
def escape? : Char → Option Char
  | 'b' => some '\x08'
  | 't' => some '\t'
  | 'n' => some '\n'
  | 'f' => some '\x0c'
  | 'r' => some '\r'
  | '\x22' => some '\x22'
  | '\x5c' => some '\x5c'
  | _ => none

/-- The character with the given hexadecimal code. -/
def codePoint? (digits : List Char) : Option Char :=
  (Numeral.plain? 16 digits).bind fun n => if n.isValidChar then some (Char.ofNat n) else none

/-- Put a character in front of a text that was read. -/
def consText (c : Option Char) (read : Option (List Char × List Char)) :
    Option (List Char × List Char) :=
  c.bind fun c => read.map fun (text, rest) => (c :: text, rest)

/-- A text up to its closing double quote, and what follows the quote. -/
def basicText : List Char → Option (List Char × List Char)
  | [] => none
  | '\x22' :: rest => some ([], rest)
  | '\x5c' :: 'u' :: a :: b :: c :: d :: rest => consText (codePoint? [a, b, c, d]) (basicText rest)
  | '\x5c' :: 'U' :: a :: b :: c :: d :: e :: f :: g :: h :: rest =>
    consText (codePoint? [a, b, c, d, e, f, g, h]) (basicText rest)
  | '\x5c' :: c :: rest => consText (escape? c) (basicText rest)
  | c :: rest => if isPrintable c && c ≠ '\x5c' then consText (some c) (basicText rest) else none

/-- A text without escapes up to its closing single quote, and what follows the quote. -/
def literalText : List Char → Option (List Char × List Char)
  | [] => none
  | '\x27' :: rest => some ([], rest)
  | c :: rest => if isPrintable c then consText (some c) (literalText rest) else none

/-- The key at the start of a line, and what follows it. -/
def readKey : List Char → Option (OptionKey × List Char)
  | '\x22' :: cs => (basicText cs).bind ofText
  | '\x27' :: cs => (literalText cs).bind ofText
  | cs => ofText (cs.span isKeyChar)
where
  ofText (read : List Char × List Char) : Option (OptionKey × List Char) :=
    (OptionKey.ofName? (String.ofList read.1)).map fun key => (key, read.2)

/-- A decimal numeral has no zero in front of other digits. -/
def decimal? : List Char → Option Nat
  | ['0'] => some 0
  | '0' :: _ => none
  | cs => Numeral.grouped? 10 cs

/-- The integer that a word writes. Only decimal integers have a sign. -/
def integer? : List Char → Option Int
  | '0' :: 'x' :: cs => unsigned 16 cs
  | '0' :: 'o' :: cs => unsigned 8 cs
  | '0' :: 'b' :: cs => unsigned 2 cs
  | cs => Numeral.signed? decimal? cs
where
  unsigned (base : Nat) (cs : List Char) : Option Int :=
    ((Numeral.grouped? base cs).map fun n => (n : Int)).filter fitsWord

/-- The value that a word writes. -/
def value? (word : List Char) : Option OptionValue :=
  if word = "true".toList then some (.boolean true)
  else if word = "false".toList then some (.boolean false)
  else (integer? word).map .integer

/-- Nothing but blanks and a comment. -/
def isVoid (cs : List Char) : Bool :=
  match cs.dropWhile isInlineBlank with
  | [] => true
  | c :: comment => c = '#' && comment.all isPrintable

/-- What a line sets. -/
def readSetting (line : List Char) : Option (OptionKey × OptionValue) :=
  (readKey (line.dropWhile isInlineBlank)).bind fun (key, rest) =>
    match rest.dropWhile isInlineBlank with
    | '=' :: rest =>
      let (word, trail) := (rest.dropWhile isInlineBlank).span fun c => !isInlineBlank c && c ≠ '#'
      if isVoid trail then (value? word).map fun value => (key, value) else none
    | _ => none

/-- Apply the lines from number `n` on; `used` are the options set before. -/
def applyLines (n : Nat) (used : List OptionKey) (o : Options) :
    List (List Char) → Except Failure Options
  | [] => .ok o
  | line :: rest =>
    if isVoid line then applyLines (n + 1) used o rest
    else
      match readSetting line with
      | none => .error (.config (.invalidOptions n))
      | some (key, value) =>
        match (if key ∈ used then none else o.set? key value) with
        | none => .error (.config (.invalidOptions n))
        | some o => applyLines (n + 1) (key :: used) o rest

/-- The text without a byte order mark in front. -/
def withoutMark : List Char → List Char
  | '\ufeff' :: cs => cs
  | cs => cs

end OptionFile

/-- The options that the text of a file sets, the others having their usual values. -/
def Options.parse (text : String) : Except Failure Options :=
  OptionFile.applyLines 1 [] {} (OptionFile.lines (OptionFile.withoutMark text.toList))

end RegisterColoring
