namespace RegisterColoring

namespace Pattern

/-- A part of a text, from the character numbered `start` up to the one numbered `stop`. -/
structure Span where
  start : Nat
  stop : Nat
deriving DecidableEq

/-- What is wrong with a part of a pattern. The last five are about patterns that can be read but
ask for more than there is: classes are known for ASCII only, and a match is whole characters. -/
inductive Reason
  | classEscape
  | classRange
  | classRangeEnd
  | classUnclosed
  | countTooLarge
  | hexEmpty
  | hexInvalid
  | hexDigit
  | escapeAtEnd
  | escapeUnknown
  | flagDangling
  | flagTwice
  | negationTwice
  | flagAtEnd
  | flagUnknown
  | nameTwice
  | nameEmpty
  | nameInvalid
  | nameAtEnd
  | groupUnclosed
  | groupUnopened
  | countRange
  | countEmpty
  | countUnclosed
  | nothingToRepeat
  | edgeUnclosed
  | edgeUnknown
  | edgeAtEnd
  | propertyInvalid
  | backReference
  | lookAround
  | charNotAllowed
  | partOfChar
  | propertyUnknown
  | shorthandUnknown
  | caseUnknown
deriving DecidableEq

def Reason.message : Reason → String
  | classEscape => "invalid escape sequence found in character class"
  | classRange => "invalid character class range, the start must be <= the end"
  | classRangeEnd => "invalid range boundary, must be a literal"
  | classUnclosed => "unclosed character class"
  | countTooLarge => "decimal literal invalid"
  | hexEmpty => "hexadecimal literal empty"
  | hexInvalid => "hexadecimal literal is not a Unicode scalar value"
  | hexDigit => "invalid hexadecimal digit"
  | escapeAtEnd => "incomplete escape sequence, reached end of pattern prematurely"
  | escapeUnknown => "unrecognized escape sequence"
  | flagDangling => "dangling flag negation operator"
  | flagTwice => "duplicate flag"
  | negationTwice => "flag negation operator repeated"
  | flagAtEnd => "expected flag but got end of regex"
  | flagUnknown => "unrecognized flag"
  | nameTwice => "duplicate capture group name"
  | nameEmpty => "empty capture group name"
  | nameInvalid => "invalid capture group character"
  | nameAtEnd => "unclosed capture group name"
  | groupUnclosed => "unclosed group"
  | groupUnopened => "unopened group"
  | countRange => "invalid repetition count range, the start must be <= the end"
  | countEmpty => "repetition quantifier expects a valid decimal"
  | countUnclosed => "unclosed counted repetition"
  | nothingToRepeat => "repetition operator missing expression"
  | edgeUnclosed =>
    "special word boundary assertion is either unclosed or contains an invalid character"
  | edgeUnknown =>
    "unrecognized special word boundary assertion, valid choices are: start, end, start-half " ++
      "or end-half"
  | edgeAtEnd =>
    "found either the beginning of a special word boundary or a bounded repetition on a \\b with " ++
      "an opening brace, but no closing brace"
  | propertyInvalid => "invalid Unicode character class"
  | backReference => "backreferences are not supported"
  | lookAround => "look-around, including look-ahead and look-behind, is not supported"
  | charNotAllowed => "Unicode not allowed here"
  | partOfChar => "pattern can match invalid UTF-8"
  | propertyUnknown => "Unicode property not found"
  | shorthandUnknown =>
    "Unicode-aware Perl class not found (make sure the unicode-perl feature is enabled)"
  | caseUnknown =>
    "Unicode-aware case insensitivity matching is not available " ++
      "(make sure the unicode-case feature is enabled)"

/-- A reason with the part of the text that it is about. Where something is there twice, `earlier`
is the first. -/
structure Problem where
  span : Span
  earlier : Option Span
  reason : Reason
deriving DecidableEq

namespace Span

/-- The number of the line of a position in a text, and its column. -/
def position (text : List Char) (place : Nat) : Nat × Nat :=
  (text.take place).foldl (fun (line, column) c => if c = '\n' then (line + 1, 0) else (line, column + 1))
    (0, 0)

/-- Marks below parts of a line that are in ascending order; an empty part has one mark. -/
def marks (column : Nat) : List (Nat × Nat) → List Char
  | [] => []
  | (start, stop) :: rest =>
    let width := Nat.max 1 (stop - start)
    List.replicate (start - column) ' ' ++ List.replicate width '^' ++
      marks (Nat.max column start + width) rest

/-- The lines of a text, without their line breaks. -/
def lines : List Char → List (List Char)
  | [] => []
  | c :: rest =>
    if c = '\n' then [] :: lines rest
    else if c = '\r' && rest.head? = some '\n' then
      lines rest
    else
      match lines rest with
      | [] => [[c]]
      | line :: later => (c :: line) :: later

end Span

namespace Problem

/-- The parts to mark, in ascending order. -/
def spans (p : Problem) : List Span :=
  match p.earlier with
  | some e => [e, p.span]
  | none => [p.span]

/-- The lines of the pattern, each with its number if there are several, and with the marks below
those that have a part to mark. -/
def markedLines (parts : List ((Nat × Nat) × Nat × Nat)) (width : Nat) :
    Nat → List (List Char) → String
  | _, [] => ""
  | number, line :: rest =>
    let lead := if width = 0 then "    " else
      String.ofList ((toString (number + 1)).toList.leftpad width ' ') ++ ": "
    let below := (parts.filter fun (first, last) => first.1 = number && last.1 = number).map
      fun (first, last) => (first.2, last.2)
    let note := if below.isEmpty then "" else
      "".pushn ' ' lead.length ++ String.ofList (Span.marks 0 below) ++ "\n"
    lead ++ String.ofList line ++ "\n" ++ note ++ markedLines parts width (number + 1) rest

/-- The message about a pattern. -/
def message (text : String) (p : Problem) : String :=
  let chars := text.toList
  let parts := p.spans.map fun s => (Span.position chars s.start, Span.position chars s.stop)
  let count := (Span.lines chars).length + (if chars.getLast? = some '\n' then 1 else 0)
  let width := if count ≤ 1 then 0 else (toString count).length
  let shown := markedLines parts width 0 (Span.lines chars)
  let rule := "".pushn '~' 79 ++ "\n"
  let notes := parts.filterMap fun (first, last) =>
    if first.1 = last.1 then none
    else some ("on line " ++ toString (first.1 + 1) ++ " (column " ++ toString (first.2 + 1) ++
      ") through line " ++ toString (last.1 + 1) ++ " (column " ++ toString last.2 ++ ")\n")
  let body := if '\n' ∈ chars then rule ++ shown ++ rule ++ String.join notes else shown
  "regex parse error:\n" ++ body ++ "error: " ++ p.reason.message

end Problem

/-- Why there is no pattern. -/
inductive Refusal
  | at (p : Problem)
  /-- The pattern is too large once its repetitions are written out. -/
  | tooLarge
  /-- The edges of words of other letters than the ASCII ones are not known. -/
  | wordEdges
deriving DecidableEq

/-- The bytes that a pattern may take. -/
def sizeLimit : Nat := 10485760

/-- The message about a pattern. -/
def Refusal.message (text : String) : Refusal → String
  | .at p => p.message text
  | tooLarge => "Compiled regex exceeds size limit of " ++ toString sizeLimit ++ " bytes."
  | wordEdges => "error building NFA"

end Pattern

end RegisterColoring
