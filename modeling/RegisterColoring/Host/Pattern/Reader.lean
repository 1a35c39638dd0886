import RegisterColoring.Host.Pattern.Bracket

namespace RegisterColoring

namespace Pattern

/-- A part of a sequence. Flags are no part that can be repeated. -/
structure Item where
  pattern : Pattern
  repeatable : Bool

/-- An open group, or the whole text: its alternatives and the items of the last one, the newest
first. -/
structure Group where
  opened : Span := ⟨0, 0⟩
  /-- The flags after the group. -/
  flags : Flags := {}
  branches : List Pattern := []
  items : List Item := []

namespace Group

/-- The alternative that is being read. -/
def branch (g : Group) : Pattern := sequence (g.items.reverse.map Item.pattern)

def pattern (g : Group) : Pattern := g.branches.foldl (fun p q => alt q p) g.branch

def add (g : Group) (p : Pattern) : Group := { g with items := ⟨p, true⟩ :: g.items }

def addFlags (g : Group) : Group := { g with items := ⟨empty, false⟩ :: g.items }

/-- Start another alternative. -/
def split (g : Group) : Group := { g with branches := g.branch :: g.branches, items := [] }

end Group

/-- What has been read. -/
structure Reading where
  flags : Flags := {}
  group : Group := {}
  outer : List Group := []
  /-- The names of groups. -/
  names : List (List Char × Span) := []
  problem : Option Problem := none
  /-- Whether there are conditions on words that are not only of ASCII letters. -/
  wordEdges : Bool := false

namespace Reading

def add (r : Reading) (p : Pattern) : Reading := { r with group := r.group.add p }

/-- Add a class, or note its problem. -/
def addClass (r : Reading) (k : ClassPart) : Reading :=
  { r with group := r.group.add (.char k.set), problem := r.problem <|> k.problem }

/-- Add a character. Case is known for ASCII letters only. -/
def addLiteral (r : Reading) (span : Span) (c : Char) (byte : Bool) : Reading :=
  let part : ClassPart :=
    if byte && !r.flags.unicode && 128 ≤ c.toNat then .unknown span .partOfChar
    else ⟨span, .single c, none⟩
  r.addClass (part.folded r.flags span)

/-- Add any character, or any but a line break. -/
def addDot (r : Reading) (span : Span) : Reading :=
  let breaks : CharClass :=
    if r.flags.dotAll then .none
    else if r.flags.bothBreaks then .ranges [('\n', '\n'), ('\r', '\r')]
    else .single '\n'
  r.addClass (if r.flags.unicode then ⟨span, .compl breaks, none⟩ else .unknown span .partOfChar)

def addAtom (r : Reading) (a : Atom) : Reading :=
  match a.kind with
  | .literal c byte => r.addLiteral a.span c byte
  | .shorthand k negated => r.addClass (.ofShorthand r.flags a.span k negated)
  | .property => r.addClass (.ofProperty r.flags a.span)
  | .place p => r.add (.place p)
  | .word p => { r.add (.place p) with wordEdges := r.wordEdges || r.flags.unicode }

/-- Repeat the last item. -/
def repeatLast (r : Reading) (span : Span) (least : Nat) (most : Option Nat) :
    Except Problem Reading :=
  match r.group.items with
  | ⟨p, true⟩ :: rest =>
    .ok { r with group := { r.group with items := ⟨.repeated p least most, true⟩ :: rest } }
  | _ => refuse span .nothingToRepeat

end Reading

/-- Go over the mark of a repetition that prefers few rounds. Which rounds are preferred does not
matter for whether there is a match. -/
def skipMark (c : Cursor) : Cursor := if c.rest.head? = some '?' then c.next else c

/-- Read a decimal number with blanks around it. -/
def readDecimal (spaced : Bool) (c : Cursor) : Except Problem Nat × Cursor :=
  let start := Cursor.skipBlanks c.place c.rest
  let (digits, stop) := start.takeWhile spaced Char.isDigit
  let (_, after) := stop.takeWhile spaced isSpace
  let span : Span := ⟨start.place, stop.place⟩
  let value := digits.foldl (fun n x => 10 * n + (x.toNat - 48)) 0
  (if digits.isEmpty then refuse span .countEmpty
   else if 4294967295 < value then refuse span .countTooLarge
   else .ok value, after)

/-- Read a count in braces: a number, a least number, or a least and a greatest number. The cursor
goes to the closing brace. -/
def readCount (spaced : Bool) (c : Cursor) : Except Problem ((Nat × Option Nat) × Cursor) := do
  let unclosed (stop : Cursor) : Except Problem ((Nat × Option Nat) × Cursor) :=
    refuse ⟨c.place, stop.place⟩ .countUnclosed
  let closed (count : Nat × Option Nat) (stop : Cursor) :
      Except Problem ((Nat × Option Nat) × Cursor) :=
    if stop.rest.head? = some '\x7d' then .ok (count, stop) else unclosed stop
  let inside := c.advance spaced
  let (least, afterLeast) := readDecimal spaced inside
  let afterComma := afterLeast.advance spaced
  if inside.rest.isEmpty then unclosed inside
  else
    match afterLeast.rest with
    | [] => unclosed afterLeast
    | ',' :: _ =>
      if afterComma.rest.isEmpty then unclosed afterComma
      else if afterComma.rest.head? = some '\x7d' then closed (← least, none) afterComma
      else
        let low ← least
        let (most, stop) := readDecimal spaced afterComma
        closed (low, some (← most)) stop
    | _ =>
      let count ← least
      closed (count, some count) afterLeast

/-- Read a counted repetition. -/
def readCounted (r : Reading) (c : Cursor) : Except Problem (Reading × Cursor) := do
  let _ ← r.repeatLast c.here 0 none
  let ((least, most), brace) ← readCount r.flags.spaced c
  let stop := skipMark (brace.advance r.flags.spaced)
  if most.any (· < least) then refuse ⟨c.place, stop.place⟩ .countRange
  else return (← r.repeatLast c.here least most, stop)

/-- The letters of flags. -/
inductive Flag
  | ignoreCase
  | multiLine
  | dotAll
  | preferFew
  | unicode
  | bothBreaks
  | spaced
deriving DecidableEq

namespace Flag

def ofLetter? : Char → Option Flag
  | 'i' => some ignoreCase
  | 'm' => some multiLine
  | 's' => some dotAll
  | 'U' => some preferFew
  | 'u' => some unicode
  | 'R' => some bothBreaks
  | 'x' => some spaced
  | _ => none

def set (flags : Flags) (value : Bool) : Flag → Flags
  | ignoreCase => { flags with ignoreCase := value }
  | multiLine => { flags with multiLine := value }
  | dotAll => { flags with dotAll := value }
  | preferFew => flags
  | unicode => { flags with unicode := value }
  | bothBreaks => { flags with bothBreaks := value }
  | spaced => { flags with spaced := value }

/-- Set flags; those after the sign for negation, which is `none`, are cleared. -/
def setAll (flags : Flags) (value : Bool) : List (Option Flag) → Flags
  | [] => flags
  | some f :: rest => setAll (f.set flags value) value rest
  | none :: rest => setAll flags false rest

end Flag

/-- Read flags up to the colon or parenthesis after them. `read` has those before, the newest
first. -/
def readFlags (read : List (Option Flag × Span)) (place : Nat) :
    List Char → Except Problem (List (Option Flag) × Cursor)
  | [] => refuse ⟨place, place⟩ .flagAtEnd
  | x :: rest =>
    let mark : Span := ⟨place, place + 1⟩
    let add (flag : Option Flag) (twice : Reason) :=
      match read.find? (·.1 = flag) with
      | some (_, first) => .error ⟨mark, some first, twice⟩
      | none => readFlags ((flag, mark) :: read) (place + 1) rest
    if x = ':' || x = ')' then
      match read with
      | (none, sign) :: _ => refuse sign .flagDangling
      | _ => .ok (read.reverse.map (·.1), ⟨place, x :: rest⟩)
    else if x = '-' then add none .negationTwice
    else
      match Flag.ofLetter? x with
      | some flag => add (some flag) .flagTwice
      | none => refuse mark .flagUnknown

/-- Whether a character may stand in the name of a group; `first` tells that it starts the name. -/
def isNameChar (first : Bool) (c : Char) : Bool :=
  c = '_' || c.isAlpha || 128 ≤ c.toNat ||
    (!first && (c.isDigit || c = '.' || c = '[' || c = ']'))

/-- Read the name of a group and the angle bracket after it. -/
def readName (c : Cursor) : Except Problem ((List Char × Span) × Cursor) :=
  let name := c.rest.takeWhile fun x => x ≠ '>' && isNameChar false x
  let stop := c.drop name.length
  let span : Span := ⟨c.place, stop.place⟩
  match name with
  | [] =>
    match c.rest with
    | [] => refuse c.here .nameAtEnd
    | '>' :: _ => refuse c.here .nameEmpty
    | _ => refuse c.mark .nameInvalid
  | x :: _ =>
    if !isNameChar true x then refuse c.mark .nameInvalid
    else
      match stop.rest with
      | [] => refuse stop.here .nameAtEnd
      | '>' :: _ => .ok ((name, span), stop.next)
      | _ => refuse stop.mark .nameInvalid

namespace Reading

/-- Open a group with flags of its own. -/
def openWith (r : Reading) (opened : Span) (flags : Flags) : Reading :=
  { r with flags := flags, group := { opened := opened, flags := r.flags }, outer := r.group :: r.outer }

/-- Open a group with a name. -/
def openNamed (r : Reading) (opened : Span) (c : Cursor) : Except Problem (Reading × Cursor) := do
  let ((name, span), stop) ← readName c
  match r.names.find? (·.1 = name) with
  | some (_, first) => .error ⟨span, some first, .nameTwice⟩
  | none => return ({ r.openWith opened r.flags with names := (name, span) :: r.names }, stop)

/-- Open a group that starts with flags, or set flags for the rest of the group. -/
def openFlags (r : Reading) (opened : Span) (c : Cursor) : Except Problem (Reading × Cursor) := do
  let (flags, stop) ← readFlags [] (c.place + 1) (c.rest.drop 1)
  let changed := Flag.setAll r.flags true flags
  if stop.rest.head? = some ':' then return (r.openWith opened changed, stop.next)
  else if flags.isEmpty then refuse c.here .nothingToRepeat
  else return ({ r with flags := changed, group := r.group.addFlags }, stop.next)

/-- Read the start of a group. -/
def openGroup (r : Reading) (c : Cursor) : Except Problem (Reading × Cursor) :=
  let inner := c.advance r.flags.spaced
  let lookAround (count : Nat) : Except Problem (Reading × Cursor) :=
    refuse ⟨c.place, inner.place + count⟩ .lookAround
  match inner.rest with
  | '?' :: '=' :: _ => lookAround 2
  | '?' :: '!' :: _ => lookAround 2
  | '?' :: '<' :: '=' :: _ => lookAround 3
  | '?' :: '<' :: '!' :: _ => lookAround 3
  | '?' :: 'P' :: '<' :: _ => r.openNamed c.mark (inner.drop 3)
  | '?' :: '<' :: _ => r.openNamed c.mark (inner.drop 2)
  | ['?'] => refuse c.mark .groupUnclosed
  | '?' :: _ => r.openFlags c.mark inner
  | _ => .ok (r.openWith c.mark r.flags, inner)

/-- Read the end of a group. -/
def closeGroup (r : Reading) (c : Cursor) : Except Problem (Reading × Cursor) :=
  match r.outer with
  | [] => refuse c.mark .groupUnopened
  | g :: rest =>
    .ok ({ r with flags := r.group.flags, group := g.add r.group.pattern, outer := rest }, c.next)

/-- The start or the end of the text, or of a line of it. -/
def edge (r : Reading) (ofText : Place) (ofLine : Bool → Place) : Pattern :=
  .place (if r.flags.multiLine then ofLine r.flags.bothBreaks else ofText)

/-- Read the next part of the text, which starts with `x`. -/
def step (r : Reading) (x : Char) (c : Cursor) : Except Problem (Reading × Cursor) :=
  let repeatAll (least : Nat) (most : Option Nat) : Except Problem (Reading × Cursor) :=
    (r.repeatLast c.here least most).map fun r => (r, skipMark c.next)
  match x with
  | '(' => r.openGroup c
  | ')' => r.closeGroup c
  | '|' => .ok ({ r with group := r.group.split }, c.next)
  | '[' => (readClass r.flags c).map fun (k, stop) => (r.addClass k, stop)
  | '?' => repeatAll 0 (some 1)
  | '*' => repeatAll 0 none
  | '+' => repeatAll 1 none
  | '\x7b' => readCounted r c
  | '\x5c' => (readEscape r.flags.spaced c).map fun (a, stop) => (r.addAtom a, stop)
  | '.' => .ok (r.addDot c.mark, c.next)
  | '^' => .ok (r.add (r.edge .textStart .lineStart), c.next)
  | '$' => .ok (r.add (r.edge .textEnd .lineEnd), c.next)
  | _ => .ok (r.addLiteral c.mark x false, c.next)

/-- Read to the end of the text. Every step goes over a character, so `steps` is their number. -/
def finish : Nat → Reading → Cursor → Except Problem Reading
  | 0, r, _ => .ok r
  | steps + 1, r, before =>
    let c := before.skip r.flags.spaced
    match c.rest with
    | [] => if r.outer.isEmpty then .ok r else refuse r.group.opened .groupUnclosed
    | x :: _ =>
      match r.step x c with
      | .ok (next, stop) => finish steps next stop
      | .error e => .error e

end Reading

/-- The bytes for one state of an automaton. -/
def stateSize : Nat := 32

/-- The pattern that a text gives. -/
def parse (text : String) : Except Refusal Pattern :=
  match Reading.finish (text.toList.length + 1) {} ⟨0, text.toList⟩ with
  | .error e => .error (.at e)
  | .ok r =>
    match r.problem with
    | some e => .error (.at e)
    | none =>
      if sizeLimit < stateSize * r.group.pattern.size then .error .tooLarge
      else if r.wordEdges then .error .wordEdges
      else .ok r.group.pattern

end Pattern

end RegisterColoring
