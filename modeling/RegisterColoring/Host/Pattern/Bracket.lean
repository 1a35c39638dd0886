import RegisterColoring.Host.Pattern.Atom

namespace RegisterColoring

namespace Pattern

/-- What a pattern is read under. -/
structure Flags where
  ignoreCase : Bool := false
  multiLine : Bool := false
  dotAll : Bool := false
  bothBreaks : Bool := false
  /-- Classes are of characters, not of bytes. -/
  unicode : Bool := true
  spaced : Bool := false

/-- A class from part of a pattern. -/
structure ClassPart where
  span : Span
  set : CharClass
  problem : Option Problem := none

/-- An operation between classes. -/
inductive ClassOp
  | inter
  | diff
  | symmDiff

def ClassOp.apply : ClassOp → CharClass → CharClass → CharClass
  | inter => .inter
  | diff => .diff
  | symmDiff => .symmDiff

namespace ClassPart

/-- The class with a problem, unless it has one. -/
def failing (p : ClassPart) (span : Span) (reason : Reason) : ClassPart :=
  { p with problem := p.problem <|> some ⟨span, none, reason⟩ }

/-- A part without a class. -/
def unknown (span : Span) (reason : Reason) : ClassPart :=
  failing ⟨span, .none, none⟩ span reason

/-- The characters of both parts. -/
def union (p q : ClassPart) : ClassPart :=
  ⟨⟨p.span.start, q.span.stop⟩, p.set.union q.set, p.problem <|> q.problem⟩

/-- The class with its letters in both cases, where case is ignored. Only the cases of ASCII letters
are known. -/
def folded (flags : Flags) (p : ClassPart) (span : Span) : ClassPart :=
  if !flags.ignoreCase then p
  else if !flags.unicode then { p with set := .bothCases p.set }
  else if p.set = .none then p
  else p.failing span .caseUnknown

/-- A class of bytes is of whole characters if it is of ASCII characters only. -/
def checked (flags : Flags) (p : ClassPart) (span : Span) : ClassPart :=
  if !flags.unicode && (List.range 128).any fun i => p.set.contains (Char.ofNat (128 + i)) then
    p.failing span .partOfChar
  else p

/-- A class in brackets, or the class of all other characters. -/
def closed (flags : Flags) (negated : Bool) (p : ClassPart) (span : Span) : ClassPart :=
  let q := p.folded flags span
  checked flags { q with span := span, set := if negated then .compl q.set else q.set } span

/-- A class that an operation gives. -/
def combine (flags : Flags) (op : ClassOp) (p q : ClassPart) : ClassPart :=
  let right := q.folded flags q.span
  let left := p.folded flags p.span
  ⟨⟨p.span.start, q.span.stop⟩, op.apply left.set right.set,
    p.problem <|> q.problem <|> right.problem <|> left.problem⟩

/-- The class with one character. -/
def ofLiteral (flags : Flags) (span : Span) (c : Char) (byte : Bool) : ClassPart :=
  if flags.unicode || c.toNat < 128 then ⟨span, .single c, none⟩
  else unknown span (if byte then .partOfChar else .charNotAllowed)

/-- The class of a shorthand. -/
def ofShorthand (flags : Flags) (span : Span) (k : CharClass) (negated : Bool) : ClassPart :=
  if flags.unicode then unknown span .shorthandUnknown
  else checked flags ⟨span, if negated then .compl k else k, none⟩ span

/-- No property is known. -/
def ofProperty (flags : Flags) (span : Span) : ClassPart :=
  unknown span (if flags.unicode then .propertyUnknown else .charNotAllowed)

/-- The class of an atom. -/
def ofAtom (flags : Flags) (a : Atom) : Except Problem ClassPart :=
  match a.kind with
  | .literal c byte => .ok (ofLiteral flags a.span c byte)
  | .shorthand k negated => .ok (ofShorthand flags a.span k negated)
  | .property => .ok (ofProperty flags a.span)
  | .place _ => refuse a.span .classEscape
  | .word _ => refuse a.span .classEscape

/-- The class of the characters from one to another. -/
def ofEnds (flags : Flags) (a b : Atom) : Except Problem ClassPart :=
  match a.kind, b.kind with
  | .literal low lowByte, .literal high highByte =>
    let span : Span := ⟨a.span.start, b.span.stop⟩
    if low ≤ high then
      .ok ⟨span, .range low high, (ofLiteral flags a.span low lowByte).problem <|>
        (ofLiteral flags b.span high highByte).problem⟩
    else refuse span .classRange
  | .literal _ _, _ => refuse b.span .classRangeEnd
  | _, _ => refuse a.span .classRangeEnd

end ClassPart

/-- The classes that have names. -/
def namedClasses : List (String × CharClass) :=
  [("alnum", .ranges [('0', '9'), ('A', 'Z'), ('a', 'z')]),
   ("alpha", .ranges [('A', 'Z'), ('a', 'z')]),
   ("ascii", .range '\x00' '\x7f'),
   ("blank", .ranges [('\t', '\t'), (' ', ' ')]),
   ("cntrl", .ranges [('\x00', '\x1f'), ('\x7f', '\x7f')]),
   ("digit", .digit),
   ("graph", .range '!' '~'),
   ("lower", .range 'a' 'z'),
   ("print", .range ' ' '~'),
   ("punct", .ranges [('!', '/'), (':', '@'), ('[', '\x60'), ('\x7b', '~')]),
   ("space", .space),
   ("upper", .range 'A' 'Z'),
   ("word", .word),
   ("xdigit", .ranges [('0', '9'), ('A', 'F'), ('a', 'f')])]

/-- Brackets that are open: the classes in them so far, and an operation that waits for its right
side. -/
structure Bracket where
  /-- The bracket and what stands first in it. -/
  opened : Span
  negated : Bool
  /-- Where the classes since the last operation start. -/
  since : Nat
  pending : Option (ClassOp × ClassPart) := none
  parts : Option ClassPart := none

namespace Bracket

def add (b : Bracket) (p : ClassPart) : Bracket :=
  { b with parts := some (match b.parts with | some q => q.union p | none => p) }

/-- The class so far. -/
def value (flags : Flags) (b : Bracket) : ClassPart :=
  let right := b.parts.getD ⟨⟨b.since, b.since⟩, .none, none⟩
  match b.pending with
  | some (op, left) => ClassPart.combine flags op left right
  | none => right

/-- The class with its end. -/
def closed (flags : Flags) (b : Bracket) (stop : Nat) : ClassPart :=
  (b.value flags).closed flags b.negated ⟨b.opened.start, stop⟩

/-- Start the right side of an operation. -/
def operate (flags : Flags) (b : Bracket) (op : ClassOp) (place : Nat) : Bracket :=
  { b with since := place, pending := some (op, b.value flags), parts := none }

end Bracket

/-- Read the hyphens that stand first in brackets, which are characters of the class. -/
def readHyphens (spaced : Bool) : Nat → Bracket → Cursor → Bracket × Cursor
  | 0, b, c => (b, c)
  | count + 1, b, c =>
    match c.rest with
    | '-' :: _ => readHyphens spaced count (b.add ⟨c.mark, .single '-', none⟩) (c.advance spaced)
    | _ => (b, c)

/-- Read an opening bracket. A closing bracket right after it is a character of the class. -/
def openBracket (spaced : Bool) (c : Cursor) : Read Bracket :=
  let inside := c.advance spaced
  let negated := inside.rest.head? = some '^'
  let first := if negated then inside.advance spaced else inside
  let (b, after) :=
    readHyphens spaced first.rest.length ⟨c.mark, negated, first.place, none, none⟩ first
  let opened (b : Bracket) (stop : Cursor) : Read Bracket :=
    .ok ({ b with opened := ⟨c.place, stop.place⟩ }, stop)
  match after.rest with
  | [] =>
    if b.parts.isSome then refuse c.here .classUnclosed
    else refuse ⟨c.place, after.place⟩ .classUnclosed
  | ']' :: _ =>
    if b.parts.isSome then opened b after
    else
      let stop := after.advance spaced
      if stop.rest.isEmpty then refuse ⟨c.place, stop.place⟩ .classUnclosed
      else opened (b.add ⟨after.mark, .single ']', none⟩) stop
  | _ => opened b after

/-- The named class at the cursor. -/
def readNamed? (flags : Flags) (c : Cursor) : Option (ClassPart × Cursor) :=
  match c.rest with
  | '[' :: ':' :: rest =>
    let negated := rest.head? = some '^'
    let start := if negated then rest.drop 1 else rest
    let name := start.takeWhile (· ≠ ':')
    if (start.drop name.length).take 2 = [':', ']'] then
      let stop := c.drop (2 + (if negated then 1 else 0) + name.length + 2)
      let span : Span := ⟨c.place, stop.place⟩
      (namedClasses.find? (·.1 = String.ofList name)).map fun (_, k) =>
        (ClassPart.closed flags negated ⟨span, k, none⟩ span, stop)
    else none
  | _ => none

/-- Read one character in brackets, or an atom that starts with a backslash. -/
def readMember (spaced : Bool) (c : Cursor) : Read Atom :=
  match c.rest with
  | '\x5c' :: _ => readEscape spaced c
  | x :: _ => .ok (⟨c.mark, .literal x false⟩, c.next)
  | [] => refuse c.here .classUnclosed

/-- Read a character or a range. A hyphen is a character of the class if a bracket follows. -/
def readRange (flags : Flags) (opened : Span) (c : Cursor) :
    Except Problem (ClassPart × Cursor) := do
  let (a, afterMember) ← readMember flags.spaced c
  let hyphen := afterMember.skip flags.spaced
  let second := hyphen.advance flags.spaced
  match hyphen.rest with
  | [] => refuse opened .classUnclosed
  | '-' :: _ =>
    if second.rest.head? = some ']' || second.rest.head? = some '-' then
      return (← ClassPart.ofAtom flags a, hyphen)
    if second.rest.isEmpty then refuse opened .classUnclosed
    let (b, stop) ← readMember flags.spaced second
    return (← ClassPart.ofEnds flags a b, stop)
  | _ => return (← ClassPart.ofAtom flags a, hyphen)

/-- Read to the end of the outermost brackets. Every step goes over a character, so `steps` is their
number. -/
def readBrackets (flags : Flags) : Nat → Bracket → List Bracket → Cursor → Read ClassPart
  | 0, b, _, _ => refuse b.opened .classUnclosed
  | steps + 1, b, outer, before =>
    let c := before.skip flags.spaced
    let operate (op : ClassOp) : Read ClassPart :=
      readBrackets flags steps (b.operate flags op (c.place + 2)) outer (c.drop 2)
    match c.rest with
    | [] => refuse b.opened .classUnclosed
    | '[' :: _ =>
      match readNamed? flags c with
      | some (p, stop) => readBrackets flags steps (b.add p) outer stop
      | none =>
        match openBracket flags.spaced c with
        | .ok (inner, stop) => readBrackets flags steps inner (b :: outer) stop
        | .error e => .error e
    | ']' :: _ =>
      match outer with
      | [] => .ok (b.closed flags c.next.place, c.next)
      | o :: rest => readBrackets flags steps (o.add (b.closed flags c.next.place)) rest c.next
    | '&' :: '&' :: _ => operate .inter
    | '-' :: '-' :: _ => operate .diff
    | '~' :: '~' :: _ => operate .symmDiff
    | _ =>
      match readRange flags b.opened c with
      | .ok (p, stop) => readBrackets flags steps (b.add p) outer stop
      | .error e => .error e

/-- Read a class in brackets. -/
def readClass (flags : Flags) (c : Cursor) : Except Problem (ClassPart × Cursor) := do
  let (b, inside) ← openBracket flags.spaced c
  readBrackets flags (inside.rest.length + 1) b [] inside

end Pattern

end RegisterColoring
