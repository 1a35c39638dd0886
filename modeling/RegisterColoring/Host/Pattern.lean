import RegisterColoring.IndexSet

namespace RegisterColoring

/-- A class of characters. -/
inductive CharClass
  | none
  | range (low high : Char)
  | union (a b : CharClass)
  | inter (a b : CharClass)
  | diff (a b : CharClass)
  | symmDiff (a b : CharClass)
  | compl (a : CharClass)
  /-- The class with each of its letters from `a` to `z` in both cases. -/
  | bothCases (a : CharClass)
deriving DecidableEq

namespace CharClass

def contains : CharClass → Char → Bool
  | none, _ => false
  | range low high, c => low ≤ c && c ≤ high
  | union a b, c => a.contains c || b.contains c
  | inter a b, c => a.contains c && b.contains c
  | diff a b, c => a.contains c && !b.contains c
  | symmDiff a b, c => a.contains c != b.contains c
  | compl a, c => !a.contains c
  | bothCases a, c => a.contains c || a.contains c.toLower || a.contains c.toUpper

def single (c : Char) : CharClass := range c c

/-- The characters of several ranges. -/
def ranges (pairs : List (Char × Char)) : CharClass :=
  pairs.foldl (fun k pair => k.union (range pair.1 pair.2)) none

def digit : CharClass := range '0' '9'

def word : CharClass := ranges [('0', '9'), ('A', 'Z'), ('_', '_'), ('a', 'z')]

def space : CharClass := ranges [('\t', '\r'), (' ', ' ')]

end CharClass

/-- A condition on a position in a text. Words are of letters, digits and underscores. -/
inductive Place
  | textStart
  | textEnd
  /-- After a line break; `both` tells that a carriage return is one, too. -/
  | lineStart (both : Bool)
  /-- Before a line break. -/
  | lineEnd (both : Bool)
  | wordEdge
  | noWordEdge
  | wordStart
  | wordEnd
  | noWordBefore
  | noWordAfter
deriving DecidableEq

/-- Whether a position satisfies the condition, from the characters next to it. -/
def Place.holds (p : Place) (before after : Option Char) : Bool :=
  let inWord (c : Option Char) : Bool := c.any CharClass.word.contains
  match p with
  | textStart => before.isNone
  | textEnd => after.isNone
  | lineStart both =>
    before.isNone || before = some '\n' || (both && before = some '\r' && after ≠ some '\n')
  | lineEnd both =>
    if both then after.isNone || after = some '\r' || (after = some '\n' && before ≠ some '\r')
    else after.isNone || after = some '\n'
  | wordEdge => inWord before != inWord after
  | noWordEdge => inWord before == inWord after
  | wordStart => !inWord before && inWord after
  | wordEnd => inWord before && !inWord after
  | noWordBefore => !inWord before
  | noWordAfter => !inWord after

/-- A regular expression. -/
inductive Pattern
  | empty
  | char (k : CharClass)
  | place (p : Place)
  | seq (p q : Pattern)
  | alt (p q : Pattern)
  /-- At least `least` times, and at most `most` times if that is given. -/
  | repeated (p : Pattern) (least : Nat) (most : Option Nat)
deriving DecidableEq

namespace Pattern

/-- Take a step `count` times. A step that changes nothing is the last. -/
def exactly (step : IndexSet → IndexSet) : Nat → IndexSet → IndexSet
  | 0, s => s
  | count + 1, s =>
    let next := step s
    if next = s then s else exactly step count next

/-- Take a step up to `count` times, and keep what was there before each. -/
def upTo (step : IndexSet → IndexSet) : Nat → IndexSet → IndexSet
  | 0, s => s
  | count + 1, s =>
    let next := s ∪ step s
    if next = s then s else upTo step count next

/-- The positions after a character of the class. -/
def afterChar (text : Array Char) (k : CharClass) (s : IndexSet) : IndexSet :=
  .ofList ((s.toList.filter fun i => text[i]?.any k.contains).map (· + 1))

/-- The character before a position. -/
def charBefore (text : Array Char) : Nat → Option Char
  | 0 => none
  | i + 1 => text[i]?

/-- The positions at which a match may end, from those at which it may start. An unbounded
repetition takes at most as many steps as there are positions, since each but the last adds one. -/
def reach (text : Array Char) : Pattern → IndexSet → IndexSet
  | empty, s => s
  | char k, s => afterChar text k s
  | place p, s => s.filter fun i => p.holds (charBefore text i) text[i]?
  | seq p q, s => reach text q (reach text p s)
  | alt p q, s => reach text p s ∪ reach text q s
  | repeated p least most, s =>
    upTo (reach text p) (match most with | some m => m - least | none => text.size + 1)
      (exactly (reach text p) least s)

/-- Whether a pattern matches some part of a text. -/
def occursIn (p : Pattern) (text : String) : Bool :=
  let chars := text.toList.toArray
  !(p.reach chars (.ofList (List.range (chars.size + 1)))).isEmpty

/-- How many states an automaton for the pattern has, about: a counted repetition is written out,
and a class that goes beyond ASCII has states for the bytes of its characters. -/
def size : Pattern → Nat
  | empty => 1
  | char k => if k.contains '\u00ff' then 14 else 1
  | place _ => 1
  | seq p q => p.size + q.size
  | alt p q => p.size + q.size + 1
  | repeated p least most =>
    match most with
    | some m => p.size * least + (p.size + 1) * (m - least) + 1
    | none => p.size * Nat.max least 1 + 1

/-- One pattern after the other. -/
def sequence (parts : List Pattern) : Pattern :=
  match parts with
  | [] => empty
  | p :: rest => rest.foldl seq p

end Pattern

end RegisterColoring
