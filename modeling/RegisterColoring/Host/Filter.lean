import RegisterColoring.Journal
import RegisterColoring.Host.Pattern.Reader
import RegisterColoring.Host.Space

namespace RegisterColoring

/-- A limit on the level of entries, or no entries at all. -/
abbrev Limit := Option Level

namespace Limit

/-- The limit that a word names, in letters of any case. -/
def ofWord? (word : List Char) : Option Limit :=
  let same (name : String) : Bool := name.toList.map Char.toLower = word.map Char.toLower
  if same "off" then some none
  else (Level.all.find? fun level => same level.name).map some

/-- Whether entries of a level are within the limit. -/
def admits (limit : Limit) (level : Level) : Bool :=
  match limit with
  | some most => level.rank ≤ most.rank
  | none => false

end Limit

/-- A limit for the topics whose names start with `name`, or for all topics. -/
structure Directive where
  name : Option (List Char)
  limit : Limit
deriving DecidableEq

namespace Directive

def length (d : Directive) : Nat := (d.name.getD []).length

def appliesTo (d : Directive) (topic : Topic) : Bool := (d.name.getD []).isPrefixOf topic.name.toList

end Directive

/-- Directives with different names, and a pattern. -/
structure Filter where
  directives : List Directive := []
  pattern : Option Pattern := none
deriving DecidableEq

namespace Filter

/-- Add a directive in place of the one with its name. -/
def insert (f : Filter) (d : Directive) : Filter :=
  if f.directives.any (·.name = d.name) then
    { f with directives := f.directives.map fun e => if e.name = d.name then d else e }
  else { f with directives := f.directives ++ [d] }

/-- The longest of the directives, the last of several. -/
def longest : List Directive → Option Directive
  | [] => none
  | d :: rest =>
    match longest rest with
    | some e => if d.length ≤ e.length then some e else some d
    | none => some d

/-- The limit for a topic. Without any directive only errors are written. -/
def limit (f : Filter) (topic : Topic) : Limit :=
  if f.directives.isEmpty then some .error
  else
    match longest (f.directives.filter (·.appliesTo topic)) with
    | some d => d.limit
    | none => none

/-- Whether an entry is written. -/
def admits (f : Filter) (e : Entry) : Bool :=
  (f.limit e.topic).admits e.level && f.pattern.all (·.occursIn e.text)

/-- The parts of a text between the occurrences of `mark`. -/
def splitAt (mark : Char) : List Char → List (List Char)
  | [] => [[]]
  | c :: rest =>
    if c = mark then [] :: splitAt mark rest
    else
      match splitAt mark rest with
      | [] => [[c]]
      | part :: later => (c :: part) :: later

/-- A directive is a limit, a name, or a name with a limit; a name alone has no limit. If it is
none of these the result is the text to complain about. -/
def directive (part : List Char) : Except (List Char) Directive :=
  match splitAt '=' part with
  | [word] =>
    match Limit.ofWord? word with
    | some limit => .ok ⟨none, limit⟩
    | none => .ok ⟨some word, some .trace⟩
  | [name, word] =>
    if (trimSpaces word).isEmpty then .ok ⟨some name, some .trace⟩
    else
      match Limit.ofWord? (trimSpaces word) with
      | some limit => .ok ⟨some name, limit⟩
      | none => .error (trimSpaces word)
  | _ => .error part

/-- What is wrong with a specification of a filter. The rest of it is used where there is any. -/
inductive Complaint
  | directive (text : List Char)
  | pattern (text : String) (refusal : Pattern.Refusal)
  /-- The specification has more than two parts with slashes between them. -/
  | parts (spec : String)
deriving DecidableEq

def Complaint.message : Complaint → String
  | directive text =>
    "warning: invalid logging spec '" ++ String.ofList text ++ "', ignoring it"
  | pattern text refusal => "warning: invalid regex filter - " ++ refusal.message text
  | parts spec =>
    "warning: invalid logging spec '" ++ spec ++ "', ignoring it (too many '/'s)"

/-- Add the directives of a list of parts. -/
def insertParts (f : Filter) : List (List Char) → Filter × List Complaint
  | [] => (f, [])
  | part :: rest =>
    if (trimSpaces part).isEmpty then insertParts f rest
    else
      match directive (trimSpaces part) with
      | .ok d => insertParts (f.insert d) rest
      | .error text =>
        let (g, complaints) := insertParts f rest
        (g, .directive text :: complaints)

/-- Set the pattern. -/
def withPattern (f : Filter) (text : String) : Filter × List Complaint :=
  match Pattern.parse text with
  | .ok p => ({ f with pattern := some p }, [])
  | .error refusal => (f, [.pattern text refusal])

/-- The filter of a specification, and what is wrong with it. A specification has directives with
commas between them, and then a pattern after a slash. -/
def parse (spec : String) : Filter × List Complaint :=
  match splitAt '/' spec.toList with
  | [directives] => insertParts {} (splitAt ',' directives)
  | [directives, pattern] =>
    let (f, complaints) := insertParts {} (splitAt ',' directives)
    let (g, more) := f.withPattern (String.ofList pattern)
    (g, complaints ++ more)
  | _ => ({}, [.parts spec])

end Filter

end RegisterColoring
