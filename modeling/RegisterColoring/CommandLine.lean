import RegisterColoring.Numeral
import RegisterColoring.Options

namespace RegisterColoring

/-- What is written for each function. -/
inductive Mode
  | liveness | deadCode | allocation
deriving DecidableEq

inductive Switch
  | liveness | deadCode | allocation | colors | keepDeadCode | optionFile | dump | pinParams
  | verbose | help | version
deriving DecidableEq

namespace Switch

def all : List Switch :=
  [liveness, deadCode, allocation, colors, keepDeadCode, optionFile, dump, pinParams, verbose, help,
    version]

/-- The name after two hyphens. -/
def name : Switch → String
  | liveness => "liveness"
  | deadCode => "dce"
  | allocation => "regalloc"
  | colors => "num-colors"
  | keepDeadCode => "no-dce"
  | optionFile => "config"
  | dump => "dump-json"
  | pinParams => "precolor-params"
  | verbose => "verbose"
  | help => "help"
  | version => "version"

/-- The letter after one hyphen. -/
def letter? : Switch → Option Char
  | allocation => some 's'
  | colors => some 'k'
  | verbose => some 'v'
  | help => some 'h'
  | version => some 'V'
  | _ => none

/-- What the value of the switch is called, if it has one. -/
def value? : Switch → Option String
  | colors => some "NUM_COLORS"
  | optionFile => some "TOML"
  | _ => none

def purpose : Switch → String
  | liveness => "Print live-in/live-out sets and per-instruction live-after sets"
  | deadCode => "Print the instruction stream after dead code elimination"
  | allocation => "Print the register allocation (the default)"
  | colors =>
    "Number of available registers (1 to 13). With 1, no instruction may read two temps"
  | keepDeadCode => "Skip dead code elimination before allocation"
  | optionFile => "Backend options in TOML"
  | dump => "Also print the color assignment as JSON"
  | pinParams => "Pin the first six parameters to the argument registers"
  | verbose => "Log pass progress"
  | help => "Print help"
  | version => "Print version"

def ofName? (name : String) : Option Switch := all.find? (·.name = name)

def ofLetter? (c : Char) : Option Switch := all.find? (·.letter? = some c)

/-- Whether the next argument can be the value of the switch. A number of colors may start with a
hyphen; a file name may not, unless it is nothing else. -/
def takes (s : Switch) (argument : String) : Bool :=
  s = colors || argument = "-" || !(['-'].isPrefixOf argument.toList)

end Switch

/-- What is wrong with a command line. -/
inductive Misuse
  | unknownSwitch (argument : String)
  | repeated (s : Switch)
  | missingValue (s : Switch)
  | needlessValue (s : Switch)
  | invalidValue (s : Switch) (value : String)
  | secondFile (argument : String)
  | emptyFile
  | missingFile
  | conflict
deriving DecidableEq

def Misuse.message : Misuse → String
  | unknownSwitch argument => "unexpected argument " ++ argument
  | repeated s => "--" ++ s.name ++ " is given twice"
  | missingValue s => "--" ++ s.name ++ " needs a value"
  | needlessValue s => "--" ++ s.name ++ " takes no value"
  | invalidValue s value => "invalid value " ++ value ++ " for --" ++ s.name
  | secondFile argument => "unexpected argument " ++ argument
  | emptyFile => "the file has no name"
  | missingFile => "no file is given"
  | conflict => "only one of --liveness, --dce and --regalloc can be given"

/-- Why nothing is run. -/
inductive Stop
  | misuse (reason : Misuse)
  | help
  | version
deriving DecidableEq

/-- What the arguments read so far have given. -/
structure Given where
  switches : List Switch := []
  colors : Option Int := none
  optionFile : Option String := none
  file : Option String := none
deriving DecidableEq

namespace Given

/-- Add a switch with its value. -/
def addSwitch (g : Given) (s : Switch) (value : String) : Except Stop Given :=
  if s ∈ g.switches then .error (.misuse (.repeated s))
  else
    let next := { g with switches := s :: g.switches }
    match s with
    | .help => .error .help
    | .version => .error .version
    | .colors =>
      match Numeral.signed? (Numeral.plain? 10) value.toList with
      | some n => .ok { next with colors := some n }
      | none => .error (.misuse (.invalidValue s value))
    | .optionFile =>
      if value.isEmpty then .error (.misuse (.invalidValue s value))
      else .ok { next with optionFile := some value }
    | _ => .ok next

/-- Add the source file. -/
def addFile (g : Given) (path : String) : Except Stop Given :=
  if g.file.isSome then .error (.misuse (.secondFile path))
  else if path.isEmpty then .error (.misuse .emptyFile)
  else .ok { g with file := some path }

/-- Add files only, after the mark that ends the switches. -/
def addFiles (g : Given) : List String → Except Stop Given
  | [] => .ok g
  | path :: rest => (g.addFile path).bind fun g => g.addFiles rest

/-- Add a switch that is given by its name, with or without a value. If the value is still to come
the switch is part of the result. -/
def addLong (g : Given) (text : List Char) : Except Stop (Given × Option Switch) :=
  let (name, value) := text.span (· ≠ '=')
  match Switch.ofName? (String.ofList name), value with
  | none, _ => .error (.misuse (.unknownSwitch ("--" ++ String.ofList text)))
  | some s, [] =>
    if s.value?.isSome then .ok (g, some s) else (g.addSwitch s "").map fun g => (g, none)
  | some s, _ :: value =>
    if s.value?.isSome then (g.addSwitch s (String.ofList value)).map fun g => (g, none)
    else .error (.misuse (.needlessValue s))

/-- Add the switches of a row of letters. The first that has a value takes the rest of the row for
it, less an equals sign, or else the next argument. -/
def addLetters (g : Given) : List Char → Except Stop (Given × Option Switch)
  | [] => .ok (g, none)
  | c :: rest =>
    match Switch.ofLetter? c with
    | none => .error (.misuse (.unknownSwitch (String.ofList ['-', c])))
    | some s =>
      if s.value?.isSome then
        match rest with
        | [] => .ok (g, some s)
        | '=' :: value => (g.addSwitch s (String.ofList value)).map fun g => (g, none)
        | value => (g.addSwitch s (String.ofList value)).map fun g => (g, none)
      else (g.addSwitch s "").bind fun g => g.addLetters rest

/-- Read arguments. The switch, if there is one, waits for its value. -/
def addAll (g : Given) : Option Switch → List String → Except Stop Given
  | none, [] => .ok g
  | some s, [] => .error (.misuse (.missingValue s))
  | some s, argument :: rest =>
    if s.takes argument then (g.addSwitch s argument).bind fun g => g.addAll none rest
    else .error (.misuse (.missingValue s))
  | none, argument :: rest =>
    match argument.toList with
    | ['-', '-'] => g.addFiles rest
    | '-' :: '-' :: text => (g.addLong text).bind fun (g, waiting) => g.addAll waiting rest
    | '-' :: c :: letters =>
      (g.addLetters (c :: letters)).bind fun (g, waiting) => g.addAll waiting rest
    | _ => (g.addFile argument).bind fun g => g.addAll none rest

end Given

/-- What a command line asks for. -/
structure Invocation where
  file : String
  mode : Mode
  colors : Option Int
  keepDeadCode : Bool
  optionFile : Option String
  dump : Bool
  pinParams : Bool
  verbose : Bool
deriving DecidableEq

namespace Invocation

/-- The mode of the switches, of which at most one chooses a mode. -/
def modeOf (switches : List Switch) : Option Mode :=
  match [Switch.liveness, .deadCode, .allocation].filter (· ∈ switches) with
  | [] => some .allocation
  | [.liveness] => some .liveness
  | [.deadCode] => some .deadCode
  | [_] => some .allocation
  | _ => none

/-- The invocation of what is given, if that is complete. -/
def ofGiven (g : Given) : Except Stop Invocation :=
  match g.file, modeOf g.switches with
  | none, _ => .error (.misuse .missingFile)
  | _, none => .error (.misuse .conflict)
  | some file, some mode =>
    .ok
      { file, mode
        colors := g.colors
        keepDeadCode := .keepDeadCode ∈ g.switches
        optionFile := g.optionFile
        dump := .dump ∈ g.switches
        pinParams := .pinParams ∈ g.switches
        verbose := .verbose ∈ g.switches }

/-- The invocation that a list of arguments describes. -/
def parse (arguments : List String) : Except Stop Invocation :=
  (({} : Given).addAll none arguments).bind ofGiven

/-- The options, which the command line takes over those of a file. -/
def options (i : Invocation) (fromFile : Options) : Options :=
  { fromFile with
    colors := i.colors.getD fromFile.colors
    deadCode := fromFile.deadCode && !i.keepDeadCode
    pinParams := fromFile.pinParams || i.pinParams }

end Invocation

/-- The left column of the help text. -/
def Switch.usage (s : Switch) : String :=
  let short := match s.letter? with
    | some c => String.ofList ['-', c, ',', ' ']
    | none => "    "
  let value := match s.value? with
    | some name => " <" ++ name ++ ">"
    | none => ""
  short ++ "--" ++ s.name ++ value

/-- The help text. -/
def helpText : String :=
  let width := (Switch.all.map (·.usage.length)).foldl max 0
  let row (s : Switch) : String :=
    "  " ++ String.ofList (s.usage.toList.rightpad width ' ') ++ "  " ++ s.purpose ++ "\n"
  "Liveness, dead code elimination and register allocation for a three-address IR\n\n" ++
    "Usage: colorc [OPTIONS] <FILE>\n\n" ++
    "Arguments:\n  <FILE>  IR file to compile\n\n" ++
    "Options:\n" ++ String.join (Switch.all.map row)

end RegisterColoring
