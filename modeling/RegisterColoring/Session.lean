import RegisterColoring.CommandLine
import RegisterColoring.Journal.Passes
import RegisterColoring.Report
import RegisterColoring.Resolution
import RegisterColoring.Source.Reader

namespace RegisterColoring

/-- Something written by a session. -/
inductive Output
  | out (text : String)
  | err (text : String)
  /-- The microseconds that have passed. -/
  | elapsed
deriving DecidableEq

/-- What a session writes, and the code with which it ends. -/
structure Outcome where
  outputs : List Output
  code : Nat
deriving DecidableEq

namespace Outcome

/-- The outcome with something written before. -/
def after (o : Outcome) (first : List Output) : Outcome := ⟨first ++ o.outputs, o.code⟩

/-- All that goes to the output, with `clock` for the time that has passed. -/
def outText (o : Outcome) (clock : String) : String :=
  String.join (o.outputs.map fun
    | .out text => text
    | .err _ => ""
    | .elapsed => clock)

/-- All that goes to the error output. -/
def errText (o : Outcome) : String :=
  String.join (o.outputs.map fun
    | .err text => text
    | _ => "")

/-- End at once with a message. -/
def failing (message : String) : Outcome := ⟨[.err (message ++ "\n")], 1⟩

end Outcome

/-- The bytes of a file as text. -/
def decodeText (bytes : ByteArray) : Except ReadFailure String :=
  match String.fromUTF8? bytes with
  | some text => .ok text
  | none => .error .notText

/-- The outcome of a command line with which nothing is run. -/
def Stop.outcome : Stop → Outcome
  | misuse reason => ⟨[.err ("error: " ++ reason.message ++ "\n")], 2⟩
  | help => ⟨[.out helpText], 0⟩
  | version => ⟨[.out "colorc 0.1.0\n"], 0⟩

/-- What every function is worked on with. -/
structure Session where
  invocation : Invocation
  settings : Settings
  /-- Which entries of the journal are written. -/
  admits : Entry → Bool

namespace Session

/-- The entries that are written. -/
def written (s : Session) (entries : List Entry) : List Output :=
  (entries.filter s.admits).map fun e => .out e.line

/-- An entry about the session that ends in the time that has passed. The time is not known when the
entry is filtered, so a typical one stands for it there. -/
def timed (s : Session) (text : String) : List Output :=
  if s.admits ⟨.info, .run, text ++ "100 us"⟩ then
    [.out (Entry.lead .info .run ++ text), .elapsed, .out " us\n"]
  else []

/-- The text for a function. -/
def text (s : Session) (f : Func) : Except Failure String :=
  match s.invocation.mode with
  | .liveness => (Liveness.analyze s.settings.maxIterations f).map fun l => l.report f
  | .deadCode =>
    let (g, outcome) := f.runDeadCode s.settings
    outcome.map fun (_, gone) => g.deadCodeReport gone
  | .allocation =>
    (f.allocate s.settings).bind fun a =>
      (a.report s.settings.colors).map fun report =>
        if s.invocation.dump then report ++ (a.dump s.settings.colors).pretty ++ "\n" else report

/-- The entries about the work on a function. -/
def journal (s : Session) (f : Func) : List Entry :=
  match s.invocation.mode with
  | .liveness => Journal.liveness s.settings.maxIterations f
  | .deadCode => Journal.deadCode s.settings f
  | .allocation => Journal.allocation s.settings f

/-- The entries about the work on a function, if there is one. -/
def progress (s : Session) : Except Failure Func → List Output
  | .ok f => s.written (s.journal f)
  | .error _ => []

/-- Whether nothing is done for the functions after one that fails. -/
def endsWith : Failure → Bool
  | .fault _ => true
  | e => e.isFatal

/-- The message of a failure and its dump. -/
def complaint (e : Failure) : List Output :=
  .err (e.message ++ "\n") :: (e.state?.map fun state => .err (state ++ "\n")).toList

/-- Work on the functions in order; `failed` tells whether one before them has failed. -/
def runFuncs (s : Session) (failed : Bool) : List (String × Except Failure Func) → Outcome
  | [] => ⟨[], if failed then 1 else 0⟩
  | (name, f) :: rest =>
    match f.bind s.text with
    | .ok text =>
      (s.runFuncs failed rest).after (s.progress f ++ s.timed (quoted name ++ ": ") ++ [.out text])
    | .error e =>
      if endsWith e then ⟨s.progress f ++ complaint e, 1⟩
      else (s.runFuncs true rest).after (s.progress f ++ [.err (e.message ++ "\n")])

/-- Work on a source text. -/
def runSource (s : Session) (pinParams : Bool) (source : String) : Outcome :=
  match Source.parse source with
  | .error e => .failing e.message
  | .ok program =>
    let rest := match resolveProgram program pinParams with
      | .ok funcs => s.runFuncs false funcs
      | .error e => .failing e.message
    rest.after (s.timed "Parse time: ")

end Session

/-- Settings that the chosen mode can work with. -/
def Invocation.settings (i : Invocation) (o : Options) : Except Failure Settings :=
  o.settings.bind fun s =>
    if i.mode = .allocation ∧ Register.pool.length < s.colors then
      .error (.config (.tooManyColors s.colors))
    else .ok s

/-- How texts in formats of other programs are read. -/
structure Readers where
  /-- The options that the text of a file sets, the others having their usual values. -/
  options : String → Except Failure Options
  /-- The entries of the journal that a specification admits, with a level for topics that it does not
  name, and the warnings about the specification. -/
  entries : String → Option Level → (Entry → Bool) × List String

/-- The options of the invocation, from what its option file gives. -/
def Invocation.readOptions (i : Invocation) (readers : Readers)
    (optionText : Except ReadFailure String) : Except Failure Options :=
  match i.optionFile with
  | none => .ok (i.options {})
  | some path =>
    match optionText with
    | .error reason => .error (.config (.unreadableOptions path reason))
    | .ok text => (readers.options text).map i.options

/-- The level that a verbose run sets. -/
def Invocation.level? (i : Invocation) : Option Level := if i.verbose then some .info else none

/-- Run an invocation with the texts of its option file and its source, and with a specification of
the entries of the journal that are to be written. -/
def Invocation.run (i : Invocation) (readers : Readers)
    (optionText source : Except ReadFailure String) (filterSpec : String) : Outcome :=
  match i.readOptions readers optionText with
  | .error e => .failing e.message
  | .ok options =>
    let (admits, complaints) := readers.entries filterSpec i.level?
    let warnings := complaints.map fun text => Output.err (text ++ "\n")
    let outcome : Outcome := match source with
      | .error reason => .failing ("couldn't read " ++ i.file ++ ": " ++ reason.message)
      | .ok text =>
        match i.settings options with
        | .error e => .failing e.message
        | .ok settings =>
          Session.runSource ⟨i, settings, admits⟩ options.pinParams text
    outcome.after warnings

end RegisterColoring
