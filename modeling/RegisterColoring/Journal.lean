namespace RegisterColoring

/-- How detailed an entry is, the least detailed first. -/
inductive Level
  | error | warn | info | debug | trace
deriving DecidableEq

namespace Level

def all : List Level := [error, warn, info, debug, trace]

def rank : Level → Nat
  | error => 1
  | warn => 2
  | info => 3
  | debug => 4
  | trace => 5

def name : Level → String
  | error => "ERROR"
  | warn => "WARN"
  | info => "INFO"
  | debug => "DEBUG"
  | trace => "TRACE"

end Level

/-- What an entry is about. -/
inductive Topic
  | run | pipeline | liveness | deadCode | interference | coloring | spilling
deriving DecidableEq

def Topic.name : Topic → String
  | run => "colorc"
  | pipeline => "colorc::pipeline"
  | liveness => "colorc::regalloc::liveness"
  | deadCode => "colorc::regalloc::dce"
  | interference => "colorc::regalloc::interference"
  | coloring => "colorc::regalloc::allocation"
  | spilling => "colorc::regalloc::spill"

structure Entry where
  level : Level
  topic : Topic
  text : String
deriving DecidableEq

namespace Entry

/-- What stands in front of the text: the level in five places and the topic. -/
def lead (level : Level) (topic : Topic) : String :=
  "[" ++ String.ofList (level.name.toList.rightpad 5 ' ') ++ " " ++ topic.name ++ "] "

/-- The line of an entry. -/
def line (e : Entry) : String := lead e.level e.topic ++ e.text ++ "\n"

end Entry

end RegisterColoring
