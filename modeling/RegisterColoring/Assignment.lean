import RegisterColoring.Dump
import RegisterColoring.IndexMap
import RegisterColoring.Token

namespace RegisterColoring

/-- The place of a temp: a register or a slot. -/
inductive Location
  | reg (c : Color)
  | slot (s : Slot)
deriving DecidableEq

def Location.dump : Location → Dump
  | reg c => .record [("Reg", .number c)]
  | slot s => .record [("Spill", .number s)]

abbrev Assignment := IndexMap Location

namespace Assignment

def colors (a : Assignment) : List Color :=
  a.values.filterMap fun
    | .reg c => some c
    | .slot _ => none

/-- The largest color, if a temp has a register at all. -/
def largestColor? (a : Assignment) : Option Color := a.colors.max?

def dump (a : Assignment) : Dump :=
  .record (a.entries.map fun (t, place) => (toString t, place.dump))

end Assignment

end RegisterColoring
