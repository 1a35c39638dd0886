import RegisterColoring.Func

namespace RegisterColoring

namespace Spill

/-- The address of a spilled temp is the address of its slot. -/
def redirect (slots : IndexMap Slot) : Instr → Instr
  | .addrOf dest var =>
    match slots.get? var with
    | some slot => .slotAddr dest slot
    | none => .addrOf dest var
  | i => i

/-- A read of a spilled temp: the temp, its slot and the fresh temp that takes its value. -/
structure Reload where
  temp : Temp
  slot : Slot
  fresh : Temp
deriving DecidableEq

/-- The fresh temp of a reloaded temp. -/
def fresh? (loads : List Reload) (t : Temp) : Option Temp :=
  (loads.find? (·.temp = t)).map (·.fresh)

section Draws

variable {m : Type → Type} [Monad m]

/-- The slots for a list of temps, each a new one. -/
def slotsM (alloc : m Slot) : List Temp → m (List (Temp × Slot))
  | [] => return []
  | t :: rest => do
    let slot ← alloc
    let later ← slotsM alloc rest
    return (t, slot) :: later

/-- The reloads for a list of temps, each with a fresh temp. -/
def reloadsM (draw : m Temp) (slots : IndexMap Slot) : List Temp → m (List Reload)
  | [] => return []
  | t :: rest =>
    match slots.get? t with
    | some slot => do
      let fresh ← draw
      let later ← reloadsM draw slots rest
      return ⟨t, slot, fresh⟩ :: later
    | none => reloadsM draw slots rest

/-- An instruction behind its reloads. A write of a spilled temp goes to a fresh temp, which is stored
afterwards; if the instruction also reads the spilled temp, the fresh one is that of the reload. -/
def coreCodeM (draw : m Temp) (slots : IndexMap Slot) (loads : List Reload) (i : Instr) :
    m (List Instr) :=
  let renamed := i.mapUses fun t => (fresh? loads t).getD t
  match i.dest?.bind fun d => (slots.get? d).map fun slot => (d, slot) with
  | none => return [renamed]
  | some (d, slot) =>
    match fresh? loads d with
    | some shared => return [renamed.mapDest fun _ => shared, .spillStore slot shared]
    | none => do
      let fresh ← draw
      return [renamed.mapDest fun _ => fresh, .spillStore slot fresh]

/-- The code for one instruction: each read of a spilled temp is preceded by a load. -/
def instrCodeM (draw : m Temp) (slots : IndexMap Slot) (i : Instr) : m (List Instr) := do
  let loads ← reloadsM draw slots (redirect slots i).uses
  let core ← coreCodeM draw slots loads (redirect slots i)
  return (loads.map fun r => .spillLoad r.fresh r.slot) ++ core

/-- The code for a list of instructions. -/
def instrsCodeM (draw : m Temp) (slots : IndexMap Slot) : List Instr → m (List Instr)
  | [] => return []
  | i :: rest => do
    let code ← instrCodeM draw slots i
    let later ← instrsCodeM draw slots rest
    return code ++ later

def blocksCodeM (draw : m Temp) (slots : IndexMap Slot) : List Block → m (List Block)
  | [] => return []
  | block :: rest => do
    let instrs ← instrsCodeM draw slots block.instrs
    let later ← blocksCodeM draw slots rest
    return { block with instrs } :: later

end Draws

/-- A spilled parameter arrives in its slot. -/
def placeParams (slots : IndexMap Slot) (f : Func) : Func :=
  { f with
    stackParams := f.stackParams.insertAll
      (f.params.filterMap fun p => (slots.get? p).map fun slot => (p, slot)) }

end Spill

namespace Func

/-- The function with the given temps spilled, each into a slot of its own, and their slots. -/
def spillM {ε : Type} {m : Type → Type} [Pass ε m] (f : Func) (temps : List Temp) :
    Except ε (IndexMap Slot × Func) :=
  (Spill.slotsM (m := StateT Func (Except ε)) allocSlotM temps f).bind fun (entries, g) =>
    let slots := IndexMap.ofList entries
    if slots.isEmpty then .ok (slots, g)
    else
      let h := Spill.placeParams slots g
      (Spill.blocksCodeM (m := StateT Func (Except ε)) freshSpillTempM slots h.blocks h).map
        fun (blocks, last) => (slots, { last with blocks })

def spill (f : Func) (temps : List Temp) : Except Failure (IndexMap Slot × Func) := f.spillM temps

end Func

end RegisterColoring
