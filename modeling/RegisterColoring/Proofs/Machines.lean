import Mathlib.Logic.Function.Basic
import RegisterColoring.Proofs.Behavior
import RegisterColoring.Proofs.WellFormed

namespace RegisterColoring

/-- The meaning of what a function does not fix itself. -/
structure Machine (Val Mem : Type) where
  const : Int → Val
  unary : UnOp → Val → Val
  binary : BinOp → Val → Val → Val
  /-- Where an operator that may trap does so. -/
  traps : BinOp → Val → Val → Bool
  isTrue : Val → Bool
  load : Mem → Val → Val
  store : Mem → Val → Val → Mem
  /-- The memory after a call, and its result. -/
  call : Mem → String → List Val → Mem × Val
  tempAddress : Temp → Val
  slotAddress : Slot → Val
  /-- The slots into which a store can be observed. -/
  shown : Slot → Bool

/-- What can be seen of an execution on its way. -/
inductive Observation (Val : Type)
  | store (address value : Val)
  | call (callee : String) (args : List Val)
  | spillStore (slot : Slot) (value : Val)

/-- How an execution ends, with the memory that it leaves. -/
inductive Ending (Val Mem : Type)
  | trapped (mem : Mem)
  | returned (value : Option Val) (mem : Mem)
  | finished (mem : Mem)

/-- Where control goes behind an instruction. -/
inductive Control (Val Mem : Type)
  | next
  | jump (target : BlockId)
  | stop (outcome : Ending Val Mem)

/-- The same with targets renumbered. -/
def Control.map {Val Mem : Type} (r : BlockId → BlockId) : Control Val Mem → Control Val Mem
  | jump target => jump (r target)
  | control => control

/-- What an instruction does. -/
structure Action (Val Mem : Type) where
  /-- The value for the temp that it writes. -/
  value : Option Val
  /-- The slot into which it stores, and what. -/
  slot : Option (Slot × Val)
  mem : Mem
  shown : List (Observation Val)
  control : Control Val Mem

variable {Val Mem : Type}

def Operand.value (m : Machine Val Mem) (read : Temp → Val) : Operand → Val
  | const n => m.const n
  | temp t => read t

/-- The test of a branch, unless it traps. -/
def Cond.value (m : Machine Val Mem) (read : Temp → Val) : Cond → Option Bool
  | test arg => some (m.isTrue (arg.value m read))
  | compare op left right =>
    if op.mayTrap && m.traps op (left.value m read) (right.value m read) then none
    else some (m.isTrue (m.binary op (left.value m read) (right.value m read)))

namespace Action

/-- Go on with a value for the destination. -/
def result (value : Val) (mem : Mem) : Action Val Mem := ⟨some value, none, mem, [], .next⟩

/-- Leave the block. -/
def leave (control : Control Val Mem) (mem : Mem) : Action Val Mem := ⟨none, none, mem, [], control⟩

end Action

/-- What an instruction does with temps that read as `read`, and with the given slots and memory. -/
def Instr.action (m : Machine Val Mem) (read : Temp → Val) (slots : Slot → Val) (mem : Mem) :
    Instr → Action Val Mem
  | binary op _ left right =>
    if op.mayTrap && m.traps op (left.value m read) (right.value m read) then
      .leave (.stop (.trapped mem)) mem
    else .result (m.binary op (left.value m read) (right.value m read)) mem
  | unary op _ arg => .result (m.unary op (arg.value m read)) mem
  | move _ arg => .result (arg.value m read) mem
  | load _ addr => .result (m.load mem (read addr)) mem
  | store addr value =>
    ⟨none, none, m.store mem (read addr) (value.value m read),
      [.store (read addr) (value.value m read)], .next⟩
  | addrOf _ var => .result (m.tempAddress var) mem
  | slotAddr _ slot => .result (m.slotAddress slot) mem
  | call _ callee args =>
    let values := args.map (·.value m read)
    ⟨some (m.call mem callee values).2, none, (m.call mem callee values).1, [.call callee values],
      .next⟩
  | spillLoad _ slot => .result (slots slot) mem
  | spillStore slot value =>
    ⟨none, some (slot, read value), mem,
      if m.shown slot then [.spillStore slot (read value)] else [], .next⟩
  | jump target => .leave (.jump target) mem
  | branch cond yes no =>
    match cond.value m read with
    | none => .leave (.stop (.trapped mem)) mem
    | some holds => .leave (.jump (if holds then yes else no)) mem
  | ret value => .leave (.stop (.returned (value.map (·.value m read)) mem)) mem

/-- A program over cells of type `κ`. -/
structure Program (κ : Type) where
  code : BlockId → Option (List Instr)
  /-- The cell of a temp. -/
  place : Temp → κ
  /-- The instructions that are left out. -/
  dropped : Instr → Bool

/-- The state of an execution. -/
structure Config (κ Val Mem : Type) where
  block : BlockId
  /-- What is still to come of the block. -/
  rest : List Instr
  cells : κ → Val
  slots : Slot → Val
  mem : Mem

namespace Action

variable {κ : Type} [DecidableEq κ]

/-- The cells after the action has written to `dest?`. -/
def writeCells (a : Action Val Mem) (dest? : Option κ) (cells : κ → Val) : κ → Val :=
  match dest?, a.value with
  | some k, some v => Function.update cells k v
  | _, _ => cells

/-- The slots after the action. -/
def writeSlots (a : Action Val Mem) (slots : Slot → Val) : Slot → Val :=
  match a.slot with
  | some (s, v) => Function.update slots s v
  | none => slots

theorem writeCells_congr {a : Action Val Mem} {dest? : Option κ} {cells others : κ → Val} {k : κ}
    (same : others k = cells k) : a.writeCells dest? others k = a.writeCells dest? cells k := by
  unfold writeCells
  cases dest? with
  | none => exact same
  | some d =>
    cases a.value with
    | none => exact same
    | some v =>
      by_cases here : k = d
      · simp only [here, Function.update_self]
      · simp only [Function.update_of_ne here, same]

theorem writeCells_of_ne {a : Action Val Mem} {dest? : Option κ} {k : κ} (other : dest? ≠ some k)
    (cells : κ → Val) : a.writeCells dest? cells k = cells k := by
  unfold writeCells
  cases dest? with
  | none => rfl
  | some d =>
    cases a.value with
    | none => rfl
    | some v => exact Function.update_of_ne (fun same => other (by rw [same])) _ _

theorem writeCells_self {a : Action Val Mem} {v : Val} (value : a.value = some v) (k : κ)
    (cells : κ → Val) : a.writeCells (some k) cells k = v := by
  simp only [writeCells, value, Function.update_self]

theorem writeSlots_congr {a : Action Val Mem} {slots others : Slot → Val} {s : Slot}
    (same : others s = slots s) : a.writeSlots others s = a.writeSlots slots s := by
  unfold writeSlots
  cases a.slot with
  | none => exact same
  | some stored =>
    by_cases here : s = stored.1
    · simp only [here, Function.update_self]
    · simp only [Function.update_of_ne here, same]

theorem writeSlots_of_ne {a : Action Val Mem} {s : Slot} (other : ∀ v, a.slot ≠ some (s, v))
    (slots : Slot → Val) : a.writeSlots slots s = slots s := by
  unfold writeSlots
  cases stores : a.slot with
  | none => rfl
  | some stored =>
    refine Function.update_of_ne (fun same => other stored.2 ?_) _ _
    rw [same, stores]

end Action

namespace Program

variable {κ : Type}

/-- Pass to the start of a block, or end if there is none. -/
def enter (p : Program κ) (b : BlockId) (events : List (Observation Val)) (c : Config κ Val Mem) :
    Move (Config κ Val Mem) (Observation Val) (Ending Val Mem) :=
  match p.code b with
  | some instrs => .go events { c with block := b, rest := instrs }
  | none => .halt (.finished c.mem)

/-- The state in which an execution starts. -/
def start (p : Program κ) (cells : κ → Val) (slots : Slot → Val) (mem : Mem) : Config κ Val Mem :=
  ⟨Func.entry, (p.code Func.entry).getD [], cells, slots, mem⟩

theorem enter_some {p : Program κ} {b : BlockId} {instrs : List Instr}
    (code : p.code b = some instrs) (events : List (Observation Val)) (c : Config κ Val Mem) :
    p.enter b events c = .go events { c with block := b, rest := instrs } := by
  simp only [enter, code]

theorem enter_none {p : Program κ} {b : BlockId} (missing : p.code b = none)
    (events : List (Observation Val)) (c : Config κ Val Mem) :
    p.enter b events c = .halt (.finished c.mem) := by
  simp only [enter, missing]

/-- One move of an execution. -/
def step [DecidableEq κ] (p : Program κ) (m : Machine Val Mem) (c : Config κ Val Mem) :
    Move (Config κ Val Mem) (Observation Val) (Ending Val Mem) :=
  match c.rest with
  | [] => p.enter (c.block + 1) [] c
  | i :: rest =>
    if p.dropped i then .go [] { c with rest }
    else
      let a := i.action m (fun t => c.cells (p.place t)) c.slots c.mem
      let after : Config κ Val Mem :=
        ⟨c.block, rest, a.writeCells (i.dest?.map p.place) c.cells, a.writeSlots c.slots, a.mem⟩
      match a.control with
      | .next => .go a.shown after
      | .jump b => p.enter b a.shown after
      | .stop outcome => .halt outcome

end Program

/-- A function with a cell for each temp. -/
def Func.program (f : Func) : Program Temp where
  code b := (f.blocks[b]?).map (·.instrs)
  place := id
  dropped _ := false

namespace Func

@[simp] theorem program_place (f : Func) : f.program.place = id := rfl

theorem program_code {f : Func} {b : BlockId} {block : Block} (found : f.blocks[b]? = some block) :
    f.program.code b = some block.instrs := by
  simp only [program, found, Option.map_some]

theorem program_code_none {f : Func} {b : BlockId} (missing : f.blocks[b]? = none) :
    f.program.code b = none := by
  simp only [program, missing, Option.map_none]

end Func

end RegisterColoring
