import RegisterColoring.Proofs.Actions

namespace RegisterColoring

variable {Val Mem : Type}

namespace Program

variable {κ : Type} [DecidableEq κ] (p : Program κ) (m : Machine Val Mem)

/-- The action of an instruction in a state. -/
abbrev actionAt (c : Config κ Val Mem) (i : Instr) : Action Val Mem :=
  i.action m (fun t => c.cells (p.place t)) c.slots c.mem

/-- The state behind an instruction that has been executed. -/
def after (c : Config κ Val Mem) (i : Instr) (rest : List Instr) : Config κ Val Mem :=
  ⟨c.block, rest, (p.actionAt m c i).writeCells (i.dest?.map p.place) c.cells,
    (p.actionAt m c i).writeSlots c.slots, (p.actionAt m c i).mem⟩

variable {p m} {c : Config κ Val Mem} {i : Instr} {rest : List Instr}

theorem after_cells_of_terminator (terminator : i.isTerminator = true) :
    (p.after m c i rest).cells = c.cells := by
  simp only [after, Instr.dest?_of_terminator terminator, Option.map_none]
  rfl

theorem step_nil (done : c.rest = []) : p.step m c = p.enter (c.block + 1) [] c := by
  unfold step
  rw [done]

theorem step_dropped (here : c.rest = i :: rest) (left : p.dropped i = true) :
    p.step m c = .go [] { c with rest } := by
  unfold step
  simp only [here, left, if_true]

theorem step_next (here : c.rest = i :: rest) (kept : p.dropped i = false)
    (goes : (p.actionAt m c i).control = .next) :
    p.step m c = .go (p.actionAt m c i).shown (p.after m c i rest) := by
  unfold step
  simp only [here, kept, Bool.false_eq_true, if_false, goes]
  rfl

/-- An instruction that only gives a value to a temp. -/
theorem step_result (here : c.rest = i :: rest) (kept : p.dropped i = false) {d : Temp} {v : Val}
    (writes : i.dest? = some d) (result : p.actionAt m c i = .result v c.mem) :
    p.step m c = .go [] { c with rest, cells := Function.update c.cells (p.place d) v } := by
  rw [step_next here kept (by rw [result]; rfl), after, result, writes]
  rfl

theorem step_jump (here : c.rest = i :: rest) (kept : p.dropped i = false) {b : BlockId}
    (jumps : (p.actionAt m c i).control = .jump b) :
    p.step m c = p.enter b (p.actionAt m c i).shown (p.after m c i rest) := by
  unfold step
  simp only [here, kept, Bool.false_eq_true, if_false, jumps]
  rfl

theorem step_stop (here : c.rest = i :: rest) (kept : p.dropped i = false)
    {outcome : Ending Val Mem} (stops : (p.actionAt m c i).control = .stop outcome) :
    p.step m c = .halt outcome := by
  unfold step
  simp only [here, kept, Bool.false_eq_true, if_false, stops]

end Program

namespace Func

variable {f : Func} {m : Machine Val Mem} {c : Config Temp Val Mem} {i : Instr} {rest : List Instr}
  {a : Action Val Mem}

theorem program_after (acts : i.action m c.cells c.slots c.mem = a) :
    f.program.after m c i rest =
      ⟨c.block, rest, a.writeCells i.dest? c.cells, a.writeSlots c.slots, a.mem⟩ := by
  subst acts
  rw [Program.after, program_place, Option.map_id_fun, id_eq]
  rfl

theorem step_next (here : c.rest = i :: rest) (acts : i.action m c.cells c.slots c.mem = a)
    (goes : a.control = .next) : f.program.step m c =
      .go a.shown ⟨c.block, rest, a.writeCells i.dest? c.cells, a.writeSlots c.slots, a.mem⟩ := by
  rw [← program_after (f := f) acts]
  subst acts
  exact Program.step_next here rfl goes

theorem step_jump (here : c.rest = i :: rest) (acts : i.action m c.cells c.slots c.mem = a)
    {b : BlockId} (jumps : a.control = .jump b) : f.program.step m c = f.program.enter b
      a.shown ⟨c.block, rest, a.writeCells i.dest? c.cells, a.writeSlots c.slots, a.mem⟩ := by
  rw [← program_after (f := f) acts]
  subst acts
  exact Program.step_jump here rfl jumps

end Func

/-- Integers that are added, a memory that holds nothing, and no slot that can be observed. -/
def adder : Machine Int Unit where
  const := id
  unary _ x := x
  binary _ x y := x + y
  traps _ _ y := y = 0
  isTrue x := x ≠ 0
  load _ x := x
  store mem _ _ := mem
  call mem _ _ := (mem, 0)
  tempAddress t := t
  slotAddress s := s
  shown _ := false

end RegisterColoring
