import RegisterColoring.Proofs.Execution
import RegisterColoring.Proofs.Pruning

namespace RegisterColoring

variable {Val Mem : Type}

namespace Func

/-- The two executions are at corresponding points, with the same temps and memory and with the same
values in the slots that `f` names. -/
structure Corresponds (f : Func) (r : BlockId → BlockId) (c e : Config Temp Val Mem) : Prop where
  reach : c.block ∈ f.reachable
  here : f.At c.block c.rest
  block : e.block = r c.block
  rest : e.rest = c.rest.map (Instr.mapTargets r)
  cells : e.cells = c.cells
  slots : ∀ s : Nat, s < f.numSlots → e.slots s = c.slots s
  mem : e.mem = c.mem

namespace Prunes

variable {f g : Func} {r : BlockId → BlockId} {m : Machine Val Mem} {c e : Config Temp Val Mem}

theorem enter (prunes : Prunes f g r) {b : BlockId} {block : Block} (reach : b ∈ f.reachable)
    (found : f.blocks[b]? = some block) (cells : e.cells = c.cells)
    (slots : ∀ s : Nat, s < f.numSlots → e.slots s = c.slots s) (mem : e.mem = c.mem)
    (events : List (Observation Val)) :
    ∃ c' e', f.program.enter b events c = .go events c' ∧
      g.program.enter (r b) events e = .go events e' ∧ f.Corresponds r c' e' := by
  obtain ⟨image, place, instrs⟩ := prunes.blocks b reach block found
  exact ⟨_, _, Program.enter_some (program_code found) events c,
    Program.enter_some (program_code place) events e,
    ⟨reach, .start found, rfl, instrs, cells, slots, mem⟩⟩

/-- At the end of a block both executions pass to the block below or end. -/
theorem fall (prunes : Prunes f g r) (wf : f.WellFormed) (same : f.Corresponds r c e)
    (done : c.rest = []) :
    (∃ outcome, f.program.step m c = .halt outcome ∧ g.program.step m e = .halt outcome) ∨
      ∃ c' e', f.program.step m c = .go [] c' ∧ g.program.step m e = .go [] e' ∧
        f.Corresponds r c' e' := by
  have ended : e.rest = [] := by rw [same.rest, done]; rfl
  have here := same.here
  rw [done] at here
  rw [Program.step_nil done, Program.step_nil ended, same.block]
  cases found : f.blocks[c.block + 1]? with
  | none =>
    have bound := reachable_lt wf.edgesInside same.reach
    have outside := List.getElem?_eq_none_iff.mp found
    have last := prunes.last c.block same.reach (Nat.le_antisymm bound outside)
    have missing : g.blocks[r c.block + 1]? = none :=
      List.getElem?_eq_none (Nat.le_of_eq last.symm)
    refine Or.inl ⟨.finished c.mem, Program.enter_none (program_code_none found) _ _, ?_⟩
    rw [Program.enter_none (program_code_none missing), same.mem]
  | some block =>
    have edge : c.block + 1 ∈ f.succs c.block := by
      rw [here.falls wf, if_pos (List.getElem?_eq_some_iff.mp found).1]
      exact List.mem_singleton_self _
    have below := succ_mem_reachable wf.edgesInside same.reach edge
    rw [← prunes.next c.block same.reach below]
    exact Or.inr (prunes.enter below found same.cells same.slots same.mem [])

/-- The instruction does the same on both sides, up to the numbers of blocks. -/
theorem actionAt_eq (wf : f.WellFormed) (same : f.Corresponds r c e) {i : Instr}
    {rest : List Instr} (here : c.rest = i :: rest) (g : Func) :
    g.program.actionAt m e (i.mapTargets r) =
      { f.program.actionAt m c i with control := (f.program.actionAt m c i).control.map r } := by
  have point := same.here
  rw [here] at point
  have bare : i.action m (fun t => e.cells (g.program.place t)) e.slots e.mem =
      f.program.actionAt m c i := by
    rw [same.mem, same.cells]
    exact Instr.action_congr m (fun _ _ => rfl) fun s named =>
      same.slots s (wf.slots i point.mem_instrs s named)
  unfold Program.actionAt
  rw [Instr.action_mapTargets, bare]

/-- What the instruction leaves behind is the same on both sides. -/
theorem after_eq (wf : f.WellFormed) (same : f.Corresponds r c e) {i : Instr} {rest : List Instr}
    (here : c.rest = i :: rest) (g : Func) (later : List Instr) :
    (g.program.after m e (i.mapTargets r) later).cells = (f.program.after m c i rest).cells ∧
      (∀ s : Nat, s < f.numSlots → (g.program.after m e (i.mapTargets r) later).slots s =
        (f.program.after m c i rest).slots s) ∧
      (g.program.after m e (i.mapTargets r) later).mem = (f.program.after m c i rest).mem := by
  unfold Program.after
  rw [actionAt_eq wf same here g, Instr.dest?_mapTargets, same.cells]
  exact ⟨rfl, fun s below => Action.writeSlots_congr (same.slots s below), rfl⟩

/-- An instruction of a block. -/
theorem execute (prunes : Prunes f g r) (wf : f.WellFormed) (same : f.Corresponds r c e) {i : Instr}
    {rest : List Instr} (here : c.rest = i :: rest) :
    (∃ outcome, f.program.step m c = .halt outcome ∧ g.program.step m e = .halt outcome) ∨
      ∃ es c' e', f.program.step m c = .go es c' ∧ g.program.step m e = .go es e' ∧
        f.Corresponds r c' e' := by
  have there : e.rest = i.mapTargets r :: rest.map (Instr.mapTargets r) := by
    rw [same.rest, here, List.map_cons]
  have point := same.here
  rw [here] at point
  have action := actionAt_eq (m := m) wf same here g
  obtain ⟨cells, slots, mem⟩ :=
    after_eq (m := m) wf same here g (rest.map (Instr.mapTargets r))
  cases control : (f.program.actionAt m c i).control with
  | stop outcome =>
    refine Or.inl ⟨outcome, Program.step_stop here rfl control, Program.step_stop there rfl ?_⟩
    rw [action, control]
    rfl
  | next =>
    refine Or.inr ⟨_, _, g.program.after m e (i.mapTargets r) (rest.map (Instr.mapTargets r)),
      Program.step_next here rfl control, ?_, ⟨same.reach,
        point.next (Instr.not_terminator_of_next m control), same.block, rfl, cells, slots, mem⟩⟩
    rw [Program.step_next there rfl (by rw [action, control]; rfl), action]
  | jump b =>
    have edge : b ∈ f.succs c.block := by
      rw [(point.leaves wf (Instr.terminator_of_jump m control)).2]
      exact Instr.mem_targets_of_jump m control
    obtain ⟨c', e', left, right, next⟩ := prunes.enter
      (succ_mem_reachable wf.edgesInside same.reach edge)
      (List.getElem?_eq_getElem (wf.edgesInside c.block b edge)) cells slots mem
      (f.program.actionAt m c i).shown
    refine Or.inr ⟨_, c', e', (Program.step_jump here rfl control).trans left, ?_, next⟩
    rw [Program.step_jump (b := r b) there rfl (by rw [action, control]; rfl), action]
    exact right

theorem simulation (prunes : Prunes f g r) (wf : f.WellFormed) (m : Machine Val Mem) :
    Simulation (f.program.step m) (g.program.step m) (f.Corresponds r) fun _ => 0 := by
  refine .of_moves fun {c e} same => ?_
  have moves : (∃ outcome, f.program.step m c = .halt outcome ∧ g.program.step m e = .halt outcome) ∨
      ∃ es c' e', f.program.step m c = .go es c' ∧ g.program.step m e = .go es e' ∧
        f.Corresponds r c' e' := by
    cases here : c.rest with
    | nil =>
      rcases prunes.fall (m := m) wf same here with halts | goes
      · exact Or.inl halts
      · exact Or.inr ⟨[], goes⟩
    | cons i rest => exact prunes.execute wf same here
  rcases moves with ⟨outcome, left, right⟩ | ⟨es, c', e', left, right, later⟩
  · exact Or.inl ⟨outcome, 0, e, left, .refl e, right⟩
  · exact Or.inr (Or.inl ⟨es, c', 0, e', left, .one right, later⟩)

theorem sameBehavior (prunes : Prunes f g r) (wf : f.WellFormed) (m : Machine Val Mem)
    (cells : Temp → Val) {slots others : Slot → Val}
    (agree : ∀ s : Nat, s < f.numSlots → others s = slots s) (mem : Mem) :
    SameBehavior (f.program.step m) (f.program.start cells slots mem)
      (g.program.step m) (g.program.start cells others mem) := by
  obtain ⟨block, found⟩ := wf.entry_block
  obtain ⟨image, place, instrs⟩ :=
    prunes.blocks Func.entry (entry_mem_reachable wf.nonempty) _ found
  rw [prunes.entry] at place
  refine (prunes.simulation wf m).sameBehavior ?_
  unfold Program.start
  rw [program_code found, program_code place]
  exact ⟨entry_mem_reachable wf.nonempty, .start found, prunes.entry.symm, instrs, rfl, agree, rfl⟩

end Prunes

end Func

end RegisterColoring
