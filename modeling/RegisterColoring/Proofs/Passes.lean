import RegisterColoring.Proofs.Elimination
import RegisterColoring.Proofs.Pruning
import RegisterColoring.Proofs.Resolved
import RegisterColoring.Proofs.Spills

namespace RegisterColoring.Func

/-- The function was written and resolved, and then changed by passes. -/
inductive Derived : Func → Prop
  | source {src : Source.Func} {automatic : Bool} {f : Func} :
      Func.ofSource src automatic = .ok f → Derived f
  | prune {f g : Func} {n : Nat} : Derived f → f.pruneUnreachable = .ok (n, g) → Derived g
  -- The function that is left counts also if the elimination fails.
  | eliminate {f g : Func} {bound : Nat} {outcome : Except Failure DeadCode} :
      Derived f → DeadCode.eliminate bound f = (g, outcome) → Derived g
  | spill {f g : Func} {temps : List Temp} {slots : IndexMap Slot} :
      Derived f → f.spill temps = .ok (slots, g) → Derived g
  | freshTemp {f g : Func} {t : Temp} : Derived f → f.freshTemp = .ok (t, g) → Derived g
  | freshSpillTemp {f g : Func} {t : Temp} : Derived f → f.freshSpillTemp = .ok (t, g) → Derived g
  | allocSlot {f g : Func} {s : Slot} : Derived f → f.allocSlot = .ok (s, g) → Derived g

/-- Well-formed functions stay so with more temps and slots in stock. -/
theorem WellFormed.grow {f g : Func} (wf : f.WellFormed) (blocks : g.blocks = f.blocks)
    (params : g.params = f.params) (pinned : g.pinned = f.pinned) (temps : f.nextTemp ≤ g.nextTemp)
    (slots : f.numSlots ≤ g.numSlots) (spillTemps : ∀ t ∈ g.spillTemps, t < g.nextTemp) :
    g.WellFormed := by
  have instrs : g.instrs = f.instrs := by rw [Func.instrs, blocks, Func.instrs]
  have names : g.allTemps = f.allTemps := by rw [allTemps, allTemps, params, pinned, instrs]
  refine ⟨?_, ?_, ?_, fun t member => ?_, spillTemps, fun i member s named => ?_⟩
  · rw [blocks]
    exact wf.nonempty
  · rw [blocks]
    exact wf.linked
  · rw [blocks]
    exact wf.terminators
  · rw [names] at member
    exact Nat.lt_of_lt_of_le (wf.temps t member) temps
  · rw [instrs] at member
    exact Nat.lt_of_lt_of_le (wf.slots i member s named) slots

theorem freshTemp_ok {f g : Func} {t : Temp} (run : f.freshTemp = .ok (t, g)) :
    t = f.nextTemp ∧ g = { f with nextTemp := f.nextTemp + 1 } := by
  unfold freshTemp freshTempM at run
  split at run
  · cases run
    exact ⟨rfl, rfl⟩
  · exact nomatch run

theorem freshSpillTemp_ok {f g : Func} {t : Temp} (run : f.freshSpillTemp = .ok (t, g)) :
    g = { f with nextTemp := f.nextTemp + 1, spillTemps := f.spillTemps.insert f.nextTemp } := by
  obtain ⟨⟨u, h⟩, fresh, same⟩ := bind_eq_ok.mp run
  obtain ⟨rfl, rfl⟩ := freshTemp_ok fresh
  cases same
  rfl

theorem allocSlot_ok {f g : Func} {s : Slot} (run : f.allocSlot = .ok (s, g)) :
    g = { f with numSlots := f.numSlots + 1 } := by
  unfold allocSlot allocSlotM at run
  split at run
  · cases run
    rfl
  · exact nomatch run

/-- Every pass leaves a well-formed function. -/
theorem Derived.wellFormed {f : Func} (derived : f.Derived) : f.WellFormed := by
  induction derived with
  | source resolved => exact Func.ofSource_wellFormed resolved
  | prune _ run wf =>
    obtain ⟨n, h, r, pruned, prunes⟩ := pruneUnreachable_prunes wf
    cases pruned.symm.trans run
    exact prunes.wellFormed wf
  | eliminate _ run wf =>
    have trims := (DeadCode.eliminateFrom_trims wf run).1
    exact trims.wellFormed wf
  | spill _ run wf => exact (spill_ok run).wellFormed wf
  | @freshTemp f g t _ run wf =>
    obtain ⟨_, rfl⟩ := freshTemp_ok run
    have more := Nat.le_succ f.nextTemp
    exact wf.grow rfl rfl rfl more (Nat.le_refl _) fun u member =>
      Nat.lt_of_lt_of_le (wf.spillTemps u member) more
  | @freshSpillTemp f g t _ run wf =>
    have same := freshSpillTemp_ok run
    subst same
    have more := Nat.le_succ f.nextTemp
    refine wf.grow rfl rfl rfl more (Nat.le_refl _) fun u member => ?_
    rcases IndexSet.mem_insert.mp member with new | old
    · rw [new]
      exact Nat.lt_succ_self _
    · exact Nat.lt_of_lt_of_le (wf.spillTemps u old) more
  | @allocSlot f g s _ run wf =>
    have same := allocSlot_ok run
    subst same
    exact wf.grow rfl rfl rfl (Nat.le_refl _) (Nat.le_succ _) wf.spillTemps

end RegisterColoring.Func
