import RegisterColoring.Allocation
import RegisterColoring.Proofs.Elimination
import RegisterColoring.Proofs.Selection
import RegisterColoring.Proofs.Spills

namespace RegisterColoring

namespace Func.TrimsStar

variable {f g : Func}

theorem fields (trims : f.TrimsStar g) : g = { f with blocks := g.blocks } := by
  induction trims with
  | refl => rfl
  | @tail h g _ step ih =>
    have last := step.fields
    rw [ih] at last
    exact last

theorem length (trims : f.TrimsStar g) : g.blocks.length = f.blocks.length := by
  induction trims with
  | refl => rfl
  | tail _ step ih => exact step.length.trans ih

theorem reachable_eq (trims : f.TrimsStar g) : g.reachable = f.reachable := by
  induction trims with
  | refl => rfl
  | tail _ step ih => exact step.reachable_eq.trans ih

theorem instrs_subset (trims : f.TrimsStar g) {i : Instr} (member : i ∈ g.instrs) :
    i ∈ f.instrs := by
  induction trims with
  | refl => exact member
  | tail _ step ih => exact ih (step.instrs_subset member)

theorem allTemps_subset (trims : f.TrimsStar g) {t : Temp} (member : t ∈ g.allTemps) :
    t ∈ f.allTemps := by
  induction trims with
  | refl => exact member
  | tail _ step ih => exact ih (step.allTemps_subset member)

end Func.TrimsStar

/-- What elimination and liveness analysis make of a function. -/
structure Func.Prepares (f : Func) (s : Settings) (g : Func) (l : Liveness) : Prop where
  trims : f.TrimsStar g
  liveness : Liveness.analyze s.maxIterations g = .ok l
  lively : s.deadCode = true → g.Lively l
  kept : s.deadCode = false → g = f

theorem Func.runDeadCode_ok {f g : Func} {s : Settings} {l : Liveness} {gone : List Eliminated}
    (wf : f.WellFormed) (run : f.runDeadCode s = (g, .ok (l, gone))) : f.Prepares s g l := by
  cases valid : s.validate with
  | error e =>
    rw [runDeadCode_of_error valid] at run
    cases run
  | ok =>
    rw [runDeadCode_of_ok valid] at run
    split at run
    · rename_i on
      cases ended : DeadCode.eliminate s.maxIterations f with
      | mk h outcome =>
        simp only [ended, Prod.mk.injEq] at run
        obtain ⟨rfl, found⟩ := run
        obtain ⟨d, result, same⟩ := map_eq_ok.mp found
        cases same
        obtain ⟨trims, settled, _⟩ := DeadCode.eliminateFrom_trims wf ended
        obtain ⟨analysis, lively⟩ := settled d result
        exact ⟨trims, analysis, fun _ => lively, fun off => by rw [on] at off; exact nomatch off⟩
    · rename_i off
      simp only [Prod.mk.injEq] at run
      obtain ⟨rfl, found⟩ := run
      obtain ⟨l, analysis, same⟩ := map_eq_ok.mp found
      cases same
      exact ⟨.refl, analysis, fun on => absurd on off, fun _ => rfl⟩

theorem Func.runDeadCode_error {f g : Func} {s : Settings} {e : Failure} (wf : f.WellFormed)
    (run : f.runDeadCode s = (g, .error e)) :
    s.validate = .error e ∨ e = .internal f.name (.livenessUnsettled s.maxIterations) none ∨
      e = .internal f.name (.deadCodeUnsettled s.maxIterations) none := by
  cases valid : s.validate with
  | error e =>
    rw [runDeadCode_of_error valid] at run
    cases run
    exact Or.inl rfl
  | ok =>
    right
    rw [runDeadCode_of_ok valid] at run
    split at run
    · cases ended : DeadCode.eliminate s.maxIterations f with
      | mk h outcome =>
        simp only [ended, Prod.mk.injEq] at run
        obtain ⟨rfl, found⟩ := run
        obtain ⟨trims, _, failed⟩ := DeadCode.eliminateFrom_trims wf ended
        have reasons := failed e (map_eq_error.mp found)
        rw [trims.fields] at reasons
        exact reasons
    · simp only [Prod.mk.injEq] at run
      exact Or.inl (Liveness.analyze_error (map_eq_error.mp run.2))

/-- The cost that coloring sees. -/
def Func.costOf (f : Func) (t : Temp) : Cost := f.spillCosts.getD t (.finite 0)

/-- What a round found out before it spilled. -/
structure Func.Attempts (f : Func) (s : Settings) (a : Attempt) : Prop where
  prepares : f.Prepares s a.func a.liveness
  built : Interference.build a.func a.liveness = .ok a.graph
  graph : a.graph.Represents a.func a.liveness
  pinsBelow : ∀ t c, a.graph.pinned.get? t = some c → c < s.colors
  pinsApart : ∀ t u c, a.graph.interferes t u = true → a.graph.pinned.get? t = some c →
    a.graph.pinned.get? u ≠ some c
  selected : Coloring.Selected a.graph s.colors a.func a.graph.unplaced a.coloring

theorem Func.attempt_ok {f : Func} {s : Settings} {a : Attempt} (wf : f.WellFormed)
    (run : f.attempt s = .ok a) : f.Attempts s a := by
  rw [attempt_def] at run
  cases ended : f.runDeadCode s with
  | mk g outcome =>
    simp only [ended] at run
    obtain ⟨⟨l, gone⟩, result, run⟩ := bind_eq_ok.mp run
    subst result
    have prepares := Func.runDeadCode_ok wf ended
    obtain ⟨graph, built, represents⟩ :=
      Interference.build_represents (prepares.trims.wellFormed wf) prepares.liveness
    simp only [built, Except.bind] at run
    obtain ⟨⟨⟩, pins, run⟩ := bind_eq_ok.mp run
    obtain ⟨c, colored, same⟩ := map_eq_ok.mp run
    cases same
    obtain ⟨below, apart⟩ := Interference.checkPins_ok represents.valid pins
    rcases Interference.color_cases represents.valid
      (fun t => g.spillCosts.getD t (.finite 0)) s.colors g with
      ⟨other, found, selected⟩ | ⟨_, _, _, _, _, _, failed⟩
    · cases colored.symm.trans found
      exact ⟨prepares, built, represents, below, apart, selected⟩
    · cases colored.symm.trans failed

/-- The ways in which a round can fail before it spills. -/
theorem Func.attempt_error {f : Func} {s : Settings} {e : Failure} (wf : f.WellFormed)
    (run : f.attempt s = .error e) :
    s.validate = .error e ∨
      e = .internal f.name (.livenessUnsettled s.maxIterations) none ∨
      e = .internal f.name (.deadCodeUnsettled s.maxIterations) none ∨
      ((∃ t c, f.pinned.get? t = some c) ∧
        ((∃ t c, e = .config (.pinBeyondColors t f.name c s.colors)) ∨
          ∃ t u c state, e = .internal f.name (.sharedColor t u c) state)) ∨
      ∃ g l graph t w events, (∃ gone, f.runDeadCode s = (g, .ok (l, gone))) ∧
        graph.Represents g l ∧ Coloring.Pushes graph g.costOf s.colors graph.unplaced events ∧
        .candidate t w ∈ events ∧ t ∈ g.spillTemps ∧
        e = .internal f.name (.crowded t s.colors) (some (graph.dump f.name).pretty) := by
  rw [attempt_def] at run
  cases ended : f.runDeadCode s with
  | mk g outcome =>
    simp only [ended] at run
    rcases bind_eq_error.mp run with failed | ⟨⟨l, gone⟩, result, run⟩
    · subst failed
      rcases Func.runDeadCode_error wf ended with invalid | liveness | deadCode
      · exact Or.inl invalid
      · exact Or.inr (Or.inl liveness)
      · exact Or.inr (Or.inr (Or.inl deadCode))
    · subst result
      refine Or.inr (Or.inr (Or.inr ?_))
      have prepares := Func.runDeadCode_ok wf ended
      have name : g.name = f.name := by rw [prepares.trims.fields]
      have pinned : g.pinned = f.pinned := by rw [prepares.trims.fields]
      obtain ⟨graph, built, represents⟩ :=
        Interference.build_represents (prepares.trims.wellFormed wf) prepares.liveness
      simp only [built, Except.bind, name] at run
      rcases bind_eq_error.mp run with failed | ⟨⟨⟩, _, run⟩
      · obtain ⟨some, reasons⟩ := Interference.checkPins_error failed
        rw [represents.pinned, pinned] at some
        refine Or.inl ⟨some, reasons.imp_right ?_⟩
        rintro ⟨t, u, c, same⟩
        exact ⟨t, u, c, _, same⟩
      · have failed := map_eq_error.mp run
        rcases Interference.color_cases represents.valid g.costOf s.colors g with
          ⟨c, found, _⟩ | ⟨t, w, events, pushes, member, spill, crowded⟩
        · cases failed.symm.trans found
        · rw [name] at crowded
          refine Or.inr ⟨g, l, graph, t, w, events, ⟨gone, rfl⟩, represents, pushes, member, spill,
            ?_⟩
          exact Except.error.inj (failed.symm.trans crowded)

end RegisterColoring
