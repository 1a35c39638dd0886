import RegisterColoring.Proofs.ClusterPressure

namespace RegisterColoring

/-- At some point of code that can be reached `t` is live among more than `colors` temps. -/
def Func.Crowded (f : Func) (l : Liveness) (t : Temp) (colors : Nat) : Prop :=
  ∃ b, Path f.succs entry b ∧ ∃ k i, f.instrAt b k = some i ∧
    t ∈ l.liveAfter b k ∧ colors < (l.liveAfter b k).size

theorem Settings.colors_pos {s : Settings} (valid : s.validate = .ok ()) : 1 ≤ s.colors := by
  unfold validate at valid
  split at valid
  · exact nomatch valid
  · rename_i enough
    exact Nat.not_lt.mp enough

theorem Func.valid_of_runDeadCode {f g : Func} {s : Settings} {found : Liveness × List Eliminated}
    (run : f.runDeadCode s = (g, .ok found)) : s.validate = .ok () := by
  cases valid : s.validate with
  | error e =>
    rw [runDeadCode_of_error valid] at run
    cases run
  | ok => rfl

/-- A temp that is pushed as a candidate has at least as many neighbors as there are colors. -/
theorem Coloring.Pushes.neighbors_size {graph : Interference} {cost : Temp → Cost} {colors : Nat}
    {remaining : List Temp} {events : List Event} {w : Weight}
    (pushes : Pushes graph cost colors remaining events) (member : .candidate t w ∈ events) :
    colors ≤ (graph.neighbors t).size := by
  obtain ⟨rest, _, here, crowded, _⟩ := pushes.mem_candidate member
  refine Nat.le_trans (crowded t here) (IndexSet.size_le_size fun u near => ?_)
  exact (IndexSet.mem_filter.mp near).1

theorem Progress.attempt_crowded {s : Settings} {f₀ f : Func} {rounds : List Round}
    {slots : IndexMap Slot} {colors k : Nat} {name : String} {state : Option String}
    (progress : Progress f₀ rounds slots f) (roomy : f.Roomy colors) (served : f.Served)
    (clustered : f.Clustered)
    (failed : f.attempt s = .error (.internal name (.crowded t k) state)) :
    name = f.name ∧ k = s.colors ∧
      ∃ g l gone, f.runDeadCode s = (g, .ok (l, gone)) ∧ g.Crowded l t s.colors := by
  rcases Func.attempt_error progress.wellFormed failed with invalid | same | same |
    ⟨_, ⟨_, _, same⟩ | ⟨_, _, _, _, same⟩⟩ |
      ⟨g, l, graph, u, w, events, ⟨gone, ended⟩, represents, pushes, member, spill, same⟩
  · obtain ⟨_, same⟩ := Settings.validate_error invalid
    exact nomatch same
  · exact nomatch same
  · exact nomatch same
  · exact nomatch same
  · exact nomatch same
  · cases same
    refine ⟨rfl, rfl, g, l, gone, ended, ?_⟩
    have prepares := Func.runDeadCode_ok progress.wellFormed ended
    have trims := prepares.trims
    have wf := trims.wellFormed progress.wellFormed
    obtain ⟨left, read⟩ := prepares.roomy progress.wellFormed progress.reachable roomy served
    have notParam : t ∉ g.params := by
      intro param
      rw [show g.params = f₀.params by rw [trims.fields]; exact progress.params] at param
      rw [show g.spillTemps = f.spillTemps by rw [trims.fields]] at spill
      have small := progress.initial.temps t (Func.mem_allTemps.mpr (Or.inr (Or.inl param)))
      exact absurd (progress.fresh t spill) (Nat.not_le_of_lt small)
    have many := pushes.neighbors_size member
    have positive := Settings.colors_pos (Func.valid_of_runDeadCode ended)
    obtain ⟨v, near⟩ : ∃ v, v ∈ graph.neighbors t := by
      have nonempty : (graph.neighbors t).toList ≠ [] :=
        List.ne_nil_of_length_pos (Nat.lt_of_lt_of_le positive many)
      obtain ⟨v, rest, content⟩ := List.exists_cons_of_ne_nil nonempty
      refine ⟨v, IndexSet.mem_toList.mp ?_⟩
      rw [content]
      exact List.mem_cons_self
    have edges : ∀ {u}, u ∈ graph.neighbors t ↔ graph.interferes t u = true :=
      Interference.mem_neighbors represents.valid
    obtain ⟨b, pre, loads, core, post, cluster⟩ := trims.clustered clustered t spill
    obtain ⟨reach, n, i, here, live, all⟩ :=
      cluster.together left read wf prepares.liveness spill represents notParam (edges.mp near)
    refine ⟨b, Func.path_of_reachable wf.edgesInside reach, n, i, here, live, ?_⟩
    have self : t ∉ graph.neighbors t := fun loop =>
      ((represents.edges t t).mp (edges.mp loop)).1 rfl
    have more := IndexSet.size_lt_size (fun u near => all u (edges.mp near)) self live
    exact Nat.lt_of_le_of_lt many more

theorem Reached.clustered {s : Settings} {f₀ f : Func} {rounds : List Round} {slots : IndexMap Slot}
    (reached : Reached s f₀ rounds slots f) (first : Progress f₀ [] ∅ f₀)
    (clustered : f₀.Clustered) : f.Clustered := by
  induction reached with
  | start => exact clustered
  | @next rounds slots spilled f g a before attempt spill some ih =>
    have progress := before.progress first
    have attempts := Func.attempt_ok progress.wellFormed attempt
    have adds := progress.adds_of_spill attempts spill
    have widens := adds.spills.widens adds.wellFormed attempts.spares
    exact adds.spills.clustered adds.wellFormed (fun t old => (widens.kept t old).2)
      (adds.trims.clustered ih)

/-- Before the first round there are no temps of spill code. -/
theorem Progress.spillTemps_start {f₀ : Func} (first : Progress f₀ [] ∅ f₀) : f₀.spillTemps = ∅ := by
  refine IndexSet.ext fun t => ⟨fun spill => ?_, fun impossible => ?_⟩
  · exact absurd (first.fresh t spill) (Nat.not_le_of_lt (first.wellFormed.spillTemps t spill))
  · exact absurd impossible (IndexSet.not_mem_empty t)

/-- Allocation gives up only under pressure: in the function on which the failing round gives up,
with its dead code removed, the temp is live somewhere among more temps than there are colors. -/
theorem Func.allocate_crowded {src : Source.Func} {automatic : Bool} {f : Func} {s : Settings}
    {k : Nat} {name : String} {state : Option String} (source : Func.ofSource src automatic = .ok f)
    (failed : f.allocate s = .error (.internal name (.crowded t k) state)) :
    name = f.name ∧ k = s.colors ∧ ∃ n g rounds slots h r l gone,
      f.pruneUnreachable = .ok (n, g) ∧ Reached s g rounds slots h ∧
      h.attempt s = .error (.internal name (.crowded t k) state) ∧
      h.runDeadCode s = (r, .ok (l, gone)) ∧ r.Crowded l t s.colors := by
  have wf := Func.ofSource_wellFormed source
  obtain ⟨n, g, r, pruned, prunes, first⟩ := Func.rounds_start source
  have written := first.spillTemps_start
  -- No instruction reads more temps than the function has, so for that number operands always fit.
  have start : g.Roomy (f.allTemps.size + 1) ∧ g.Served := by
    refine prunes.roomy wf written fun b _ block found i inside => ?_
    refine Nat.le_succ_of_le (IndexSet.length_le_size i.uses_nodup fun t used => ?_)
    exact Func.mem_allTemps.mpr (Or.inr (Or.inr ⟨i, Func.mem_instrs.mpr ⟨b, block, found, inside⟩,
      Instr.mem_temps.mpr (Or.inr used)⟩))
  have clustered : g.Clustered := by
    intro t spill
    rw [written] at spill
    exact absurd spill (IndexSet.not_mem_empty t)
  rcases Func.allocate_error pruned failed with invalid | ⟨_, _, _, _, _, same⟩ |
    ⟨rounds, slots, h, reached, attempt | same⟩
  · obtain ⟨_, same⟩ := Settings.validate_error invalid
    exact nomatch same
  · exact nomatch same
  · have progress := reached.progress first
    obtain ⟨left, read⟩ := reached.roomy first (Nat.le_add_left 1 _) start.1 start.2
    obtain ⟨rfl, rfl, q, l, gone, ended, crowded⟩ :=
      progress.attempt_crowded left read (reached.clustered first clustered) attempt
    refine ⟨?_, rfl, n, g, rounds, slots, h, q, l, gone, pruned, reached, attempt, ended, crowded⟩
    rw [progress.name, prunes.fields]
  · exact nomatch same

/-- The function and the reason of a breakdown. -/
def Failure.breakdown? : Failure → Option (String × Breakdown)
  | internal func reason _ => some (func, reason)
  | _ => none

theorem Failure.breakdown?_eq_some {e : Failure} {func : String} {reason : Breakdown}
    (found : e.breakdown? = some (func, reason)) : ∃ state, e = .internal func reason state := by
  cases e with
  | internal name why state =>
    cases found
    exact ⟨state, rfl⟩
  | _ => exact nomatch found

/-- One register is not enough for a sum of two operands. -/
theorem sumFunc_crowded :
    ∃ state, sumFunc.allocate { colors := 1 } = .error (.internal "sum" (.crowded 6 1) state) ∧
      ∃ n g rounds slots h r l gone, sumFunc.pruneUnreachable = .ok (n, g) ∧
        Reached { colors := 1 } g rounds slots h ∧
        h.attempt { colors := 1 } = .error (.internal "sum" (.crowded 6 1) state) ∧
        h.runDeadCode { colors := 1 } = (r, .ok (l, gone)) ∧ r.Crowded l 6 1 := by
  have result : ((sumFunc.allocate { colors := 1 }).mapError Failure.breakdown?).map (fun _ => ()) =
      .error (some ("sum", .crowded 6 1)) := by decide +kernel
  cases run : sumFunc.allocate { colors := 1 } with
  | ok alloc =>
    rw [run] at result
    exact nomatch result
  | error e =>
    rw [run] at result
    obtain ⟨state, rfl⟩ := Failure.breakdown?_eq_some (Except.error.inj result)
    exact ⟨state, rfl, (Func.allocate_crowded ofSource_sumSource run).2.2⟩

end RegisterColoring
