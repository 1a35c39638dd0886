import RegisterColoring.Proofs.Decisions

namespace RegisterColoring

namespace Coloring

variable {g : Interference} {cost : Temp → Cost} {colors : Nat}

/-- The states of pushing: once `events` are recorded, the temps that remain, and the table of the
degrees of all nodes. -/
inductive Simplifying (g : Interference) (cost : Temp → Cost) (colors : Nat) :
    List Event → IndexSet → IndexMap Nat → Prop
  | start : Simplifying g cost colors [] g.unpinned g.degrees
  | push {events : List Event} {remaining : IndexSet} {degrees : IndexMap Nat} {e : Event} :
      Simplifying g cost colors events remaining degrees →
      choose cost colors (entries remaining degrees) = some e →
      Simplifying g cost colors (events ++ [e]) (remaining.erase e.temp)
        (lower degrees (g.neighbors e.temp).toList)

/-- Pushing goes from state to state. -/
theorem Simplifying.pushAll {func : String} {early mid late : List Event} {steps : Nat}
    {remaining : IndexSet} {degrees : IndexMap Nat}
    (state : Simplifying g cost colors early remaining degrees)
    (run : pushAll g cost colors func steps remaining degrees = .ok (mid ++ late)) :
    ∃ rest table, Simplifying g cost colors (early ++ mid) rest table ∧
      Coloring.pushAll g cost colors func (steps - mid.length) rest table = .ok late := by
  induction mid generalizing early steps remaining degrees with
  | nil => exact ⟨remaining, degrees, by rwa [List.append_nil], run⟩
  | cons e mid ih =>
    cases steps with
    | zero => cases run
    | succ steps =>
      cases more : remaining.isEmpty with
      | true =>
        rw [pushAll_of_isEmpty more] at run
        cases run
      | false =>
        cases chosen : choose cost colors (entries remaining degrees) with
        | none =>
          rw [pushAll_of_none more chosen] at run
          cases run
        | some event =>
          rw [pushAll_of_some more chosen] at run
          obtain ⟨later, run, same⟩ := map_eq_ok.mp run
          obtain ⟨rfl, rfl⟩ := List.cons.inj same
          obtain ⟨rest, table, reached, goes⟩ := ih (state.push chosen) run
          refine ⟨rest, table, ?_, ?_⟩
          · rwa [List.append_assoc] at reached
          · rwa [List.length_cons, Nat.add_sub_add_right]

theorem Counted.mem_of_choose {remaining : IndexSet} {degrees : IndexMap Nat} {e : Event}
    (counted : Counted g remaining degrees)
    (chosen : choose cost colors (entries remaining degrees) = some e) : e.temp ∈ remaining := by
  rw [counted.entries_eq] at chosen
  by_cases empty : remaining.toList = []
  · rw [empty] at chosen
    cases chosen
  · obtain ⟨event, same, member, _⟩ := choose_withDegrees g cost colors empty
    cases chosen.symm.trans same
    exact member

theorem Simplifying.counted (valid : g.graph.Valid) {events : List Event} {remaining : IndexSet}
    {degrees : IndexMap Nat} (state : Simplifying g cost colors events remaining degrees) :
    Counted g remaining degrees := by
  induction state with
  | start => exact .start valid
  | push _ chosen counted => exact counted.push valid (counted.mem_of_choose chosen)

/-- What remains are the temps that are not yet pushed. -/
theorem Simplifying.mem_remaining {events : List Event} {remaining : IndexSet}
    {degrees : IndexMap Nat} (state : Simplifying g cost colors events remaining degrees) {t : Temp} :
    t ∈ remaining ↔ t ∈ g.unpinned ∧ t ∉ events.map (·.temp) := by
  induction state with
  | start => simp
  | push _ _ ih =>
    rw [IndexSet.mem_erase, ih, List.map_append, List.mem_append, List.map_singleton,
      List.mem_singleton]
    tauto

/-- A neighbor of the temp that is pushed next has a degree to lose. -/
theorem Simplifying.positive (valid : g.graph.Valid) {events : List Event} {remaining : IndexSet}
    {degrees : IndexMap Nat} {e : Event}
    (state : Simplifying g cost colors events remaining degrees)
    (chosen : choose cost colors (entries remaining degrees) = some e) {u : Temp}
    (neighbor : u ∈ g.neighbors e.temp) : ∃ d, degrees.get? u = some (d + 1) := by
  have counted := state.counted valid
  have member := counted.mem_of_choose chosen
  have node := (Graph.mem_nodes_of_hasEdge valid ((Interference.mem_neighbors valid).mp neighbor)).2
  refine ⟨liveDegree g (remaining.toList.filter (· ≠ e.temp)) u, ?_⟩
  rw [counted.counts u node, liveDegree_remove valid member (counted.nodes _ member).2,
    if_pos neighbor]

/-- The pushes from some point on are pushes of what remained there. -/
theorem Pushes.drop {early late : List Event} {remaining : List Temp}
    (pushes : Pushes g cost colors remaining (early ++ late)) :
    ∃ left, (∀ t ∈ left, t ∈ remaining) ∧ Pushes g cost colors left late := by
  induction early generalizing remaining with
  | nil => exact ⟨remaining, fun t member => member, pushes⟩
  | cons e early ih =>
    cases pushes with
    | simplify _ _ later =>
      obtain ⟨left, inside, rest⟩ := ih later
      exact ⟨left, fun t member => List.mem_of_mem_filter (inside t member), rest⟩
    | candidate _ _ _ later =>
      obtain ⟨left, inside, rest⟩ := ih later
      exact ⟨left, fun t member => List.mem_of_mem_filter (inside t member), rest⟩

/-- When popping comes to a simplified temp, a color is free for it. -/
theorem Pushes.freeColor_lt (valid : g.graph.Valid) {f : Func} {pushes : List Event}
    {first rest : List Temp} {t : Temp} {d : Nat} {done : Coloring}
    (made : Pushes g cost colors g.unplaced pushes) (low : .simplify t d ∈ pushes)
    (order : (pushes.map (·.temp)).reverse = first ++ t :: rest)
    (run : popAll g colors f first ⟨g.pinned, ∅, pushes⟩ = .ok done) :
    ∃ id, g.graph.id? t = some id ∧ freeColor g done.colors id < colors := by
  obtain ⟨early, late, split⟩ := List.append_of_mem low
  have nodup := made.nodup
  have temps : early.map (·.temp) ++ t :: late.map (·.temp) = rest.reverse ++ t :: first.reverse := by
    have order := congrArg List.reverse order
    rw [List.reverse_reverse, split, List.map_append, List.reverse_append, List.reverse_cons,
      List.append_assoc] at order
    exact order
  rw [split, List.map_append] at nodup
  have before : t ∉ early.map (·.temp) := fun twice =>
    (List.nodup_append.mp nodup).2.2 t twice t List.mem_cons_self rfl
  have after : t ∉ late.map (·.temp) := (List.nodup_cons.mp (List.nodup_append.mp nodup).2.1).1
  obtain ⟨_, _, later⟩ := (List.append_cons_inj_of_notMem before after).mp temps
  -- The temps popped before are those pushed after it.
  have popped : first = (late.map (·.temp)).reverse := by rw [later, List.reverse_reverse]
  have cut := made
  rw [split] at cut
  obtain ⟨left, inside, pushed⟩ := cut.drop
  have unpinned : ∀ u ∈ left, g.pinned.contains u = false := fun u member =>
    (Interference.mem_unplaced.mp (inside u member)).2
  have nodes : ∀ u ∈ left, u ∈ g.graph.nodes := fun u member =>
    (Interference.mem_unplaced.mp (inside u member)).1
  cases pushed with
  | simplify member fits rest =>
    obtain ⟨id, found, _⟩ := Graph.exists_number valid (nodes t member)
    refine ⟨id, found, ?_⟩
    rcases rest.select valid f pushes
      (fun u member => unpinned u (List.mem_of_mem_filter member))
      (fun u member => nodes u (List.mem_of_mem_filter member)) with
      ⟨c, same, selected⟩ | ⟨_, _, _, _, failed⟩
    · rw [popped, same] at run
      cases run
      exact Nat.lt_of_le_of_lt (selected.freeColor_le valid found) fits
    · rw [popped, failed] at run
      cases run

/-- A color that popping finds for a temp is the color that the temp keeps. -/
theorem Traced.assigned {f : Func} {pushes decisions : List Event} {c done : Coloring}
    (traced : Traced g cost colors f pushes decisions c) {first rest : List Temp} {t : Temp}
    {id : Nat} (order : (pushes.map (·.temp)).reverse = first ++ t :: rest)
    (run : popAll g colors f first ⟨g.pinned, ∅, pushes⟩ = .ok done)
    (found : g.graph.id? t = some id) (below : freeColor g done.colors id < colors) :
    .assign t (freeColor g done.colors id) ∈ decisions := by
  have whole := traced.decided.popped
  rw [traced.temps, order, popAll_append, run] at whole
  have later : popAll g colors f ([t] ++ rest) done = .ok c := whole
  rw [popAll_append, popAll_singleton found, if_pos below] at later
  obtain ⟨early, before, _⟩ := Decided.start.popAll run
  obtain ⟨late, after, _⟩ := (before.assign found below).popAll later
  have same := traced.decided.trace_eq.symm.trans after.trace_eq
  rw [List.append_cancel_left same]
  simp

/-- A temp that is spilled was pushed as a candidate. -/
theorem Traced.candidate_of_spill {f : Func} {pushes decisions : List Event} {c : Coloring}
    (traced : Traced g cost colors f pushes decisions c) (valid : g.graph.Valid) {t : Temp}
    (spilled : .spill t ∈ decisions) : ∃ w, .candidate t w ∈ pushes := by
  obtain ⟨early, late, split⟩ := List.append_of_mem spilled
  have decided := traced.decided
  have order := traced.temps
  rw [split] at decided order
  rw [List.map_append, List.map_cons] at order
  have pushed : t ∈ pushes.map (·.temp) := by
    rw [← List.mem_reverse, ← order]
    exact List.mem_append_right _ List.mem_cons_self
  obtain ⟨e, member, same⟩ := List.mem_map.mp pushed
  have isPush := traced.made.isPush e member
  cases e with
  | candidate u w => exact ⟨w, same ▸ member⟩
  | simplify u d =>
    obtain rfl : u = t := same
    obtain ⟨mid, id, before, found, decision⟩ := decided.at
    obtain ⟨i, sameId, below⟩ :=
      traced.made.freeColor_lt valid member order.symm before.popped
    cases found.symm.trans sameId
    rcases decision with ⟨assigned, _⟩ | ⟨_, above, _⟩
    · cases assigned
    · exact absurd below (Nat.not_lt.mpr above)
  | assign u k => cases isPush
  | spill u => cases isPush

/-- A temp that was simplified has a color. -/
theorem Traced.color_of_simplify {f : Func} {pushes decisions : List Event} {c : Coloring}
    (traced : Traced g cost colors f pushes decisions c) (valid : g.graph.Valid) {t : Temp} {d : Nat}
    (low : .simplify t d ∈ pushes) :
    ∃ k < colors, .assign t k ∈ c.trace ∧ c.colors.get? t = some k := by
  have popped : t ∈ (pushes.map (·.temp)).reverse :=
    List.mem_reverse.mpr (List.mem_map.mpr ⟨_, low, rfl⟩)
  obtain ⟨first, rest, order⟩ := List.append_of_mem popped
  have whole := traced.decided.popped
  rw [traced.temps, order, popAll_append] at whole
  obtain ⟨done, run, _⟩ := bind_eq_ok.mp whole
  obtain ⟨id, found, below⟩ := traced.made.freeColor_lt valid low order run
  have given := traced.assigned order run found below
  refine ⟨_, below, ?_, traced.get?_colors.mpr (.inr given)⟩
  rw [traced.decided.trace_eq]
  exact List.mem_append_right _ given

theorem liveDegree_le_degree (valid : g.graph.Valid) (left : List Temp) (t : Temp) :
    liveDegree g left t ≤ g.degree t := by
  rw [Interference.degree_eq valid]
  exact IndexSet.size_le_size fun u member => (IndexSet.mem_filter.mp member).1

/-- Without temps of many neighbors there are no candidates. -/
theorem Pushes.not_candidate (valid : g.graph.Valid) {pushes : List Event} {remaining : List Temp}
    (made : Pushes g cost colors remaining pushes) (low : ∀ t ∈ remaining, g.degree t < colors)
    (t : Temp) (w : Weight) : .candidate t w ∉ pushes := by
  intro member
  obtain ⟨rest, inside, here, crowded, _⟩ := made.mem_candidate member
  have few := low t (inside t here)
  have many := crowded t here
  have bound := liveDegree_le_degree valid rest t
  omega

/-- If no temp is spilled, every node has a color. -/
theorem Selected.color_of_node {f : Func} {c : Coloring} (selected : Selected g colors f g.unplaced c)
    (none : c.spilled = ∅) {t : Temp} (node : t ∈ g.graph.nodes) :
    ∃ k, c.colors.get? t = some k ∧
      (g.pinned.get? t = some k ∨ g.pinned.contains t = false ∧ k < colors) := by
  cases pin : g.pinned.contains t with
  | true =>
    obtain ⟨k, color⟩ := IndexMap.contains_iff.mp pin
    exact ⟨k, selected.pinned t k color, .inl color⟩
  | false =>
    rcases selected.settled t (Interference.mem_unplaced.mpr ⟨node, pin⟩) with spilled | colored
    · rw [none] at spilled
      exact absurd spilled (IndexSet.not_mem_empty t)
    · obtain ⟨k, color⟩ := IndexMap.contains_iff.mp colored
      exact ⟨k, color, (selected.origin t k color).imp_right fun given => ⟨rfl, given.2⟩⟩

/-- What being simplified guarantees, for the pushes of a coloring. -/
structure Guarantee (g : Interference) (cost : Temp → Cost) (colors : Nat) (f : Func)
    (pushes : List Event) : Prop where
  recorded : ∀ c, g.color cost colors f = .ok c → ∃ decisions, c.trace = pushes ++ decisions
  /-- The steps of pushing, and how pushing goes on from each. -/
  steps : ∀ early late, pushes = early ++ late → ∃ remaining degrees,
    Simplifying g cost colors early remaining degrees ∧
      pushAll g cost colors f.name (g.unpinned.size - early.length) remaining degrees = .ok late
  counted : ∀ early remaining degrees, Simplifying g cost colors early remaining degrees →
    (∀ t, t ∈ remaining ↔ t ∈ g.graph.nodes ∧ g.pinned.contains t = false ∧
      t ∉ early.map (·.temp)) ∧
      ∀ t ∈ remaining, degrees.get? t =
        some ((g.neighbors t).filter fun u => u ∈ remaining || g.pinned.contains u).size
  positive : ∀ early remaining degrees e, Simplifying g cost colors early remaining degrees →
    choose cost colors (entries remaining degrees) = some e → ∀ u ∈ g.neighbors e.temp,
      ∃ d, degrees.get? u = some (d + 1)
  /-- When popping comes to a simplified temp, it gives the temp a color, which the temp keeps. -/
  colored : ∀ first t rest d done, .simplify t d ∈ pushes →
    (pushes.map (·.temp)).reverse = first ++ t :: rest →
    popAll g colors f first ⟨g.pinned, ∅, pushes⟩ = .ok done →
      ∃ id k, g.graph.id? t = some id ∧ freeColor g done.colors id = k ∧ k < colors ∧
        popAll g colors f (first ++ [t]) ⟨g.pinned, ∅, pushes⟩ =
          .ok ⟨done.colors.insert t k, done.spilled, done.trace ++ [.assign t k]⟩ ∧
        ∀ c, g.color cost colors f = .ok c → .assign t k ∈ c.trace ∧ c.colors.get? t = some k
  assigned : ∀ c t d, g.color cost colors f = .ok c → .simplify t d ∈ pushes →
    ∃ k < colors, .assign t k ∈ c.trace ∧ c.colors.get? t = some k
  spilled : ∀ c t, g.color cost colors f = .ok c → .spill t ∈ c.trace →
    ∃ w, .candidate t w ∈ pushes
  crowded : ∀ e, g.color cost colors f = .error e → ∃ t w, .candidate t w ∈ pushes ∧
    t ∈ f.spillTemps ∧
    e = .internal f.name (.crowded t colors) (some (g.dump f.name).pretty)
  low : (∀ t ∈ g.graph.nodes, g.pinned.contains t = false → g.degree t < colors) →
    ∃ c, g.color cost colors f = .ok c ∧ c.spilled = ∅ ∧
      ∀ t ∈ g.graph.nodes, ∃ k, c.colors.get? t = some k ∧
        (g.pinned.get? t = some k ∨ g.pinned.contains t = false ∧ k < colors)

end Coloring

namespace Interference

variable {f : Func} {l : Liveness} {g : Interference}

/-- Pushing never fails, and every temp pushed with few neighbors gets a color, whatever the function
and the sets from which the graph was built, the costs, and the number of colors. -/
theorem simplified_colored (built : build f l = .ok g) (cost : Temp → Cost) (colors : Nat)
    (h : Func) : ∃ pushes, g.pushes cost colors h.name = .ok pushes ∧
      Coloring.Guarantee g cost colors h pushes := by
  have valid := (represents_of_build built).valid
  obtain ⟨pushes, run, made, value⟩ := color_eq_popAll valid cost colors h
  have traced : ∀ c, g.color cost colors h = .ok c →
      ∃ decisions, Coloring.Traced g cost colors h pushes decisions c := fun c done =>
    made.traced valid (value.symm.trans done)
  have pops := made.select_unplaced valid h
  refine ⟨pushes, run, ⟨fun c done => ?_, fun early late split => ?_,
    fun early remaining degrees state => ⟨fun t => ?_, fun t member => ?_⟩,
    fun early remaining degrees e state chosen u neighbor => state.positive valid chosen neighbor,
    fun first t rest d done low order popped => ?_, fun c t d done low => ?_,
    fun c t done spilled => ?_, fun e failed => ?_, fun low => ?_⟩⟩
  · obtain ⟨decisions, traced⟩ := traced c done
    exact ⟨decisions, traced.decided.trace_eq⟩
  · rw [pushes_def, split] at run
    exact Coloring.Simplifying.start.pushAll run
  · have placed := mem_unplaced (g := g) (t := t)
    rw [unplaced, IndexSet.mem_toList] at placed
    rw [state.mem_remaining, placed, and_assoc]
  · have counted := state.counted valid
    exact counted.counts t (counted.nodes t member).1
  · obtain ⟨id, found, below⟩ := made.freeColor_lt valid low order popped
    refine ⟨id, _, found, rfl, below, ?_, fun c colored => ?_⟩
    · rw [Coloring.popAll_append, popped]
      exact (Coloring.popAll_singleton found colors h done).trans (if_pos below)
    · obtain ⟨decisions, traced⟩ := traced c colored
      have given := traced.assigned order popped found below
      refine ⟨?_, traced.get?_colors.mpr (.inr given)⟩
      rw [traced.decided.trace_eq]
      exact List.mem_append_right _ given
  · obtain ⟨decisions, traced⟩ := traced c done
    exact traced.color_of_simplify valid low
  · obtain ⟨decisions, traced⟩ := traced c done
    rw [traced.decided.trace_eq] at spilled
    refine traced.candidate_of_spill valid ((List.mem_append.mp spilled).resolve_left ?_)
    exact fun member => Bool.false_ne_true (made.isPush _ member)
  · rcases pops with ⟨c, done, _⟩ | ⟨t, w, member, written, same⟩
    · cases (value.symm.trans failed).symm.trans done
    · cases (value.symm.trans failed).symm.trans same
      exact ⟨t, w, member, written, rfl⟩
  · have few := made.not_candidate valid fun t member =>
      low t (mem_unplaced.mp member).1 (mem_unplaced.mp member).2
    rcases pops with ⟨c, done, selected⟩ | ⟨t, w, member, _⟩
    · obtain ⟨decisions, traced⟩ := made.traced valid done
      have none : c.spilled = ∅ := IndexSet.ext fun t =>
        iff_of_false (fun spilled => by
          obtain ⟨w, member⟩ :=
            traced.candidate_of_spill valid (traced.decided.mem_spilled.mp spilled)
          exact few t w member) (IndexSet.not_mem_empty t)
      exact ⟨c, value.trans done, none, fun t node => selected.color_of_node none node⟩
    · exact absurd member (few t w)

end Interference

/-- With two colors for three parameters, three temps are simplified and one is a candidate. -/
theorem threeSource_simplified : ∃ f l g, Func.ofSource threeSource false = .ok f ∧
    Liveness.analyze 2 f = .ok l ∧ Interference.build f l = .ok g ∧
    ∃ pushes, pushes.map (·.temp) = [3, 4, 1, 2] ∧
      Coloring.Guarantee g (fun t => f.spillCosts.getD t (.finite 0)) 2 f pushes := by
  have result : (Func.ofSource threeSource false).bind (fun f =>
      (Liveness.analyze 2 f).bind fun l => (Interference.build f l).bind fun g =>
        (g.pushes (fun t => f.spillCosts.getD t (.finite 0)) 2 f.name).map fun pushes =>
          pushes.map (·.temp)) = .ok [3, 4, 1, 2] := by decide +kernel
  obtain ⟨f, source, rest⟩ := bind_eq_ok.mp result
  obtain ⟨l, analysis, rest⟩ := bind_eq_ok.mp rest
  obtain ⟨g, built, rest⟩ := bind_eq_ok.mp rest
  obtain ⟨events, pushed, temps⟩ := map_eq_ok.mp rest
  obtain ⟨pushes, run, guarantee⟩ := Interference.simplified_colored built
    (fun t => f.spillCosts.getD t (.finite 0)) 2 f
  cases pushed.symm.trans run
  exact ⟨f, l, g, source, analysis, built, events, temps, guarantee⟩

end RegisterColoring
