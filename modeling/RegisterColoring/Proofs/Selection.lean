import RegisterColoring.Proofs.Pushing

namespace RegisterColoring

namespace Coloring

theorem popAll_append (g : Interference) (colors : Nat) (f : Func) (first second : List Temp)
    (done : Coloring) : popAll g colors f (first ++ second) done =
      (popAll g colors f first done).bind (popAll g colors f second) := by
  induction first generalizing done with
  | nil => rfl
  | cons t rest ih =>
    rw [List.cons_append]
    cases found : g.graph.id? t with
    | none =>
      rw [popAll_of_none found, popAll_of_none found]
      rfl
    | some id =>
      rw [popAll_of_some found, popAll_of_some found]
      split
      · exact ih _
      · split
        · rfl
        · exact ih _

theorem popAll_singleton {g : Interference} {t : Temp} {id : Nat}
    (found : g.graph.id? t = some id) (colors : Nat) (f : Func) (c : Coloring) :
    popAll g colors f [t] c =
      if freeColor g c.colors id < colors then
        .ok ⟨c.colors.insert t (freeColor g c.colors id), c.spilled,
          c.trace ++ [Event.assign t (freeColor g c.colors id)]⟩
      else if t ∈ f.spillTemps then
        .error (.internal f.name (.crowded t colors) (some (g.dump f.name).pretty))
      else .ok ⟨c.colors, c.spilled.insert t, c.trace ++ [Event.spill t]⟩ := by
  simp only [popAll_of_some found, popAll_nil]

/-- What is known once the temps `popped` have been popped. -/
structure Selected (g : Interference) (colors : Nat) (f : Func) (popped : List Temp)
    (c : Coloring) : Prop where
  pinned : ∀ t k, g.pinned.get? t = some k → c.colors.get? t = some k
  origin : ∀ t k, c.colors.get? t = some k → g.pinned.get? t = some k ∨ t ∈ popped ∧ k < colors
  settled : ∀ t ∈ popped, t ∈ c.spilled ∨ c.colors.contains t = true
  spilled : ∀ t ∈ c.spilled, t ∈ popped ∧ t ∉ f.spillTemps ∧ c.colors.get? t = none
  proper : ∀ t u k, g.interferes t u = true → c.colors.get? t = some k →
    c.colors.get? u = some k → g.pinned.contains t = true ∧ g.pinned.contains u = true

theorem selected_start (g : Interference) (colors : Nat) (f : Func) (trace : List Event) :
    Selected g colors f [] ⟨g.pinned, ∅, trace⟩ where
  pinned _ _ found := found
  origin _ _ found := Or.inl found
  settled _ member := absurd member List.not_mem_nil
  spilled t member := absurd member (IndexSet.not_mem_empty t)
  proper _ _ k _ first second :=
    ⟨IndexMap.contains_iff.mpr ⟨k, first⟩, IndexMap.contains_iff.mpr ⟨k, second⟩⟩

theorem Selected.not_colored {g : Interference} {colors : Nat} {f : Func} {popped : List Temp}
    {c : Coloring} (selected : Selected g colors f popped c) {t : Temp} (waiting : t ∉ popped)
    (unpinned : g.pinned.contains t = false) : c.colors.get? t = none := by
  refine Option.eq_none_iff_forall_ne_some.mpr fun k found => ?_
  rcases selected.origin t k found with pin | ⟨member, _⟩
  · cases (IndexMap.contains_eq_false.mp unpinned).symm.trans pin
  · exact waiting member

theorem Selected.assign {g : Interference} (valid : g.graph.Valid) {colors : Nat} {f : Func}
    {remaining : List Temp} {c : Coloring} {t : Temp} {k : Color} {trace : List Event}
    (selected : Selected g colors f (remaining.filter (· ≠ t)) c) (member : t ∈ remaining)
    (unpinned : g.pinned.contains t = false) (below : k < colors)
    (free : ∀ u, g.interferes t u = true → c.colors.get? u ≠ some k) :
    Selected g colors f remaining ⟨c.colors.insert t k, c.spilled, trace⟩ := by
  have waiting : t ∉ remaining.filter (· ≠ t) := by simp
  have notSpilled : t ∉ c.spilled := fun spilled => waiting (selected.spilled t spilled).1
  refine ⟨fun u e pin => ?_, fun u e found => ?_, fun u inside => ?_, fun u spilled => ?_,
    fun u v e edge first second => ?_⟩
  · have other : u ≠ t := by
      rintro rfl
      cases (IndexMap.contains_eq_false.mp unpinned).symm.trans pin
    rw [IndexMap.get?_insert, if_neg other]
    exact selected.pinned u e pin
  · rw [IndexMap.get?_insert] at found
    split at found
    · rename_i same
      cases found
      rw [same]
      exact Or.inr ⟨member, below⟩
    · exact (selected.origin u e found).imp_right fun ⟨inside, less⟩ =>
        ⟨List.mem_of_mem_filter inside, less⟩
  · rw [IndexMap.contains, IndexMap.get?_insert]
    split
    · exact Or.inr rfl
    · rename_i other
      exact selected.settled u (by simp [List.mem_filter, inside, other])
  · obtain ⟨inside, written, uncolored⟩ := selected.spilled u spilled
    have other : u ≠ t := fun same => notSpilled (same ▸ spilled)
    rw [IndexMap.get?_insert, if_neg other]
    exact ⟨List.mem_of_mem_filter inside, written, uncolored⟩
  · rw [IndexMap.get?_insert] at first second
    split at first
    · rename_i isT
      subst isT
      cases first
      split at second
      · rename_i isT
        subst isT
        exact absurd edge (by simp [Interference.interferes, Graph.not_hasEdge_self valid])
      · exact absurd second (free v edge)
    · split at second
      -- Edges go both ways, so the color is also free from the other end.
      · rename_i isT
        subst isT
        cases second
        exact absurd first (free u (Graph.hasEdge_symm valid edge))
      · exact selected.proper u v e edge first second

theorem Selected.spill {g : Interference} {colors : Nat} {f : Func} {remaining : List Temp}
    {c : Coloring} {t : Temp} {trace : List Event}
    (selected : Selected g colors f (remaining.filter (· ≠ t)) c) (member : t ∈ remaining)
    (unpinned : g.pinned.contains t = false) (written : t ∉ f.spillTemps) :
    Selected g colors f remaining ⟨c.colors, c.spilled.insert t, trace⟩ := by
  refine ⟨selected.pinned, fun u e found => ?_, fun u inside => ?_, fun u spilled => ?_,
    selected.proper⟩
  · exact (selected.origin u e found).imp_right fun ⟨inside, less⟩ =>
      ⟨List.mem_of_mem_filter inside, less⟩
  · by_cases same : u = t
    · exact Or.inl (IndexSet.mem_insert.mpr (Or.inl same))
    · have before := selected.settled u (by simp [List.mem_filter, inside, same])
      exact before.imp_left fun spilled => IndexSet.mem_insert.mpr (Or.inr spilled)
  · rcases IndexSet.mem_insert.mp spilled with rfl | before
    · exact ⟨member, written, selected.not_colored (by simp) unpinned⟩
    · obtain ⟨inside, other, uncolored⟩ := selected.spilled u before
      exact ⟨List.mem_of_mem_filter inside, other, uncolored⟩

/-- A temp that was pushed with few neighbors has fewer colored ones than there are colors. -/
theorem Selected.freeColor_le {g : Interference} (valid : g.graph.Valid) {colors : Nat} {f : Func}
    {remaining : List Temp} {c : Coloring} {t : Temp} {id : Nat}
    (selected : Selected g colors f (remaining.filter (· ≠ t)) c) (found : g.graph.id? t = some id) :
    freeColor g c.colors id ≤ liveDegree g remaining t := by
  refine Nat.le_trans (Coloring.freeColor_le valid found c.colors) (IndexSet.size_le_size fun u member => ?_)
  obtain ⟨neighbor, colored⟩ := IndexSet.mem_filter.mp member
  refine IndexSet.mem_filter.mpr ⟨neighbor, ?_⟩
  obtain ⟨k, value⟩ := IndexMap.contains_iff.mp colored
  rcases selected.origin u k value with pin | ⟨inside, _⟩
  · simp [IndexMap.contains_iff.mpr ⟨k, pin⟩]
  · simp [List.mem_of_mem_filter inside]

/-- A popped temp gets a color or is spilled, unless it is a temp of spill code that was pushed with
many neighbors. -/
theorem Selected.pop {g : Interference} (valid : g.graph.Valid) {colors : Nat} {f : Func}
    {remaining : List Temp} {c : Coloring} {t : Temp}
    (selected : Selected g colors f (remaining.filter (· ≠ t)) c) (member : t ∈ remaining)
    (unpinned : g.pinned.contains t = false) (node : t ∈ g.graph.nodes) :
    (∃ c', popAll g colors f [t] c = .ok c' ∧ Selected g colors f remaining c') ∨
      colors ≤ liveDegree g remaining t ∧ t ∈ f.spillTemps ∧ popAll g colors f [t] c =
        .error (.internal f.name (.crowded t colors) (some (g.dump f.name).pretty)) := by
  obtain ⟨id, found, _⟩ := Graph.exists_number valid node
  rw [popAll_singleton found colors f c]
  by_cases below : freeColor g c.colors id < colors
  · rw [if_pos below]
    exact Or.inl ⟨_, rfl, selected.assign valid member unpinned below
      (freeColor_isLeast valid found c.colors).1⟩
  · rw [if_neg below]
    by_cases spill : t ∈ f.spillTemps
    · rw [if_pos spill]
      exact Or.inr ⟨Nat.le_trans (Nat.not_lt.mp below) (selected.freeColor_le valid found), spill,
        rfl⟩
    · rw [if_neg spill]
      exact Or.inl ⟨_, rfl, selected.spill member unpinned spill⟩

/-- Popping gives every temp a color or spills it, unless a temp of spill code that was pushed as a
candidate finds no color. -/
theorem Pushes.select {g : Interference} (valid : g.graph.Valid) {cost : Temp → Cost} {colors : Nat}
    {remaining : List Temp} {events : List Event} (f : Func) (trace : List Event)
    (pushes : Pushes g cost colors remaining events)
    (unpinned : ∀ t ∈ remaining, g.pinned.contains t = false)
    (nodes : ∀ t ∈ remaining, t ∈ g.graph.nodes) :
    (∃ c, popAll g colors f (events.map (·.temp)).reverse ⟨g.pinned, ∅, trace⟩ = .ok c ∧
        Selected g colors f remaining c) ∨
      ∃ t w, .candidate t w ∈ events ∧ t ∈ f.spillTemps ∧
        popAll g colors f (events.map (·.temp)).reverse ⟨g.pinned, ∅, trace⟩ =
          .error (.internal f.name (.crowded t colors) (some (g.dump f.name).pretty)) := by
  -- The temp that was pushed first is popped last, so the rest is popped by the hypothesis.
  induction pushes with
  | done => exact Or.inl ⟨_, rfl, selected_start g colors f trace⟩
  | @simplify remaining t events member fits later ih =>
    rw [List.map_cons, List.reverse_cons, popAll_append]
    rcases ih (fun u inside => unpinned u (List.mem_of_mem_filter inside))
      (fun u inside => nodes u (List.mem_of_mem_filter inside)) with
      ⟨c, run, selected⟩ | ⟨u, w, inside, spill, run⟩
    · rw [run]
      rcases selected.pop valid member (unpinned t member) (nodes t member) with
        placed | ⟨crowded, _⟩
      · exact Or.inl placed
      · exact absurd fits (Nat.not_lt.mpr crowded)
    · rw [run]
      exact Or.inr ⟨u, w, List.mem_cons_of_mem _ inside, spill, rfl⟩
  | @candidate remaining t events member crowded light later ih =>
    rw [List.map_cons, List.reverse_cons, popAll_append]
    rcases ih (fun u inside => unpinned u (List.mem_of_mem_filter inside))
      (fun u inside => nodes u (List.mem_of_mem_filter inside)) with
      ⟨c, run, selected⟩ | ⟨u, w, inside, spill, run⟩
    · rw [run]
      rcases selected.pop valid member (unpinned t member) (nodes t member) with
        placed | ⟨_, spill, failed⟩
      · exact Or.inl placed
      · exact Or.inr ⟨t, _, List.mem_cons_self, spill, failed⟩
    · rw [run]
      exact Or.inr ⟨u, w, List.mem_cons_of_mem _ inside, spill, rfl⟩

/-- When a candidate is pushed, all that remains has many neighbors, and none of it is lighter. -/
theorem Pushes.mem_candidate {g : Interference} {cost : Temp → Cost} {colors : Nat}
    {remaining : List Temp} {events : List Event} (pushes : Pushes g cost colors remaining events)
    {t : Temp} {w : Weight} (member : .candidate t w ∈ events) :
    ∃ rest : List Temp, (∀ u ∈ rest, u ∈ remaining) ∧ t ∈ rest ∧
      (∀ u ∈ rest, colors ≤ liveDegree g rest u) ∧
      (Weight.ofCost (cost t) (liveDegree g rest t) = .infinite → ∀ u ∈ rest,
        Weight.ofCost (cost u) (liveDegree g rest u) = .infinite) := by
  induction pushes with
  | done => exact absurd member List.not_mem_nil
  | simplify _ _ _ ih =>
    obtain ⟨rest, inside, facts⟩ := ih ((List.mem_cons.mp member).resolve_left nofun)
    exact ⟨rest, fun u left => List.mem_of_mem_filter (inside u left), facts⟩
  | @candidate remaining u events here crowded light later ih =>
    rcases List.mem_cons.mp member with same | deeper
    · cases same
      exact ⟨remaining, fun u left => left, here, crowded, light⟩
    · obtain ⟨rest, inside, facts⟩ := ih deeper
      exact ⟨rest, fun u left => List.mem_of_mem_filter (inside u left), facts⟩

end Coloring

namespace Interference

/-- The temps that coloring has to place. -/
def unplaced (g : Interference) : List Temp := g.unpinned.toList

theorem mem_unplaced {g : Interference} {t : Temp} :
    t ∈ g.unplaced ↔ t ∈ g.graph.nodes ∧ g.pinned.contains t = false := by
  rw [unplaced, IndexSet.mem_toList, unpinned, IndexSet.mem_filter, temps, IndexSet.mem_ofList,
    Bool.not_eq_true']

end Interference

/-- What popping does with all the temps that coloring has to place. -/
theorem Coloring.Pushes.select_unplaced {g : Interference} (valid : g.graph.Valid)
    {cost : Temp → Cost} {colors : Nat} {pushes : List Event}
    (made : Pushes g cost colors g.unplaced pushes) (f : Func) :
    (∃ c, popAll g colors f (pushes.map (·.temp)).reverse ⟨g.pinned, ∅, pushes⟩ = .ok c ∧
        Selected g colors f g.unplaced c) ∨
      ∃ t w, .candidate t w ∈ pushes ∧ t ∈ f.spillTemps ∧
        popAll g colors f (pushes.map (·.temp)).reverse ⟨g.pinned, ∅, pushes⟩ =
          .error (.internal f.name (.crowded t colors) (some (g.dump f.name).pretty)) :=
  made.select valid f pushes (fun _ member => (Interference.mem_unplaced.mp member).2)
    (fun _ member => (Interference.mem_unplaced.mp member).1)

namespace Interference

/-- Coloring pushes every temp that is not pinned and pops them in the opposite order. -/
theorem color_eq_popAll {g : Interference} (valid : g.graph.Valid) (cost : Temp → Cost) (colors : Nat)
    (f : Func) : ∃ pushes, g.pushes cost colors f.name = .ok pushes ∧
      Coloring.Pushes g cost colors g.unplaced pushes ∧
      g.color cost colors f =
        Coloring.popAll g colors f (pushes.map (·.temp)).reverse ⟨g.pinned, ∅, pushes⟩ := by
  obtain ⟨pushes, run, made⟩ := Coloring.pushAll_ok valid cost colors f.name
    (.start valid) (Nat.le_refl g.unpinned.size)
  rw [← pushes_def] at run
  refine ⟨pushes, run, made, ?_⟩
  rw [color_def, run]
  rfl

/-- Coloring places every temp that is not pinned, unless a temp of spill code pushed as a candidate
finds no color. -/
theorem color_cases {g : Interference} (valid : g.graph.Valid) (cost : Temp → Cost) (colors : Nat)
    (f : Func) :
    (∃ c, g.color cost colors f = .ok c ∧ Coloring.Selected g colors f g.unplaced c) ∨
      ∃ t w events, Coloring.Pushes g cost colors g.unplaced events ∧ .candidate t w ∈ events ∧
        t ∈ f.spillTemps ∧ g.color cost colors f =
          .error (.internal f.name (.crowded t colors) (some (g.dump f.name).pretty)) := by
  obtain ⟨pushes, _, made, value⟩ := color_eq_popAll valid cost colors f
  rw [value]
  rcases made.select_unplaced valid f with done | ⟨t, w, member, spill, failed⟩
  · exact Or.inl done
  · exact Or.inr ⟨t, w, pushes, made, member, spill, failed⟩

/-- Pins that pass the check lie below the number of colors, and pinned neighbors differ. -/
theorem checkPins_ok {g : Interference} (valid : g.graph.Valid) {colors : Nat} {func : String}
    (run : g.checkPins colors func = .ok ()) :
    (∀ t c, g.pinned.get? t = some c → c < colors) ∧
      ∀ t u c, g.interferes t u = true → g.pinned.get? t = some c → g.pinned.get? u ≠ some c := by
  cases below : g.pinBeyond? colors with
  | some pin =>
    rw [checkPins_of_beyond func below] at run
    cases run
  | none =>
    cases apart : g.sharedPin? with
    | some pins =>
      rw [checkPins_of_shared func below apart] at run
      cases run
    | none =>
      rw [sharedPin?_def] at apart
      refine ⟨fun t c pin => ?_, ?_⟩
      · have small := List.find?_eq_none.mp below _ (IndexMap.get?_eq_some.mp pin)
        simpa using small
      · have ordered : ∀ (t u : Nat) (c : Color), t < u → g.interferes t u = true →
            g.pinned.get? t = some c → g.pinned.get? u ≠ some c := by
          intro t u c less edge first second
          have none := List.findSome?_eq_none_iff.mp apart _ (IndexMap.get?_eq_some.mp first)
          simp only [Option.map_eq_none_iff] at none
          have differs := List.find?_eq_none.mp none u
            (IndexSet.mem_toList.mpr ((mem_neighbors valid).mpr edge))
          simp [less, second] at differs
        intro t u c edge first second
        rcases Nat.lt_trichotomy t u with less | same | more
        · exact ordered t u c less edge first second
        · subst same
          exact absurd edge (by simp [interferes, Graph.not_hasEdge_self valid])
        · exact ordered u t c more (Graph.hasEdge_symm valid edge) second first

theorem checkPins_error {g : Interference} {colors : Nat} {func : String} {e : Failure}
    (run : g.checkPins colors func = .error e) :
    (∃ t c, g.pinned.get? t = some c) ∧
      ((∃ t c, e = .config (.pinBeyondColors t func c colors)) ∨
        ∃ t u c, e = .internal func (.sharedColor t u c) (some (g.dump func).pretty)) := by
  cases beyond : g.pinBeyond? colors with
  | some pin =>
    rw [checkPins_of_beyond func beyond] at run
    cases run
    have entry := List.mem_of_find?_eq_some beyond
    exact ⟨⟨pin.1, pin.2, IndexMap.get?_eq_some.mpr entry⟩, Or.inl ⟨pin.1, pin.2, rfl⟩⟩
  | none =>
    cases shared : g.sharedPin? with
    | some pins =>
      rw [checkPins_of_shared func beyond shared] at run
      cases run
      rw [sharedPin?_def] at shared
      obtain ⟨e, entry, _⟩ := List.exists_of_findSome?_eq_some shared
      exact ⟨⟨e.1, e.2, IndexMap.get?_eq_some.mpr entry⟩,
        Or.inr ⟨pins.1, pins.2.1, pins.2.2, rfl⟩⟩
    | none =>
      rw [checkPins_of_none func beyond shared] at run
      cases run

end Interference

end RegisterColoring
