import RegisterColoring.Proofs.FreeColors

namespace RegisterColoring.Coloring

/-- The number of neighbors of `t` that remain or are pinned. -/
def liveDegree (g : Interference) (remaining : List Temp) (t : Temp) : Nat :=
  ((g.neighbors t).filter fun u => u ∈ remaining || g.pinned.contains u).size

/-- The temps that remain, with their degrees. -/
def withDegrees (g : Interference) (remaining : List Temp) : List (Temp × Nat) :=
  remaining.map fun t => (t, liveDegree g remaining t)

theorem liveDegree_remove {g : Interference} (valid : g.graph.Valid) {remaining : List Temp}
    {t u : Temp} (member : t ∈ remaining) (unpinned : g.pinned.contains t = false) :
    liveDegree g remaining u =
      liveDegree g (remaining.filter (· ≠ t)) u + if u ∈ g.neighbors t then 1 else 0 := by
  have others : ∀ v, v ≠ t → (decide (v ∈ remaining) || g.pinned.contains v) =
      (decide (v ∈ remaining.filter (· ≠ t)) || g.pinned.contains v) := by
    intro v other
    have same : v ∈ remaining.filter (· ≠ t) ↔ v ∈ remaining := by simp [List.mem_filter, other]
    simp only [same]
  have sym : t ∈ g.neighbors u ↔ u ∈ g.neighbors t := by
    rw [Interference.mem_neighbors valid, Interference.mem_neighbors valid]
    exact ⟨Graph.hasEdge_symm valid, Graph.hasEdge_symm valid⟩
  unfold liveDegree
  split
  · rename_i neighbor
    refine IndexSet.size_filter_erase (sym.mpr neighbor) (by simp [member]) (by simp [unpinned])
      fun v _ other => others v other
  · rename_i apart
    rw [Nat.add_zero]
    refine congrArg IndexSet.size (IndexSet.filter_congr fun v inside => others v ?_)
    rintro rfl
    exact apart (sym.mp inside)

/-- In the beginning every neighbor remains or is pinned. -/
theorem degree_eq_liveDegree {g : Interference} (valid : g.graph.Valid) (t : Temp) :
    g.degree t = liveDegree g (g.temps.toList.filter fun t => !g.pinned.contains t) t := by
  rw [Interference.degree_eq valid]
  unfold liveDegree
  congr 1
  ext u
  rw [IndexSet.mem_filter]
  refine ⟨fun member => ⟨member, ?_⟩, fun member => member.1⟩
  have node := (Graph.mem_nodes_of_hasEdge valid ((Interference.mem_neighbors valid).mp member)).2
  have inside : u ∈ g.temps.toList := IndexSet.mem_ofList.mpr node
  cases pinned : g.pinned.contains u <;> simp [inside, pinned]

theorem lightest_mem {cost : Temp → Cost} {entries : List (Temp × Nat)} {t : Temp} {w : Weight}
    (found : lightest cost entries = some (t, w)) :
    ∃ d, (t, d) ∈ entries ∧ w = Weight.ofCost (cost t) d := by
  induction entries generalizing t w with
  | nil => exact nomatch found
  | cons head rest ih =>
    obtain ⟨u, d⟩ := head
    unfold lightest at found
    simp only at found
    split at found
    · rename_i v other later
      split at found
      · cases found
        obtain ⟨e, member, value⟩ := ih later
        exact ⟨e, List.mem_cons_of_mem _ member, value⟩
      · cases found
        exact ⟨d, List.mem_cons_self, rfl⟩
    · cases found
      exact ⟨d, List.mem_cons_self, rfl⟩

theorem lightest_isSome (cost : Temp → Cost) (entries : List (Temp × Nat)) (some : entries ≠ []) :
    ∃ t w, lightest cost entries = .some (t, w) := by
  cases entries with
  | nil => exact absurd rfl some
  | cons head rest =>
    unfold lightest
    simp only
    split
    · split
      · exact ⟨_, _, rfl⟩
      · exact ⟨_, _, rfl⟩
    · exact ⟨_, _, rfl⟩

/-- If the lightest entry has no finite weight, none has. -/
theorem lightest_infinite {cost : Temp → Cost} {entries : List (Temp × Nat)} {t : Temp}
    (found : lightest cost entries = some (t, .infinite)) :
    ∀ e ∈ entries, Weight.ofCost (cost e.1) e.2 = .infinite := by
  induction entries generalizing t with
  | nil => exact fun e member => absurd member List.not_mem_nil
  | cons head rest ih =>
    intro e member
    unfold lightest at found
    simp only at found
    split at found
    · rename_i v other later
      split at found
      · rename_i lighter
        cases found
        exact nomatch lighter
      · rename_i heavy
        simp only [Option.some.injEq, Prod.mk.injEq] at found
        rw [found.2] at heavy
        cases other with
        | finite m s => exact absurd rfl heavy
        | infinite =>
          rcases List.mem_cons.mp member with rfl | inside
          · exact found.2
          · exact ih later e inside
    · rename_i none
      simp only [Option.some.injEq, Prod.mk.injEq] at found
      cases rest with
      | nil =>
        rw [List.mem_singleton.mp member]
        exact found.2
      | cons next others =>
        obtain ⟨u, w, present⟩ := lightest_isSome cost _ (List.cons_ne_nil next others)
        cases none.symm.trans present

/-- The pushes from a list of temps: each is one that fits the colors, or none fits and it is the
lightest. -/
inductive Pushes (g : Interference) (cost : Temp → Cost) (colors : Nat) :
    List Temp → List Event → Prop
  | done : Pushes g cost colors [] []
  | simplify {remaining : List Temp} {t : Temp} {events : List Event} : t ∈ remaining →
      liveDegree g remaining t < colors →
      Pushes g cost colors (remaining.filter (· ≠ t)) events →
      Pushes g cost colors remaining (.simplify t (liveDegree g remaining t) :: events)
  | candidate {remaining : List Temp} {t : Temp} {events : List Event} : t ∈ remaining →
      (∀ u ∈ remaining, colors ≤ liveDegree g remaining u) →
      (Weight.ofCost (cost t) (liveDegree g remaining t) = .infinite → ∀ u ∈ remaining,
        Weight.ofCost (cost u) (liveDegree g remaining u) = .infinite) →
      Pushes g cost colors (remaining.filter (· ≠ t)) events →
      Pushes g cost colors remaining
        (.candidate t (Weight.ofCost (cost t) (liveDegree g remaining t)) :: events)

theorem mem_withDegrees {g : Interference} {remaining : List Temp} {t : Temp} {d : Nat} :
    (t, d) ∈ withDegrees g remaining ↔ t ∈ remaining ∧ liveDegree g remaining t = d := by
  unfold withDegrees
  rw [List.mem_map]
  constructor
  · rintro ⟨u, member, same⟩
    cases same
    exact ⟨member, rfl⟩
  · rintro ⟨member, rfl⟩
    exact ⟨t, member, rfl⟩

theorem choose_withDegrees (g : Interference) (cost : Temp → Cost) (colors : Nat)
    {remaining : List Temp} (some : remaining ≠ []) :
    ∃ event, choose cost colors (withDegrees g remaining) = .some event ∧ event.temp ∈ remaining ∧
      ∀ events, Pushes g cost colors (remaining.filter (· ≠ event.temp)) events →
        Pushes g cost colors remaining (event :: events) := by
  unfold choose
  split
  · rename_i t d found
    obtain ⟨member, degree⟩ := mem_withDegrees.mp (List.mem_of_find?_eq_some found)
    subst degree
    have fits : liveDegree g remaining t < colors := by simpa using List.find?_some found
    exact ⟨_, rfl, member, fun events later => .simplify member fits later⟩
  · rename_i none
    have crowded : ∀ u ∈ remaining, colors ≤ liveDegree g remaining u := by
      intro u inside
      have heavy := List.find?_eq_none.mp none _ (mem_withDegrees.mpr ⟨inside, rfl⟩)
      simpa using heavy
    obtain ⟨t, w, found⟩ := lightest_isSome cost (withDegrees g remaining)
      (by simpa [withDegrees] using some)
    obtain ⟨d, entry, value⟩ := lightest_mem found
    obtain ⟨member, degree⟩ := mem_withDegrees.mp entry
    subst degree
    refine ⟨.candidate t w, by rw [found]; rfl, member, fun events later => ?_⟩
    rw [value]
    refine .candidate member crowded (fun infinite u inside => ?_) later
    rw [value, infinite] at found
    exact lightest_infinite found _ (mem_withDegrees.mpr ⟨inside, rfl⟩)

theorem get?_lowerAt (degrees : IndexMap Nat) (u t : Temp) : (lowerAt degrees u).get? t =
    (degrees.get? t).map fun degree => if t = u then degree - 1 else degree := by
  unfold lowerAt
  by_cases here : t = u
  · subst here
    cases found : degrees.get? t with
    | none => simp [found]
    | some degree => simp
  · cases degrees.get? u with
    | none => simp [here]
    | some degree => simp [IndexMap.get?_insert, here]

theorem get?_lower {degrees : IndexMap Nat} {temps : List Temp} (nodup : temps.Nodup) (t : Temp) :
    (lower degrees temps).get? t =
      (degrees.get? t).map fun degree => if t ∈ temps then degree - 1 else degree := by
  induction temps generalizing degrees with
  | nil => simp [lower]
  | cons u rest ih =>
    obtain ⟨once, nodup⟩ := List.nodup_cons.mp nodup
    rw [lower, List.foldl_cons]
    refine (ih nodup).trans ?_
    rw [get?_lowerAt, Option.map_map]
    refine congrArg (Option.map · _) (funext fun degree => ?_)
    by_cases here : t = u
    · subst here
      simp [once]
    · simp [here]

/-- What holds of the temps that remain and the table of degrees: the table counts, for every node,
the neighbors that remain or are pinned. -/
structure Counted (g : Interference) (remaining : IndexSet) (degrees : IndexMap Nat) : Prop where
  nodes : ∀ t ∈ remaining, t ∈ g.graph.nodes ∧ g.pinned.contains t = false
  counts : ∀ t ∈ g.graph.nodes, degrees.get? t = some (liveDegree g remaining.toList t)

namespace Counted

variable {g : Interference} {remaining : IndexSet} {degrees : IndexMap Nat}

theorem start (valid : g.graph.Valid) : Counted g g.unpinned g.degrees where
  nodes t member := by
    obtain ⟨inside, free⟩ := IndexSet.mem_filter.mp member
    exact ⟨IndexSet.mem_ofList.mp inside, by simpa using free⟩
  counts t node := by
    have member : (t, g.degree t) ∈ g.temps.toList.map fun t => (t, g.degree t) :=
      List.mem_map.mpr ⟨t, IndexSet.mem_ofList.mpr node, rfl⟩
    rw [g.degrees_def, IndexMap.get?_ofList_of_mem ?_ member, degree_eq_liveDegree valid]
    · rfl
    · rw [List.map_map]
      exact g.temps.nodup_toList.map fun _ _ same => same

/-- The degrees of the temps that remain are those that the graph gives. -/
theorem entries_eq (counted : Counted g remaining degrees) :
    entries remaining degrees = withDegrees g remaining.toList := by
  rw [entries_def]
  refine List.map_congr_left fun t member => ?_
  rw [counted.counts t (counted.nodes t member).1, Option.getD_some]

theorem push (counted : Counted g remaining degrees) (valid : g.graph.Valid) {t : Temp}
    (member : t ∈ remaining) :
    Counted g (remaining.erase t) (lower degrees (g.neighbors t).toList) where
  nodes u inside := counted.nodes u (IndexSet.mem_erase.mp inside).1
  counts u node := by
    rw [get?_lower (g.neighbors t).nodup_toList, counted.counts u node, Option.map_some,
      liveDegree_remove valid member (counted.nodes t member).2]
    simp only [IndexSet.mem_toList]
    split
    · rfl
    · rfl

end Counted

/-- Pushing never fails. -/
theorem pushAll_ok {g : Interference} (valid : g.graph.Valid) (cost : Temp → Cost) (colors : Nat)
    (func : String) {steps : Nat} {remaining : IndexSet} {degrees : IndexMap Nat}
    (counted : Counted g remaining degrees) (room : remaining.size ≤ steps) :
    ∃ events, pushAll g cost colors func steps remaining degrees = .ok events ∧
      Pushes g cost colors remaining.toList events := by
  induction steps generalizing remaining degrees with
  | zero =>
    have empty := List.eq_nil_of_length_eq_zero (Nat.le_zero.mp room)
    rw [empty]
    exact ⟨[], rfl, .done⟩
  | succ steps ih =>
    cases more : remaining.isEmpty with
    | true =>
      rw [List.isEmpty_iff.mp more]
      exact ⟨[], pushAll_of_isEmpty more, .done⟩
    | false =>
      have some : remaining.toList ≠ [] := fun empty => by
        rw [IndexSet.isEmpty, empty] at more
        cases more
      obtain ⟨event, chosen, member, push⟩ := choose_withDegrees g cost colors some
      rw [← counted.entries_eq] at chosen
      have shorter : (remaining.erase event.temp).size < remaining.size :=
        List.length_filter_lt_length_iff_exists.mpr ⟨event.temp, member, by simp⟩
      obtain ⟨events, run, pushes⟩ := ih (counted.push valid member) (by omega)
      refine ⟨event :: events, ?_, push events pushes⟩
      rw [pushAll_of_some more chosen, run]
      rfl

end RegisterColoring.Coloring
