import RegisterColoring.Proofs.Progress

namespace RegisterColoring

namespace Progress.Adds

variable {f₀ f g : Func} {slots spilled : IndexMap Slot} {a : Attempt}

theorem numSlots_eq (adds : Progress.Adds f₀ f slots a spilled g) :
    a.func.numSlots = f.numSlots := by
  rw [adds.trims.fields]

theorem bounds (adds : Progress.Adds f₀ f slots a spilled g) {t : Temp} {s : Nat}
    (found : spilled.get? t = some s) : f.numSlots ≤ s ∧ s < g.numSlots := by
  have bounds := adds.spills.slot_bounds found
  rwa [adds.numSlots_eq] at bounds

theorem numSlots_le (adds : Progress.Adds f₀ f slots a spilled g) : f.numSlots ≤ g.numSlots := by
  rw [adds.spills.numSlots, adds.numSlots_eq]
  exact Nat.le_add_right _ _

theorem nextTemp_eq (adds : Progress.Adds f₀ f slots a spilled g) :
    a.func.nextTemp = f.nextTemp := by
  rw [adds.trims.fields]

theorem nextTemp_le (adds : Progress.Adds f₀ f slots a spilled g) : f.nextTemp ≤ g.nextTemp := by
  have grows := adds.spills.nextTemp_le
  rwa [adds.nextTemp_eq] at grows

theorem mem_spillTemps (adds : Progress.Adds f₀ f slots a spilled g) {t : Nat} :
    t ∈ g.spillTemps ↔ t ∈ f.spillTemps ∨ f.nextTemp ≤ t ∧ t < g.nextTemp := by
  rw [adds.spills.spillTemps, show a.func.spillTemps = f.spillTemps by rw [adds.trims.fields],
    adds.nextTemp_eq]

theorem params_eq (adds : Progress.Adds f₀ f slots a spilled g) : g.params = f.params := by
  rw [adds.spills.params, adds.trims.fields]

theorem stackParams_iff (adds : Progress.Adds f₀ f slots a spilled g) {t : Temp} :
    g.stackParams.contains t = true ↔
      f.stackParams.contains t = true ∨ t ∈ f.params ∧ spilled.contains t = true := by
  rw [adds.spills.stackParams, show a.func.stackParams = f.stackParams by rw [adds.trims.fields],
    show a.func.params = f.params by rw [adds.trims.fields]]
  rw [IndexMap.contains_insertAll, or_comm]
  refine or_congr_right ⟨?_, ?_⟩
  · rintro ⟨slot, member⟩
    obtain ⟨p, param, found⟩ := List.mem_filterMap.mp member
    obtain ⟨v, stored, same⟩ := Option.map_eq_some_iff.mp found
    cases same
    exact ⟨param, IndexMap.contains_iff.mpr ⟨slot, stored⟩⟩
  · rintro ⟨param, inside⟩
    obtain ⟨slot, stored⟩ := IndexMap.contains_iff.mp inside
    exact ⟨slot, List.mem_filterMap.mpr ⟨t, param, by rw [stored]; rfl⟩⟩

end Progress.Adds

namespace Progress

variable {f₀ f g : Func} {rounds : List Round} {slots spilled : IndexMap Slot} {a : Attempt}

/-- Slots of different rounds do not overlap. -/
theorem injective_next (progress : Progress f₀ rounds slots f)
    (adds : Progress.Adds f₀ f slots a spilled g) {t u : Temp} {s : Slot}
    (first : (slots.insertAll spilled.entries).get? t = some s)
    (second : (slots.insertAll spilled.entries).get? u = some s) : t = u := by
  have apart : ∀ {t u : Temp}, spilled.get? t = some s → slots.get? u ≠ some s := fun new old =>
    absurd (adds.bounds new).1 (Nat.not_le.mpr (progress.origin _ s old).2.2.2)
  rcases (adds.lookup t s).mp first with newT | oldT
  · rcases (adds.lookup u s).mp second with newU | oldU
    · exact adds.spills.slot_injective a.coloring.spilled.nodup_toList newT newU
    · exact absurd oldU (apart newT)
  · rcases (adds.lookup u s).mp second with newU | oldU
    · exact absurd oldT (apart newU)
    · exact progress.injective t u s oldT oldU

/-- Spill code removes the temps of its round, and brings none of an earlier round back. -/
theorem gone_next (progress : Progress f₀ rounds slots f)
    (adds : Progress.Adds f₀ f slots a spilled g) {t : Temp}
    (inside : (slots.insertAll spilled.entries).contains t = true) :
    ∀ i ∈ g.instrs, t ∉ i.temps := by
  intro i member named
  obtain ⟨s, found⟩ := IndexMap.contains_iff.mp inside
  rcases (adds.lookup t s).mp found with new | old
  · refine adds.spills.absent adds.wellFormed adds.inside member named ?_
    exact adds.spills.contains_iff.mpr ⟨s, new⟩
  · rcases adds.spills.temps_instrs member named with ⟨⟨j, before, namedBefore⟩, _⟩ | ⟨low, _⟩
    · exact progress.gone t (IndexMap.contains_iff.mpr ⟨s, old⟩) j
        (adds.trims.instrs_subset before) namedBefore
    · rw [adds.nextTemp_eq] at low
      have bound := progress.initial.temps t (progress.origin t s old).1
      have grown := progress.counters.1
      omega

theorem spilled_next (progress : Progress f₀ rounds slots f)
    (adds : Progress.Adds f₀ f slots a spilled g) (number : Nat) (t : Temp) (s : Slot) :
    (slots.insertAll spilled.entries).get? t = some s ↔
      ∃ r ∈ rounds ++ [a.round number spilled], r.spilled.get? t = some s := by
  rw [adds.lookup, progress.spilled]
  constructor
  · rintro (new | ⟨r, before, found⟩)
    · exact ⟨_, List.mem_append_right _ List.mem_cons_self, new⟩
    · exact ⟨r, List.mem_append_left _ before, found⟩
  · rintro ⟨r, member, found⟩
    rcases List.mem_append.mp member with before | last
    · exact Or.inr ⟨r, before, found⟩
    · rw [List.mem_singleton.mp last] at found
      exact Or.inl found

/-- What earlier rounds have spilled is not spilled again. -/
theorem disjoint_next (progress : Progress f₀ rounds slots f)
    (adds : Progress.Adds f₀ f slots a spilled g) {r : Round} (before : r ∈ rounds) {t : Temp}
    (inside : r.spilled.contains t = true) : spilled.contains t = false := by
  by_contra again
  obtain ⟨slot, found⟩ := IndexMap.contains_iff.mp inside
  obtain ⟨other, new⟩ := IndexMap.contains_iff.mp (Bool.not_eq_false _ ▸ again)
  have old := (progress.spilled t slot).mpr ⟨r, before, found⟩
  cases (adds.old t other new).2.2.symm.trans old

/-- A round that spills adds a temp to the slots. -/
theorem Adds.keys_size_lt (adds : Progress.Adds f₀ f slots a spilled g)
    (some : spilled.isEmpty = false) :
    slots.keys.size < (slots.insertAll spilled.entries).keys.size := by
  obtain ⟨t, present⟩ : ∃ t, spilled.get? t ≠ none := by
    by_contra none
    simp only [not_exists, not_not] at none
    rw [IndexMap.isEmpty_iff.mpr none] at some
    cases some
  obtain ⟨slot, new⟩ := Option.ne_none_iff_exists'.mp present
  refine IndexSet.size_lt_size (x := t) (fun u member => ?_) ?_ ?_
  · obtain ⟨s, old⟩ := IndexMap.contains_iff.mp (IndexMap.mem_keys.mp member)
    exact IndexMap.mem_keys.mpr (IndexMap.contains_iff.mpr ⟨s, (adds.lookup u s).mpr (Or.inr old)⟩)
  · rw [IndexMap.mem_keys, IndexMap.contains_eq_false.mpr (adds.old t slot new).2.2]
    exact Bool.false_ne_true
  · exact IndexMap.mem_keys.mpr
      (IndexMap.contains_iff.mpr ⟨slot, (adds.lookup t slot).mpr (Or.inl new)⟩)

/-- One more round that spills. -/
theorem next (progress : Progress f₀ rounds slots f)
    (adds : Progress.Adds f₀ f slots a spilled g) (some : spilled.isEmpty = false) (number : Nat) :
    Progress f₀ (rounds ++ [a.round number spilled]) (slots.insertAll spilled.entries) g where
  initial := progress.initial
  wellFormed := adds.spills.wellFormed adds.wellFormed
  reachable := by
    rw [adds.spills.length, adds.spills.reachable_eq, adds.trims.length, adds.trims.reachable_eq]
    exact progress.reachable
  name := by rw [adds.spills.name, adds.trims.fields, progress.name]
  params := by rw [adds.params_eq, progress.params]
  pinned := by rw [adds.spills.pinned, adds.trims.fields, progress.pinned]
  temps t member := by
    rw [adds.mem_spillTemps]
    rcases adds.spills.mem_allTemps member with old | ⟨low, high⟩
    · rcases progress.temps t (adds.trims.allTemps_subset old) with first | spill
      · exact Or.inl first
      · exact Or.inr (Or.inl spill)
    · rw [adds.nextTemp_eq] at low
      exact Or.inr (Or.inr ⟨low, high⟩)
  fresh t member := by
    rcases adds.mem_spillTemps.mp member with old | ⟨low, _⟩
    · exact progress.fresh t old
    · exact Nat.le_trans progress.counters.1 low
  counters := ⟨Nat.le_trans progress.counters.1 adds.nextTemp_le,
    Nat.le_trans progress.counters.2 adds.numSlots_le⟩
  origin t s found := by
    rcases (adds.lookup t s).mp found with new | old
    · obtain ⟨inside, unpinned, _⟩ := adds.old t s new
      obtain ⟨low, high⟩ := adds.bounds new
      exact ⟨inside, unpinned, Nat.le_trans progress.counters.2 low, high⟩
    · obtain ⟨inside, unpinned, low, high⟩ := progress.origin t s old
      exact ⟨inside, unpinned, low, Nat.lt_of_lt_of_le high adds.numSlots_le⟩
  injective _ _ _ := progress.injective_next adds
  gone _ := progress.gone_next adds
  stackParams t := by
    rw [adds.stackParams_iff, progress.stackParams, adds.params_eq, ← and_or_left]
    refine and_congr_right fun _ => ?_
    simp only [IndexMap.contains_iff, adds.lookup, exists_or]
    exact or_comm
  spilled := progress.spilled_next adds number
  disjoint := by
    refine List.pairwise_append.mpr ⟨progress.disjoint, List.pairwise_singleton _ _, ?_⟩
    intro r before q last t inside
    rw [List.mem_singleton.mp last]
    exact progress.disjoint_next adds before inside
  nonempty r member := by
    rcases List.mem_append.mp member with before | last
    · exact progress.nonempty r before
    · rw [List.mem_singleton.mp last]
      exact some
  count := by
    have before := progress.count
    have bigger := adds.keys_size_lt some
    rw [List.length_append, List.length_singleton]
    omega

end Progress

/-- Every state that the rounds pass through is one of progress. -/
theorem Reached.progress {s : Settings} {f₀ f : Func} {rounds : List Round} {slots : IndexMap Slot}
    (reached : Reached s f₀ rounds slots f) (first : Progress f₀ [] ∅ f₀) :
    Progress f₀ rounds slots f := by
  induction reached with
  | start => exact first
  | next _ attempt spill some ih =>
    have attempts := Func.attempt_ok ih.wellFormed attempt
    exact ih.next (ih.adds_of_spill attempts spill) some _

/-- No more rounds than temps. -/
theorem Progress.rounds_le {f₀ f : Func} {rounds : List Round} {slots : IndexMap Slot}
    (progress : Progress f₀ rounds slots f) : rounds.length ≤ f₀.allTemps.size := by
  refine Nat.le_trans progress.count (IndexSet.size_le_size fun t member => ?_)
  obtain ⟨slot, found⟩ := IndexMap.contains_iff.mp (IndexMap.mem_keys.mp member)
  exact (progress.origin t slot found).1

end RegisterColoring
