import RegisterColoring.Proofs.Attempts
import RegisterColoring.Proofs.Pruning
import RegisterColoring.Proofs.Resolved

namespace RegisterColoring

/-- The states that the rounds of an allocation pass through, when they begin with `f₀`. -/
inductive Reached (s : Settings) (f₀ : Func) : List Round → IndexMap Slot → Func → Prop
  | start : Reached s f₀ [] ∅ f₀
  | next {rounds : List Round} {slots spilled : IndexMap Slot} {f g : Func} {a : Attempt} :
      Reached s f₀ rounds slots f → f.attempt s = .ok a →
      a.func.spill a.coloring.spilled.toList = .ok (spilled, g) → spilled.isEmpty = false →
      Reached s f₀ (rounds ++ [a.round (rounds.length + 1) spilled])
        (slots.insertAll spilled.entries) g

/-- What holds of every state that the rounds pass through. -/
structure Progress (f₀ : Func) (rounds : List Round) (slots : IndexMap Slot) (f : Func) : Prop where
  initial : f₀.WellFormed
  wellFormed : f.WellFormed
  reachable : ∀ b < f.blocks.length, b ∈ f.reachable
  name : f.name = f₀.name
  params : f.params = f₀.params
  pinned : f.pinned = f₀.pinned
  temps : ∀ t ∈ f.allTemps, t ∈ f₀.allTemps ∨ t ∈ f.spillTemps
  fresh : ∀ t ∈ f.spillTemps, f₀.nextTemp ≤ t
  counters : f₀.nextTemp ≤ f.nextTemp ∧ f₀.numSlots ≤ f.numSlots
  origin : ∀ (t : Temp) (s : Nat), slots.get? t = some s →
    t ∈ f₀.allTemps ∧ f₀.pinned.contains t = false ∧ f₀.numSlots ≤ s ∧ s < f.numSlots
  injective : ∀ t u s, slots.get? t = some s → slots.get? u = some s → t = u
  gone : ∀ t, slots.contains t = true → ∀ i ∈ f.instrs, t ∉ i.temps
  stackParams : ∀ t, f.stackParams.contains t = true ↔ t ∈ f.params ∧ slots.contains t = true
  spilled : ∀ t s, slots.get? t = some s ↔ ∃ r ∈ rounds, r.spilled.get? t = some s
  disjoint : rounds.Pairwise fun r q =>
    ∀ t, r.spilled.contains t = true → q.spilled.contains t = false
  nonempty : ∀ r ∈ rounds, r.spilled.isEmpty = false
  count : rounds.length ≤ slots.keys.size

/-- The temps that a round has to place have not been spilled before. -/
theorem Progress.mem_nodes {s : Settings} {f₀ f : Func} {rounds : List Round}
    {slots : IndexMap Slot} {a : Attempt} (progress : Progress f₀ rounds slots f)
    (attempts : f.Attempts s a) (t : Temp) :
    t ∈ a.graph.graph.nodes ↔ t ∈ a.func.allTemps ∧ slots.contains t = false := by
  have trims := attempts.prepares.trims
  have all : ∀ b < a.func.blocks.length, b ∈ a.func.reachable := by
    rw [trims.length, trims.reachable_eq]
    exact progress.reachable
  have params : a.func.params = f.params := by rw [trims.fields]
  have stack : a.func.stackParams = f.stackParams := by rw [trims.fields]
  have pinned : a.func.pinned = f₀.pinned := by
    rw [trims.fields]
    exact progress.pinned
  have register : t ∈ a.func.registerParams ↔ t ∈ a.func.params ∧ slots.contains t = false := by
    unfold Func.registerParams
    rw [List.mem_filter, stack, params]
    refine and_congr_right fun param => ?_
    have spilled := progress.stackParams t
    rw [Bool.not_eq_true', Bool.eq_false_iff, Bool.eq_false_iff]
    exact not_congr (spilled.trans ⟨And.right, fun stored => ⟨param, stored⟩⟩)
  have absent : (a.func.pinned.contains t = true ∨ ∃ i ∈ a.func.instrs, t ∈ i.temps) →
      slots.contains t = false := by
    intro named
    by_contra before
    rw [Bool.not_eq_false] at before
    rcases named with pin | ⟨i, member, named⟩
    · obtain ⟨slot, found⟩ := IndexMap.contains_iff.mp before
      rw [pinned, (progress.origin t slot found).2.1] at pin
      cases pin
    · exact progress.gone t before i (trims.instrs_subset member) named
  rw [attempts.graph.mem_nodes (trims.wellFormed progress.wellFormed) attempts.prepares.liveness all,
    Func.mem_allTemps, register]
  constructor
  · rintro (⟨param, new⟩ | pin | named)
    · exact ⟨Or.inr (Or.inl param), new⟩
    · exact ⟨Or.inl pin, absent (Or.inl pin)⟩
    · exact ⟨Or.inr (Or.inr named), absent (Or.inr named)⟩
  · rintro ⟨pin | param | named, new⟩
    · exact Or.inr (Or.inl pin)
    · exact Or.inl ⟨param, new⟩
    · exact Or.inr (Or.inr named)

/-- The temps that a round spills are new: they are temps of the function that entered the rounds,
not pinned, and no earlier round has spilled them. -/
theorem Progress.candidates {s : Settings} {f₀ f : Func} {rounds : List Round}
    {slots : IndexMap Slot} {a : Attempt} (progress : Progress f₀ rounds slots f)
    (attempts : f.Attempts s a) {t : Temp} (spilled : t ∈ a.coloring.spilled) :
    t ∈ a.func.allTemps ∧ t ∈ f₀.allTemps ∧ f₀.pinned.contains t = false ∧
      slots.contains t = false := by
  have trims := attempts.prepares.trims
  obtain ⟨unplaced, written, _⟩ := attempts.selected.spilled t spilled
  obtain ⟨node, unpinned⟩ := Interference.mem_unplaced.mp unplaced
  obtain ⟨inside, new⟩ := (progress.mem_nodes attempts t).mp node
  refine ⟨inside, ?_, ?_, new⟩
  · refine (progress.temps t (trims.allTemps_subset inside)).resolve_right fun spill => written ?_
    rw [trims.fields]
    exact spill
  · rw [← progress.pinned]
    rw [attempts.graph.pinned, trims.fields] at unpinned
    exact unpinned

theorem Progress.start {f₀ : Func} (wf : f₀.WellFormed)
    (all : ∀ b < f₀.blocks.length, b ∈ f₀.reachable) (written : f₀.spillTemps = ∅)
    (registers : f₀.stackParams = ∅) : Progress f₀ [] ∅ f₀ where
  initial := wf
  wellFormed := wf
  reachable := all
  name := rfl
  params := rfl
  pinned := rfl
  temps t member := Or.inl member
  fresh t member := by
    rw [written] at member
    exact absurd member (IndexSet.not_mem_empty t)
  counters := ⟨Nat.le_refl _, Nat.le_refl _⟩
  origin t s found := by cases found
  injective t u s found := by cases found
  gone t found := by cases found
  stackParams t := by
    rw [registers]
    simp [IndexMap.contains]
  spilled t s := by simp
  disjoint := .nil
  nonempty r member := absurd member List.not_mem_nil
  count := Nat.zero_le _

theorem Func.Spills.of_isEmpty {f g : Func} {temps : List Temp} {spilled : IndexMap Slot}
    (run : f.spill temps = .ok (spilled, g)) (empty : spilled.isEmpty = true) :
    temps = [] ∧ spilled = ∅ ∧ g = f := by
  by_cases none : temps = []
  · subst none
    rw [Func.spill_nil] at run
    cases run
    exact ⟨rfl, rfl, rfl⟩
  · have spills := Func.spill_ok run
    obtain ⟨t, rest, split⟩ := List.exists_cons_of_ne_nil none
    obtain ⟨slot, found⟩ := (spills.contains_iff (t := t)).mp (by rw [split]; simp)
    have absent := IndexMap.isEmpty_iff.mp empty t
    cases absent.symm.trans found

/-- What a round that spills adds to the slots. -/
structure Progress.Adds (f₀ f : Func) (slots : IndexMap Slot) (a : Attempt)
    (spilled : IndexMap Slot) (g : Func) : Prop where
  spills : a.func.Spills a.coloring.spilled.toList spilled g
  wellFormed : a.func.WellFormed
  trims : f.TrimsStar a.func
  inside : ∀ t ∈ a.coloring.spilled, t ∈ a.func.allTemps
  old : ∀ t slot, spilled.get? t = some slot →
    t ∈ f₀.allTemps ∧ f₀.pinned.contains t = false ∧ slots.get? t = none
  lookup : ∀ t slot, (slots.insertAll spilled.entries).get? t = some slot ↔
    spilled.get? t = some slot ∨ slots.get? t = some slot

theorem Progress.adds_of_spill {s : Settings} {f₀ f g : Func} {rounds : List Round}
    {slots spilled : IndexMap Slot} {a : Attempt} (progress : Progress f₀ rounds slots f)
    (attempts : f.Attempts s a)
    (run : a.func.spill a.coloring.spilled.toList = .ok (spilled, g)) :
    Progress.Adds f₀ f slots a spilled g := by
  have spills := Func.spill_ok run
  have old : ∀ t slot, spilled.get? t = .some slot →
      t ∈ f₀.allTemps ∧ f₀.pinned.contains t = false ∧ slots.get? t = none := by
    intro t slot found
    have member : t ∈ a.coloring.spilled := spills.contains_iff.mpr ⟨_, found⟩
    obtain ⟨_, inside, unpinned, new⟩ := progress.candidates attempts member
    exact ⟨inside, unpinned, IndexMap.contains_eq_false.mp new⟩
  refine ⟨spills, attempts.prepares.trims.wellFormed progress.wellFormed, attempts.prepares.trims,
    fun t member => (progress.candidates attempts member).1, old, fun t slot => ?_⟩
  rw [IndexMap.get?_insertAll_entries]
  cases found : spilled.get? t with
  | none => simp
  | some other => simp [(old t other found).2.2]

end RegisterColoring
