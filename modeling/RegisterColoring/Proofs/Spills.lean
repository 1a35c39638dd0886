import RegisterColoring.Proofs.SpillDraws

namespace RegisterColoring

namespace Spill

theorem mem_zipIdx {first s : Nat} {temps : List Temp} {t : Temp} :
    (t, s) ∈ temps.zipIdx first ↔ ∃ k : Nat, temps[k]? = some t ∧ first + k = s := by
  rw [List.mem_zipIdx_iff_le_and_getElem?_sub]
  constructor
  · rintro ⟨low, place⟩
    exact ⟨s - first, place, by simp only at low; omega⟩
  · rintro ⟨k, place, rfl⟩
    exact ⟨Nat.le_add_right _ _, by simpa using place⟩

/-- A temp that is given twice has one of the slots that are counted for it. -/
theorem place_of_slotsFrom {first s : Nat} {temps : List Temp} {t : Temp}
    (found : (slotsFrom first temps).get? t = some s) :
    ∃ k : Nat, temps[k]? = some t ∧ first + k = s :=
  mem_zipIdx.mp (IndexMap.mem_of_get?_ofList found)

theorem get?_slotsFrom {first : Nat} {temps : List Temp} (nodup : temps.Nodup) {t : Temp}
    {s : Nat} :
    (slotsFrom first temps).get? t = some s ↔ ∃ k : Nat, temps[k]? = some t ∧ first + k = s := by
  have keys : ((temps.zipIdx first).map (·.1)).Nodup := by
    rw [List.zipIdx_map_fst]
    exact nodup
  constructor
  · exact place_of_slotsFrom
  · exact fun place => IndexMap.get?_ofList_of_mem keys (mem_zipIdx.mpr place)

theorem mem_iff_get?_slotsFrom {first : Nat} {temps : List Temp} {t : Temp} :
    t ∈ temps ↔ ∃ s, (slotsFrom first temps).get? t = some s := by
  constructor
  · intro member
    obtain ⟨k, place⟩ := List.mem_iff_getElem?.mp member
    exact Option.isSome_iff_exists.mp (IndexMap.contains_insertAll.mpr
      (Or.inl ⟨first + k, mem_zipIdx.mpr ⟨k, place, rfl⟩⟩))
  · rintro ⟨s, found⟩
    obtain ⟨k, place, _⟩ := place_of_slotsFrom found
    exact List.mem_of_getElem? place

end Spill

/-- `g` is `f` with the given temps spilled into the given slots. -/
structure Func.Spills (f : Func) (temps : List Temp) (slots : IndexMap Slot) (g : Func) : Prop where
  slots_eq : slots = Spill.slotsFrom f.numSlots temps
  blocks : g.blocks = (Spill.blocksCode slots f.nextTemp f.blocks).1
  nextTemp : g.nextTemp = (Spill.blocksCode slots f.nextTemp f.blocks).2
  numSlots : g.numSlots = f.numSlots + temps.length
  spillTemps : ∀ t : Nat, t ∈ g.spillTemps ↔ t ∈ f.spillTemps ∨ f.nextTemp ≤ t ∧ t < g.nextTemp
  stackParams : g.stackParams = f.stackParams.insertAll
    (f.params.filterMap fun p => (slots.get? p).map fun slot => (p, slot))
  name : g.name = f.name
  params : g.params = f.params
  pinned : g.pinned = f.pinned

theorem Func.spill_nil (f : Func) : f.spill [] = .ok (∅, f) := rfl

/-- Spilling succeeds if there is room for the slots, and for the fresh temps if there are any. -/
theorem Func.spill_eq_ok {f g : Func} {temps : List Temp} {slots : IndexMap Slot}
    (some : temps ≠ []) : f.spill temps = .ok (slots, g) ↔
      f.numSlots + temps.length ≤ maxIndex ∧
      ((Spill.blocksCode slots f.nextTemp f.blocks).2 ≤ maxIndex ∨
        (Spill.blocksCode slots f.nextTemp f.blocks).2 = f.nextTemp) ∧
      slots = Spill.slotsFrom f.numSlots temps ∧
      g = { (f.withSlots temps).drawTo (Spill.blocksCode slots f.nextTemp f.blocks).2 with
        blocks := (Spill.blocksCode slots f.nextTemp f.blocks).1 } := by
  rw [spill, spillM_eq f some]
  by_cases fit : f.numSlots + temps.length ≤ maxIndex
  · rw [if_pos fit]
    simp only [drawn]
    constructor
    · intro run
      split at run
      · rename_i room
        cases run
        exact ⟨fit, room, rfl, rfl⟩
      · cases run
    · rintro ⟨_, room, rfl, rfl⟩
      exact congrArg (Except.map _) (if_pos room)
  · rw [if_neg fit]
    refine ⟨fun run => ?_, fun room => absurd room.1 fit⟩
    cases run

/-- Spilling nothing leaves the function as it is. -/
theorem Func.spills_nil (f : Func) : f.Spills [] ∅ f := by
  have code := Spill.blocksCode_empty f.nextTemp f.blocks
  refine ⟨rfl, by rw [code], by rw [code], rfl, fun t => ?_, ?_, rfl, rfl, rfl⟩
  · exact ⟨Or.inl, fun here => here.resolve_right fun ⟨low, high⟩ => Nat.not_lt_of_le low high⟩
  · have none : (f.params.filterMap fun p => ((∅ : IndexMap Slot).get? p).map fun slot => (p, slot)) =
        [] := List.filterMap_eq_nil_iff.mpr fun p _ => rfl
    rw [none]
    rfl

theorem Func.spill_ok {f g : Func} {temps : List Temp} {slots : IndexMap Slot}
    (run : f.spill temps = .ok (slots, g)) : f.Spills temps slots g := by
  by_cases none : temps = []
  · subst none
    cases (spill_nil f).symm.trans run
    exact f.spills_nil
  obtain ⟨_, _, rfl, rfl⟩ := (spill_eq_ok none).mp run
  refine ⟨rfl, rfl, rfl, rfl, fun t => ?_, rfl, rfl, rfl, rfl⟩
  have low := Spill.next_le_blocksCode (Spill.slotsFrom f.numSlots temps) f.nextTemp f.blocks
  show t ∈ f.spillTemps.insertAll _ ↔ _
  rw [IndexSet.mem_insertAll, List.mem_range'_1, or_comm]
  refine or_congr_right (and_congr_right fun _ => ?_)
  simp only [withSlots, Spill.placeParams, drawTo]
  omega

theorem Func.spill_error {f : Func} {temps : List Temp} {e : Failure}
    (run : f.spill temps = .error e) : e = .fault .counterExhausted := by
  by_cases none : temps = []
  · subst none
    cases run
  · rw [spill, spillM_eq f none] at run
    split at run
    · simp only [drawn] at run
      split at run
      · cases run
      · cases run
        rfl
    · cases run
      rfl

namespace Func.Spills

variable {f g : Func} {temps : List Temp} {slots : IndexMap Slot}

theorem instrs_eq (spills : f.Spills temps slots g) :
    (g.instrs, g.nextTemp) = Spill.instrsCode slots f.nextTemp f.instrs := by
  unfold instrs
  rw [Spill.blocksCode_instrs, spills.blocks, spills.nextTemp]

theorem nextTemp_le (spills : f.Spills temps slots g) : f.nextTemp ≤ g.nextTemp := by
  have last := Spill.le_last slots f.nextTemp f.instrs
  rwa [← spills.instrs_eq] at last

theorem length (spills : f.Spills temps slots g) : g.blocks.length = f.blocks.length := by
  rw [spills.blocks, Spill.blocksCode_length]

theorem place (spills : f.Spills temps slots g) {b : BlockId} {block : Block}
    (found : f.blocks[b]? = some block) : ∃ first : Nat, f.nextTemp ≤ first ∧
      (Spill.instrsCode slots first block.instrs).2 ≤ g.nextTemp ∧
      g.blocks[b]? = some { block with instrs := (Spill.instrsCode slots first block.instrs).1 } := by
  rw [spills.blocks, spills.nextTemp]
  exact Spill.blocksCode_getElem? found

theorem origin (spills : f.Spills temps slots g) {b : BlockId} {image : Block}
    (found : g.blocks[b]? = some image) : ∃ block, f.blocks[b]? = some block ∧
      ∃ first : Nat, f.nextTemp ≤ first ∧ (Spill.instrsCode slots first block.instrs).2 ≤ g.nextTemp ∧
        image = { block with instrs := (Spill.instrsCode slots first block.instrs).1 } := by
  have bound : b < f.blocks.length := by
    rw [← spills.length]
    exact (List.getElem?_eq_some_iff.mp found).1
  have old := List.getElem?_eq_getElem bound
  obtain ⟨first, low, high, place⟩ := spills.place old
  exact ⟨_, old, first, low, high, Option.some.inj (found.symm.trans place)⟩

theorem get?_eq_some (spills : f.Spills temps slots g) (nodup : temps.Nodup) {t : Temp} {s : Nat} :
    slots.get? t = some s ↔ ∃ k : Nat, temps[k]? = some t ∧ f.numSlots + k = s := by
  rw [spills.slots_eq]
  exact Spill.get?_slotsFrom nodup

theorem contains_iff (spills : f.Spills temps slots g) {t : Temp} :
    t ∈ temps ↔ ∃ s, slots.get? t = some s := by
  rw [spills.slots_eq]
  exact Spill.mem_iff_get?_slotsFrom

theorem slot_bounds (spills : f.Spills temps slots g) {t : Temp} {s : Nat}
    (found : slots.get? t = some s) : f.numSlots ≤ s ∧ s < g.numSlots := by
  rw [spills.slots_eq] at found
  obtain ⟨k, place, rfl⟩ := Spill.place_of_slotsFrom found
  have bound := (List.getElem?_eq_some_iff.mp place).1
  rw [spills.numSlots]
  exact ⟨Nat.le_add_right _ _, Nat.add_lt_add_left bound _⟩

theorem slot_injective (spills : f.Spills temps slots g) (nodup : temps.Nodup) {t u : Temp}
    {s : Slot} (first : slots.get? t = some s) (second : slots.get? u = some s) : t = u := by
  obtain ⟨j, atJ, same⟩ := (spills.get?_eq_some nodup).mp first
  obtain ⟨k, atK, sameK⟩ := (spills.get?_eq_some nodup).mp second
  have equal : j = k := by
    rw [← sameK] at same
    exact Nat.add_left_cancel same
  rw [equal] at atJ
  exact Option.some.inj (atJ.symm.trans atK)

/-- The temps of the instructions are those that were not spilled, and fresh ones. -/
theorem temps_instrs (spills : f.Spills temps slots g) {j : Instr} {t : Nat}
    (member : j ∈ g.instrs) (named : t ∈ j.temps) :
    (∃ i ∈ f.instrs, t ∈ i.temps) ∧ slots.get? t = none ∨ f.nextTemp ≤ t ∧ t < g.nextTemp := by
  have code := spills.instrs_eq
  have inside : j ∈ (Spill.instrsCode slots f.nextTemp f.instrs).1 := by
    rw [← code]
    exact member
  obtain ⟨i, old, first, low, here, high⟩ := Spill.mem_instrsCode inside
  rcases Spill.temps_instrCode here named with ⟨named, absent⟩ | ⟨above, below⟩
  · exact Or.inl ⟨⟨i, old, named⟩, absent⟩
  · refine Or.inr ⟨Nat.le_trans low above, Nat.lt_of_lt_of_le below ?_⟩
    rw [← code] at high
    exact high

theorem addressTaken (spills : f.Spills temps slots g) {j : Instr} {t : Temp}
    (member : j ∈ g.instrs) (taken : j.addressTaken? = some t) :
    ∃ i ∈ f.instrs, i.addressTaken? = some t := by
  have inside : j ∈ (Spill.instrsCode slots f.nextTemp f.instrs).1 := by
    rw [← spills.instrs_eq]
    exact member
  obtain ⟨i, old, first, _, here, _⟩ := Spill.mem_instrsCode inside
  exact ⟨i, old, Spill.addressTaken?_instrCode here taken⟩

/-- A spilled temp occurs in no instruction. -/
theorem absent (spills : f.Spills temps slots g) (wf : f.WellFormed)
    (inside : ∀ t ∈ temps, t ∈ f.allTemps) {j : Instr} {t : Nat} (member : j ∈ g.instrs)
    (named : t ∈ j.temps) : t ∉ temps := by
  intro spilled
  rcases spills.temps_instrs member named with ⟨_, none⟩ | ⟨low, _⟩
  · obtain ⟨s, found⟩ := spills.contains_iff.mp spilled
    cases none.symm.trans found
  · have bound := wf.temps t (inside t spilled)
    omega

theorem mem_allTemps (spills : f.Spills temps slots g) {t : Nat} (member : t ∈ g.allTemps) :
    t ∈ f.allTemps ∨ f.nextTemp ≤ t ∧ t < g.nextTemp := by
  rw [Func.mem_allTemps, spills.pinned, spills.params] at member
  rw [Func.mem_allTemps]
  rcases member with pin | param | ⟨j, inside, named⟩
  · exact Or.inl (Or.inl pin)
  · exact Or.inl (Or.inr (Or.inl param))
  · rcases spills.temps_instrs inside named with ⟨old, _⟩ | fresh
    · exact Or.inl (Or.inr (Or.inr old))
    · exact Or.inr fresh

theorem succs_eq (spills : f.Spills temps slots g) (b : BlockId) : g.succs b = f.succs b := by
  cases found : g.blocks[b]? with
  | some image =>
    obtain ⟨block, old, first, _, _, rfl⟩ := spills.origin found
    rw [succs_of_found found, succs_of_found old]
  | none =>
    have outside := List.getElem?_eq_none_iff.mp found
    rw [spills.length] at outside
    rw [succs_of_missing found, succs_of_missing (List.getElem?_eq_none outside)]

theorem reachable_eq (spills : f.Spills temps slots g) : g.reachable = f.reachable :=
  reachable_congr spills.length spills.succs_eq

theorem wellFormed (spills : f.Spills temps slots g) (wf : f.WellFormed) : g.WellFormed where
  nonempty := by
    intro empty
    have length := spills.length
    rw [empty] at length
    exact wf.nonempty (List.eq_nil_of_length_eq_zero length.symm)
  linked := by
    refine link_congr wf.linked spills.length (funext fun b => ?_) fun b block other found place => ?_
    · unfold edgesOf
      rw [spills.length]
      cases found : g.blocks[b]? with
      | some image =>
        obtain ⟨block, old, first, _, _, rfl⟩ := spills.origin found
        simp only [old]
        exact Spill.successorsOf_instrsCode (wf.terminators block (List.mem_of_getElem? old)) _ _
      | none =>
        have outside := List.getElem?_eq_none_iff.mp found
        rw [spills.length] at outside
        simp only [List.getElem?_eq_none outside]
    · obtain ⟨first, _, _, image⟩ := spills.place found
      cases Option.some.inj (place.symm.trans image)
      exact ⟨rfl, rfl⟩
  terminators image member := by
    obtain ⟨b, found⟩ := List.mem_iff_getElem?.mp member
    obtain ⟨block, old, first, _, _, rfl⟩ := spills.origin found
    exact Spill.instrsCode_terminatorLast (wf.terminators block (List.mem_of_getElem? old))
  temps t member := by
    rcases spills.mem_allTemps member with old | ⟨_, below⟩
    · exact Nat.lt_of_lt_of_le (wf.temps t old) spills.nextTemp_le
    · exact below
  spillTemps t member := by
    rcases (spills.spillTemps t).mp member with old | ⟨_, below⟩
    · exact Nat.lt_of_lt_of_le (wf.spillTemps t old) spills.nextTemp_le
    · exact below
  slots j member s named := by
    have inside : j ∈ (Spill.instrsCode slots f.nextTemp f.instrs).1 := by
      rw [← spills.instrs_eq]
      exact member
    obtain ⟨i, old, first, _, here, _⟩ := Spill.mem_instrsCode inside
    rcases Spill.slot?_instrCode here named with written | ⟨t, found⟩
    · rw [spills.numSlots]
      exact Nat.lt_of_lt_of_le (wf.slots i old s written) (Nat.le_add_right _ _)
    · exact (spills.slot_bounds found).2

end Func.Spills

end RegisterColoring
