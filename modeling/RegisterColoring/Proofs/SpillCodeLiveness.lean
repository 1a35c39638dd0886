import RegisterColoring.Proofs.SpillFlow

namespace RegisterColoring

namespace Spill

theorem instrCode_ne_nil (slots : IndexMap Slot) (next : Nat) (i : Instr) :
    (instrCode slots next i).1 ≠ [] := by
  rcases instrCode_cases slots next i with ⟨_, code⟩ | ⟨_, _, _, _, _, _, code, _⟩
  · rw [code]
    exact List.append_ne_nil_of_right_ne_nil _ (List.cons_ne_nil _ _)
  · rw [code]
    exact List.append_ne_nil_of_right_ne_nil _ (List.cons_ne_nil _ _)

/-- Where an instruction itself stands in spill code: behind the code for the instructions before it
and behind its own loads. -/
def corePosition (slots : IndexMap Slot) (first : Temp) (pre : List Instr) (i : Instr) : Nat :=
  (instrsCode slots first pre).1.length + (loadsOf slots (instrsCode slots first pre).2 i).length

/-- Where the code for an instruction ends, with its store if there is one. -/
def lastPosition (slots : IndexMap Slot) (first : Temp) (pre : List Instr) (i : Instr) : Nat :=
  (instrsCode slots first pre).1.length +
    (instrCode slots (instrsCode slots first pre).2 i).1.length - 1

end Spill

namespace Func.Spills

variable {f g : Func} {temps : List Temp} {slots : IndexMap Slot} {t : Temp} {b : BlockId}
  {bound : Nat} {l m : Liveness}

theorem absent_iff (spills : f.Spills temps slots g) : slots.get? t = none ↔ t ∉ temps := by
  rw [spills.contains_iff, Option.eq_none_iff_forall_ne_some, not_exists]

/-- What is live inside the code for an instruction. -/
theorem mem_liveAfter_code (edges : g.EdgesInside) (again : Liveness.analyze bound g = .ok m)
    (reach : b ∈ g.reachable) {block : Block} {first : Nat}
    (place : g.blocks[b]? =
      some { block with instrs := (Spill.instrsCode slots first block.instrs).1 })
    {pre rest : List Instr} {i : Instr} (split : block.instrs = pre ++ i :: rest)
    {init tail : List Instr} {j : Instr}
    (code : (Spill.instrCode slots (Spill.instrsCode slots first pre).2 i).1 = init ++ j :: tail) :
    t ∈ m.liveAfter b ((Spill.instrsCode slots first pre).1.length + init.length) ↔
      g.LiveAt t b (tail ++ (Spill.instrsCode slots
        (Spill.instrCode slots (Spill.instrsCode slots first pre).2 i).2 rest).1) ∨
        t ∈ m.addressTaken := by
  rw [← List.length_append]
  refine Liveness.mem_liveAfter edges again reach place (i := j) ?_
  simp only [split, Spill.instrsCode_append, Spill.instrsCode_cons, code, List.append_assoc,
    List.cons_append]

variable (spills : f.Spills temps slots g) (wf : f.WellFormed)
  (run : Liveness.analyze bound f = .ok l) (again : Liveness.analyze bound g = .ok m)

include spills wf run again

theorem mem_addressTaken :
    t ∈ m.addressTaken ↔ t ∈ l.addressTaken ∧ slots.get? t = none := by
  rw [Liveness.mem_addressTaken_iff wf.edgesInside run,
    Liveness.mem_addressTaken_iff (spills.wellFormed wf).edgesInside again, spills.reachable_eq]
  constructor
  · rintro ⟨b, reach, image, place, taken⟩
    obtain ⟨block, found, first, low, _, rfl⟩ := spills.origin place
    obtain ⟨before, absent⟩ :=
      (Spill.addressTaken?_instrsCode low (wf.block_temps_lt found)).mp taken
    exact ⟨⟨b, reach, block, found, before⟩, absent⟩
  · rintro ⟨⟨b, reach, block, found, taken⟩, absent⟩
    obtain ⟨first, low, _, place⟩ := spills.place found
    exact ⟨b, reach, _, place,
      (Spill.addressTaken?_instrsCode low (wf.block_temps_lt found)).mpr ⟨taken, absent⟩⟩

/-- What is live in front of the code for some instructions, or has its address taken. -/
theorem live_iff {next : Nat} {row : List Instr} (low : f.nextTemp ≤ next)
    (below : ∀ i ∈ row, ∀ u ∈ i.temps, u < f.nextTemp) :
    g.LiveAt t b (Spill.instrsCode slots next row).1 ∨ t ∈ m.addressTaken ↔
      (f.LiveAt t b row ∨ t ∈ l.addressTaken) ∧ slots.get? t = none := by
  rw [spills.liveAt_iff wf low below, spills.mem_addressTaken wf run again, or_and_right]

/-- The sets at both ends of every block lose the spilled temps and gain nothing. -/
theorem boundaries_eq (b : BlockId) :
    m.liveIn b = (l.liveIn b).diff (.ofList temps) ∧
      m.liveOut b = (l.liveOut b).diff (.ofList temps) := by
  have edges := (spills.wellFormed wf).edgesInside
  by_cases reach : b ∈ f.reachable
  · have found := List.getElem?_eq_getElem (reachable_lt wf.edgesInside reach)
    obtain ⟨first, low, _, place⟩ := spills.place found
    have inside : b ∈ g.reachable := spills.reachable_eq ▸ reach
    constructor
    · ext t
      rw [IndexSet.mem_diff, IndexSet.mem_ofList, ← spills.absent_iff,
        Liveness.mem_liveIn wf.edgesInside run reach found,
        Liveness.mem_liveIn edges again inside place]
      exact spills.live_iff wf run again low (wf.block_temps_lt found)
    · ext t
      rw [IndexSet.mem_diff, IndexSet.mem_ofList, ← spills.absent_iff,
        Liveness.mem_liveOut wf.edgesInside run reach found,
        Liveness.mem_liveOut edges again inside place]
      have none : ∀ i ∈ ([] : List Instr), ∀ u ∈ i.temps, u < f.nextTemp := fun i member =>
        absurd member List.not_mem_nil
      exact spills.live_iff wf run again low none
  · obtain ⟨noneIn, noneOut, _⟩ := Liveness.block_of_unreachable run reach
    obtain ⟨emptyIn, emptyOut, _⟩ :=
      Liveness.block_of_unreachable again (fun inside => reach (spills.reachable_eq ▸ inside))
    rw [noneIn, noneOut, emptyIn, emptyOut]
    exact ⟨rfl, rfl⟩

variable {block : Block} {first : Nat} {pre rest : List Instr} {i : Instr}

/-- What is live behind the code for an instruction was live behind the instruction. -/
theorem live_behind (reach : b ∈ f.reachable) (found : f.blocks[b]? = some block)
    (low : f.nextTemp ≤ first) (split : block.instrs = pre ++ i :: rest) :
    g.LiveAt t b (Spill.instrsCode slots
        (Spill.instrCode slots (Spill.instrsCode slots first pre).2 i).2 rest).1 ∨
        t ∈ m.addressTaken ↔ t ∈ l.liveAfter b pre.length ∧ t ∉ temps := by
  have above := Nat.le_trans (Nat.le_trans low (Spill.le_last slots first pre))
    (Spill.next_le_free slots _ i)
  rw [Liveness.mem_liveAfter wf.edgesInside run reach found split, ← spills.absent_iff]
  refine spills.live_iff wf run again above fun j member => wf.block_temps_lt found j ?_
  rw [split]
  exact List.mem_append_right pre (List.mem_cons_of_mem i member)

/-- At the end of the code for an instruction the set is the one behind the instruction without the
spilled temps. -/
theorem liveAfter_last (reach : b ∈ f.reachable) (found : f.blocks[b]? = some block)
    (low : f.nextTemp ≤ first)
    (place : g.blocks[b]? =
      some { block with instrs := (Spill.instrsCode slots first block.instrs).1 })
    (split : block.instrs = pre ++ i :: rest) :
    m.liveAfter b (Spill.lastPosition slots first pre i) =
      (l.liveAfter b pre.length).diff (.ofList temps) := by
  obtain ⟨init, last, code⟩ : ∃ init last,
      (Spill.instrCode slots (Spill.instrsCode slots first pre).2 i).1 = init ++ [last] :=
    (List.eq_nil_or_concat' _).resolve_left (Spill.instrCode_ne_nil slots _ i)
  have position : Spill.lastPosition slots first pre i =
      (Spill.instrsCode slots first pre).1.length + init.length := by
    rw [Spill.lastPosition, code, List.length_append, List.length_singleton]
    rfl
  ext t
  rw [position, mem_liveAfter_code (spills.wellFormed wf).edgesInside again
    (spills.reachable_eq ▸ reach) place split code, List.nil_append, IndexSet.mem_diff,
    IndexSet.mem_ofList]
  exact spills.live_behind wf run again reach found low split

/-- Behind the instruction itself there is besides these at most the fresh temp that it stores. -/
theorem mem_liveAfter_core (reach : b ∈ f.reachable) (found : f.blocks[b]? = some block)
    (low : f.nextTemp ≤ first)
    (place : g.blocks[b]? =
      some { block with instrs := (Spill.instrsCode slots first block.instrs).1 })
    (split : block.instrs = pre ++ i :: rest) {t : Nat} (lt : t < f.nextTemp) :
    t ∈ m.liveAfter b (Spill.corePosition slots first pre i) ↔
      t ∈ l.liveAfter b pre.length ∧ t ∉ temps := by
  have edges := (spills.wellFormed wf).edgesInside
  have inside : b ∈ g.reachable := spills.reachable_eq ▸ reach
  have position : Spill.corePosition slots first pre i =
      (Spill.instrsCode slots first pre).1.length +
        (Spill.loadCode (Spill.loadsOf slots (Spill.instrsCode slots first pre).2 i)).length := by
    rw [Spill.corePosition, Spill.loadCode, List.length_map]
  rw [position, ← spills.live_behind wf run again reach found low split]
  rcases Spill.instrCode_cases slots (Spill.instrsCode slots first pre).2 i with
    ⟨_, code⟩ | ⟨d, slot, x, free, _, _, code, origin⟩
  · exact mem_liveAfter_code edges again inside place split (congrArg Prod.fst code)
  · refine (mem_liveAfter_code edges again inside place split (congrArg Prod.fst code)).trans
      (or_congr_left ?_)
    have fresh : t ≠ x := Nat.ne_of_lt (Nat.lt_of_lt_of_le lt (Nat.le_trans low
      (Nat.le_trans (Spill.le_last slots first pre) (Spill.le_store origin))))
    constructor
    · intro live
      cases live with
      | read used => exact absurd (List.mem_singleton.mp used) fresh
      | pass _ later => exact later
    · exact .pass fun same => by cases same

end Func.Spills

end RegisterColoring
