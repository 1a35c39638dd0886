import RegisterColoring.Proofs.Placement
import RegisterColoring.Proofs.PrunedRuns
import RegisterColoring.Proofs.SpilledRuns
import RegisterColoring.Proofs.Validity

namespace RegisterColoring

variable {Val Mem : Type}

namespace Reached

variable {s : Settings} {f₀ f : Func} {rounds : List Round} {slots : IndexMap Slot}

/-- The rounds take no new addresses. -/
theorem addressTaken (reached : Reached s f₀ rounds slots f) (first : Progress f₀ [] ∅ f₀)
    {i : Instr} {t : Temp} (member : i ∈ f.instrs) (taken : i.addressTaken? = some t) :
    ∃ j ∈ f₀.instrs, j.addressTaken? = some t := by
  induction reached generalizing i with
  | start => exact ⟨i, member, taken⟩
  | next before attempt spill some ih =>
    have progress := before.progress first
    have adds := progress.adds_of_spill (Func.attempt_ok progress.wellFormed attempt) spill
    obtain ⟨j, inside, old⟩ := adds.spills.addressTaken member taken
    exact ih (adds.trims.instrs_subset inside) old

/-- The rounds leave the behavior, if the slots hold what is spilled on the way. -/
theorem sameBehavior (reached : Reached s f₀ rounds slots f) (first : Progress f₀ [] ∅ f₀)
    {m : Machine Val Mem}
    (address : ∀ i ∈ f₀.instrs, ∀ t slot, i.addressTaken? = some t → slots.get? t = some slot →
      m.tempAddress t = m.slotAddress slot)
    (hidden : ∀ slot : Nat, m.shown slot = true → slot < f₀.numSlots) {cells : Temp → Val}
    {stored : Slot → Val} (held : ∀ t slot, slots.get? t = some slot → stored slot = cells t)
    (mem : Mem) :
    SameBehavior (f₀.program.step m) (f₀.program.start cells stored mem)
      (f.program.step m) (f.program.start cells stored mem) := by
  induction reached with
  | start => exact .refl _ _
  | @next rounds slots spilled f g a before attempt spill some ih =>
    have progress := before.progress first
    have adds := progress.adds_of_spill (Func.attempt_ok progress.wellFormed attempt) spill
    have earlier := ih
      (fun i member t slot taken found =>
        address i member t slot taken ((adds.lookup t slot).mpr (Or.inr found)))
      (fun t slot found => held t slot ((adds.lookup t slot).mpr (Or.inr found)))
    have suits : Func.Suits a.func spilled m := by
      refine ⟨fun i member t slot taken found => ?_, fun slot shown => ?_⟩
      · obtain ⟨j, inside, old⟩ := before.addressTaken first (adds.trims.instrs_subset member) taken
        exact address j inside t slot old ((adds.lookup t slot).mpr (Or.inl found))
      · rw [adds.numSlots_eq]
        exact Nat.lt_of_lt_of_le (hidden slot shown) progress.counters.2
    exact (earlier.trans
      (adds.trims.sameBehavior progress.wellFormed m cells stored mem)).trans
        (adds.spills.sameBehavior a.coloring.spilled.nodup_toList adds.wellFormed suits
          (fun t slot found => held t slot ((adds.lookup t slot).mpr (Or.inl found))) mem)

end Reached

namespace Interference.Represents

variable {g : Interference} {f : Func} {l : Liveness} {bound : Nat}

/-- A definition meets everything that is live behind it, except the source of a copy. -/
theorem interferes_of_write (graph : g.Represents f l) (wf : f.WellFormed)
    (run : Liveness.analyze bound f = .ok l) {b : BlockId} {i : Instr} {rest : List Instr}
    {d u : Temp} (reach : b ∈ f.reachable) (here : f.At b (i :: rest)) (writes : i.dest? = some d)
    (live : f.LiveAt u b rest) (other : u ≠ d) (plain : i.copy? ≠ some (d, u)) :
    g.interferes d u = true := by
  obtain ⟨block, pre, found, split, _⟩ := here
  have member := (Liveness.mem_liveAfter wf.edgesInside run reach found split).mpr (Or.inl live)
  have source : some u ≠ i.copy?.map (·.2) := by
    intro same
    obtain ⟨⟨e, v⟩, copies, rfl⟩ := Option.map_eq_some_iff.mp same.symm
    cases writes.symm.trans (Instr.dest?_of_copy copies).1
    exact plain copies
  rw [← Liveness.reachable_of_analyze run] at reach
  have point := Liveness.mem_points.mpr ⟨b, block, pre, rest, reach, found, split, rfl⟩
  exact (graph.edges d u).mpr ⟨other.symm, Or.inl (Or.inr ⟨_, point, writes, member, source⟩)⟩

/-- What is live on entry interferes. -/
theorem interferes_of_entry (graph : g.Represents f l) (wf : f.WellFormed)
    (run : Liveness.analyze bound f = .ok l) {block : Block} {t u : Temp}
    (found : f.blocks[Func.entry]? = some block) (first : f.LiveAt t Func.entry block.instrs)
    (second : f.LiveAt u Func.entry block.instrs) (other : t ≠ u) : g.interferes t u = true := by
  have live : ∀ {v : Temp}, f.LiveAt v Func.entry block.instrs → v ∈ l.liveIn Func.entry :=
    fun path => (Liveness.mem_liveIn wf.edgesInside run (Func.entry_mem_reachable wf.nonempty) found).mpr
      (Or.inl path)
  exact (graph.edges t u).mpr ⟨other, Or.inl (Or.inl ⟨Or.inr (live first), live second⟩)⟩

end Interference.Represents

namespace Allocation

/-- The register of a temp. -/
def place (a : Allocation) (t : Temp) : Option Color :=
  match a.assignment.get? t with
  | some (.reg c) => some c
  | _ => none

/-- The allocated function over registers, without the copies that do nothing. -/
def program (a : Allocation) : Program (Option Color) where
  code := a.func.program.code
  place := a.place
  dropped := a.isNop

theorem place_eq_some {a : Allocation} {t : Temp} {c : Color} :
    a.place t = some c ↔ a.assignment.get? t = some (.reg c) := by
  unfold place
  split
  · rename_i e found
    rw [found]
    simp
  · rename_i other
    simp only [reduceCtorEq, false_iff]
    exact other c

theorem copy?_of_isNop {a : Allocation} {i : Instr} (dropped : a.isNop i = true) :
    ∃ d u, i.copy? = some (d, u) ∧ a.place d = a.place u := by
  obtain ⟨d, u, c, rfl, atD, atU⟩ := isNop_iff.mp dropped
  exact ⟨d, u, rfl, by rw [place_eq_some.mpr atD, place_eq_some.mpr atU]⟩

end Allocation

namespace Allocation.Valid

variable {alloc : Allocation} {f : Func} {s : Settings} {graph : Interference} {l : Liveness}
  {bound : Nat}

/-- Every temp that an instruction names has a register. -/
theorem place_isSome (valid : alloc.Valid f s graph) (represents : graph.Represents alloc.func l)
    (wf : alloc.func.WellFormed) (run : Liveness.analyze bound alloc.func = .ok l)
    (all : ∀ b < alloc.func.blocks.length, b ∈ alloc.func.reachable) {i : Instr} {t : Temp}
    (member : i ∈ alloc.func.instrs) (named : t ∈ i.temps) : ∃ c, alloc.place t = some c := by
  have node := (represents.mem_nodes wf run all t).mpr (Or.inr (Or.inr ⟨i, member, named⟩))
  obtain ⟨c, _, found⟩ := valid.registers t node
  exact ⟨c, place_eq_some.mpr found⟩

theorem place_of_live (valid : alloc.Valid f s graph) (represents : graph.Represents alloc.func l)
    (wf : alloc.func.WellFormed) (run : Liveness.analyze bound alloc.func = .ok l)
    (all : ∀ b < alloc.func.blocks.length, b ∈ alloc.func.reachable) {b : BlockId}
    {rest : List Instr} {t : Temp} (here : alloc.func.At b rest)
    (live : alloc.func.LiveAt t b rest) : ∃ c, alloc.place t = some c := by
  obtain ⟨block, pre, found, split, _⟩ := here
  obtain ⟨i, member, used⟩ := live.used fun i inside => Func.mem_instrs.mpr ⟨b, block, found, by
    rw [split]
    exact List.mem_append_right _ inside⟩
  exact valid.place_isSome represents wf run all member (Instr.mem_temps.mpr (Or.inr used))

theorem place_ne (valid : alloc.Valid f s graph) {t u : Temp} {c : Color}
    (edge : graph.interferes t u = true) (first : alloc.place t = some c) :
    alloc.place u ≠ some c := fun second =>
  valid.apart t u c edge (place_eq_some.mp first) (place_eq_some.mp second)

/-- A valid assignment puts the temps into registers that live temps do not share. -/
theorem places (valid : alloc.Valid f s graph) (represents : graph.Represents alloc.func l)
    (wf : alloc.func.WellFormed) (run : Liveness.analyze bound alloc.func = .ok l)
    (all : ∀ b < alloc.func.blocks.length, b ∈ alloc.func.reachable) :
    alloc.func.Places alloc.program where
  code b block found := ⟨block.instrs, Func.program_code found, .refl _⟩
  missing b missing := Func.program_code_none missing
  write b reach i rest d u here writes live other shared := by
    by_contra plain
    obtain ⟨c, atD⟩ := valid.place_isSome represents wf run all here.mem_instrs
      (Instr.mem_temps.mpr (Or.inl writes))
    have edge := represents.interferes_of_write wf run reach here writes live other plain
    exact valid.place_ne edge atD (shared.trans atD)
  dropped i dropped := copy?_of_isNop dropped

end Allocation.Valid

/-- Registers and slots hold what an execution of `f` starts with: the temps that are live on entry
and the slots that `f` names. -/
structure Allocation.Holds (alloc : Allocation) (f : Func) (cells : Temp → Val) (slots : Slot → Val)
    (registers : Option Color → Val) (stored : Slot → Val) : Prop where
  registers : ∀ block, alloc.func.blocks[Func.entry]? = some block →
    ∀ t, alloc.func.LiveAt t Func.entry block.instrs → registers (alloc.place t) = cells t
  spilled : ∀ block, f.blocks[Func.entry]? = some block →
    ∀ t, f.LiveAt t Func.entry block.instrs →
      ∀ slot, alloc.assignment.get? t = some (.slot slot) → stored slot = cells t
  named : ∀ slot : Nat, slot < f.numSlots → stored slot = slots slot

/-- A temp that was spilled has the address of its slot, and stores into other slots than those
that `f` names cannot be observed. -/
structure Allocation.Fits (alloc : Allocation) (f : Func) (m : Machine Val Mem) : Prop where
  address : ∀ i ∈ f.instrs, ∀ t slot, i.addressTaken? = some t →
    alloc.assignment.get? t = some (.slot slot) → m.tempAddress t = m.slotAddress slot
  hidden : ∀ slot : Nat, m.shown slot = true → slot < f.numSlots

/-- What an execution starts with can be held: what is live on entry does not share registers, and
spilled temps do not share slots. -/
theorem Allocation.Valid.exists_holds {alloc : Allocation} {f : Func} {s : Settings}
    {graph : Interference} {l : Liveness} {bound : Nat} (valid : alloc.Valid f s graph)
    (represents : graph.Represents alloc.func l) (wf : alloc.func.WellFormed)
    (run : Liveness.analyze bound alloc.func = .ok l)
    (all : ∀ b < alloc.func.blocks.length, b ∈ alloc.func.reachable) (cells : Temp → Val)
    (slots : Slot → Val) : ∃ registers stored, alloc.Holds f cells slots registers stored := by
  obtain ⟨block, found⟩ := wf.entry_block
  have apart : Function.Injective
      fun t : { t // alloc.func.LiveAt t Func.entry block.instrs } => alloc.place t.1 := by
    intro t u shared
    by_contra other
    obtain ⟨c, place⟩ := valid.place_of_live represents wf run all (.start found) t.2
    have edge := represents.interferes_of_entry wf run found t.2 u.2 fun same =>
      other (Subtype.ext same)
    exact valid.place_ne edge place (shared.symm.trans place)
  have distinct : Function.Injective
      fun p : { p : Temp × Slot // alloc.assignment.get? p.1 = some (.slot p.2) } => p.1.2 := by
    rintro ⟨⟨t, slot⟩, first⟩ ⟨⟨u, other⟩, second⟩ shared
    cases shared
    obtain ⟨r, member, atT⟩ := (valid.slots t slot).mp first
    obtain ⟨q, inside, atU⟩ := (valid.slots u slot).mp second
    cases valid.distinct r member q inside t u slot atT atU
    rfl
  refine ⟨Function.extend
      (fun t : { t // alloc.func.LiveAt t Func.entry block.instrs } => alloc.place t.1)
      (fun t => cells t.1) fun _ => cells 0,
    Function.extend
      (fun p : { p : Temp × Slot // alloc.assignment.get? p.1 = some (.slot p.2) } => p.1.2)
      (fun p => cells p.1.1) slots, ?_, ?_, ?_⟩
  · intro first entry t live
    cases Option.some.inj (found.symm.trans entry)
    exact apart.extend_apply _ _ ⟨t, live⟩
  · intro block _ t _ slot place
    exact distinct.extend_apply _ _ ⟨(t, slot), place⟩
  · intro slot below
    refine Function.extend_apply' _ _ _ ?_
    rintro ⟨⟨⟨t, other⟩, place⟩, rfl⟩
    obtain ⟨r, member, atT⟩ := (valid.slots t other).mp place
    exact absurd (valid.range r member t other atT).1 (Nat.not_le_of_lt below)

/-- Register allocation preserves meaning: an execution of the allocated function with registers
behaves like one of the function itself, from all registers and slots that hold what the latter
starts with; and such registers and slots there are. -/
theorem Func.allocate_sameBehavior {src : Source.Func} {automatic : Bool} {f : Func} {s : Settings}
    {alloc : Allocation} (source : Func.ofSource src automatic = .ok f)
    (run : f.allocate s = .ok alloc) (m : Machine Val Mem) (fits : alloc.Fits f m)
    (cells : Temp → Val) (slots : Slot → Val) (mem : Mem) :
    (∃ registers stored, alloc.Holds f cells slots registers stored) ∧
      ∀ registers stored, alloc.Holds f cells slots registers stored →
        SameBehavior (f.program.step m) (f.program.start cells slots mem)
          (alloc.program.step m) (alloc.program.start registers stored mem) := by
  obtain ⟨g, r, rounds, spilled, h, a, stages⟩ := Func.allocate_stages source run
  have wf := Func.ofSource_wellFormed source
  refine ⟨stages.valid.exists_holds stages.graph stages.wellFormed stages.liveness stages.reachable
    cells slots, fun registers stored holds => ?_⟩
  obtain ⟨first, atFirst⟩ := wf.entry_block
  obtain ⟨block, found⟩ := stages.wellFormed.entry_block
  have numSlots : g.numSlots = f.numSlots := by rw [stages.prunes.fields]
  -- What is spilled on the way gets its first value from its slot, which only changes temps that
  -- are not live.
  let filled : Temp → Val := fun t => ((spilled.get? t).map stored).getD (cells t)
  have original : SameBehavior (f.program.step m) (f.program.start cells slots mem)
      (f.program.step m) (f.program.start filled slots mem) := by
    refine f.places_self.sameBehavior wf m atFirst (fun t live => ?_) slots mem
    cases place : spilled.get? t with
    | none => simp only [program_place, id_eq, filled, place, Option.map_none, Option.getD_none]
    | some slot =>
      simp only [program_place, id_eq, filled, place, Option.map_some, Option.getD_some]
      exact holds.spilled first atFirst t live slot (stages.get?_slot.mpr place)
  have pruned := stages.prunes.sameBehavior wf m filled holds.named mem
  have rewritten : SameBehavior (g.program.step m) (g.program.start filled stored mem)
      (h.program.step m) (h.program.start filled stored mem) := by
    refine stages.reached.sameBehavior stages.first (fun i member t slot taken place => ?_)
      (fun slot shown => ?_) (fun t slot place => ?_) mem
    · obtain ⟨old, inside, rfl⟩ := stages.prunes.mem_instrs wf member
      rw [Instr.addressTaken?_mapTargets] at taken
      exact fits.address old inside t slot taken (stages.get?_slot.mpr place)
    · rw [numSlots]
      exact fits.hidden slot shown
    · simp only [filled, place, Option.map_some, Option.getD_some]
  have trimmed := stages.trims.sameBehavior stages.progress.wellFormed m filled stored mem
  have placed : SameBehavior (alloc.func.program.step m) (alloc.func.program.start filled stored mem)
      (alloc.program.step m) (alloc.program.start registers stored mem) := by
    refine (stages.valid.places stages.graph stages.wellFormed stages.liveness
      stages.reachable).sameBehavior stages.wellFormed m found (fun t live => ?_) stored mem
    obtain ⟨c, place⟩ := stages.valid.place_of_live stages.graph stages.wellFormed stages.liveness
      stages.reachable (.start found) live
    have kept : spilled.get? t = none := by
      refine Option.eq_none_iff_forall_ne_some.mpr fun slot inSlot => ?_
      cases (stages.get?_slot.mpr inSlot).symm.trans (Allocation.place_eq_some.mp place)
    simp only [filled, kept, Option.map_none, Option.getD_none]
    exact holds.registers block found t live
  exact (((original.trans pruned).trans rewritten).trans trimmed).trans placed

theorem sumFunc_sameBehavior :
    ∃ alloc, sumFunc.allocate { colors := 2 } = .ok alloc ∧ alloc.Fits sumFunc adder ∧
      (∃ registers stored, alloc.Holds sumFunc (fun t => (t : Int)) (fun _ => 0) registers stored) ∧
      ∀ registers stored, alloc.Holds sumFunc (fun t => (t : Int)) (fun _ => 0) registers stored →
        SameBehavior (sumFunc.program.step adder)
          (sumFunc.program.start (fun t => (t : Int)) (fun _ => 0) ())
          (alloc.program.step adder) (alloc.program.start registers stored ()) := by
  obtain ⟨alloc, run⟩ := sumFunc_allocates
  have untaken : ∀ i ∈ sumFunc.instrs, i.addressTaken? = none := by decide
  have fits : alloc.Fits sumFunc adder := by
    refine ⟨fun i member t slot taken _ => ?_, fun slot shown => (nomatch shown)⟩
    cases (untaken i member).symm.trans taken
  exact ⟨alloc, run, fits, Func.allocate_sameBehavior ofSource_sumSource run adder fits _ _ ()⟩

end RegisterColoring
