import RegisterColoring.Proofs.Limits
import RegisterColoring.Proofs.SpilledRuns

namespace RegisterColoring

/-- Whether the instruction reads or writes the value of the temp. Taking its address is neither. -/
def Instr.accesses (i : Instr) (t : Temp) : Bool :=
  i.dest? = some t || t ∈ i.uses && i.addressTaken? ≠ some t

theorem Instr.accesses_iff {i : Instr} {t : Temp} :
    i.accesses t = true ↔ i.dest? = some t ∨ t ∈ i.uses ∧ i.addressTaken? ≠ some t := by
  simp [accesses]

namespace Spill

variable {slots : IndexMap Slot} {next : Nat} {temps : List Temp}

theorem map_temp_reloads (slots : IndexMap Slot) (next : Nat) (temps : List Temp) :
    (reloads slots next temps).map (·.temp) = temps.filter fun t => (slots.get? t).isSome := by
  induction temps generalizing next with
  | nil => rfl
  | cons t rest ih =>
    cases stored : slots.get? t with
    | none => rw [reloads_cons_none stored, List.filter_cons_of_neg (by simp [stored]), ih]
    | some slot =>
      rw [reloads_cons_some stored, List.filter_cons_of_pos (by simp [stored]), List.map_cons, ih]

theorem fresh?_eq_none {loads : List Reload} {t : Temp} :
    fresh? loads t = none ↔ t ∉ loads.map (·.temp) := by
  unfold fresh?
  rw [Option.map_eq_none_iff, List.find?_eq_none, List.mem_map]
  constructor
  · rintro none ⟨r, inside, same⟩
    exact none r inside (decide_eq_true same)
  · intro none r inside same
    exact none ⟨r, inside, of_decide_eq_true same⟩

/-- The redirected instruction reads what the instruction reads, apart from addresses. -/
theorem mem_uses_redirect {i : Instr} {t : Temp} {slot : Slot} (stored : slots.get? t = some slot) :
    t ∈ (redirect slots i).uses ↔ t ∈ i.uses ∧ i.addressTaken? ≠ some t := by
  rcases redirect_cases slots i with ⟨same, absent⟩ | ⟨d, v, other, rfl, _, same⟩
  · rw [same]
    refine (and_iff_left_of_imp fun _ taken => ?_).symm
    cases (absent t taken).symm.trans stored
  · rw [same]
    constructor
    · exact fun used => absurd used List.not_mem_nil
    · rintro ⟨used, other⟩
      have isVar : t = v := by
        simpa [Instr.uses, Instr.operands, Operand.temp?, distinct] using used
      exact absurd (congrArg some isVar.symm) other

/-- The temps that are reloaded are the spilled ones that the instruction reads. -/
theorem mem_map_temp_loadsOf {i : Instr} {t : Temp} :
    t ∈ (loadsOf slots next i).map (·.temp) ↔
      (∃ s, slots.get? t = some s) ∧ t ∈ i.uses ∧ i.addressTaken? ≠ some t := by
  rw [loadsOf, map_temp_reloads, List.mem_filter, Option.isSome_iff_exists, and_comm]
  refine and_congr_right fun spilled => ?_
  obtain ⟨slot, stored⟩ := spilled
  exact mem_uses_redirect stored

theorem nodup_map_temp_loadsOf (slots : IndexMap Slot) (next : Nat) (i : Instr) :
    ((loadsOf slots next i).map (·.temp)).Nodup := by
  rw [loadsOf, map_temp_reloads]
  exact (Instr.uses_nodup _).filter _

/-- An instruction takes one fresh temp for each spilled temp that it accesses. -/
theorem instrCode_free (nodup : temps.Nodup) (keys : ∀ t, t ∈ temps ↔ ∃ s, slots.get? t = some s)
    (next : Nat) (i : Instr) :
    (instrCode slots next i).2 = next + (temps.filter i.accesses).length := by
  have readsNodup := nodup_map_temp_loadsOf slots next i
  have reads : ∀ t, t ∈ (loadsOf slots next i).map (·.temp) ↔
      t ∈ temps ∧ t ∈ i.uses ∧ i.addressTaken? ≠ some t := by
    intro t
    rw [mem_map_temp_loadsOf, keys]
  have count : ∀ accessed : List Temp, accessed.Nodup →
      (∀ t, t ∈ accessed ↔ t ∈ temps ∧ i.accesses t = true) →
      (temps.filter i.accesses).length = accessed.length := by
    intro accessed distinct same
    refine ((List.perm_ext_iff_of_nodup (nodup.filter _) distinct).mpr fun t => ?_).length_eq
    rw [List.mem_filter, same]
  -- The reloaded temps are those that are read; one that is only written comes in addition.
  rcases instrCode_cases slots next i with ⟨plain, code⟩ | ⟨d, slot, x, free, writes, stored, code,
    origin⟩
  · rw [code, count _ readsNodup fun t => ?_, List.length_map]
    rw [reads, Instr.accesses_iff]
    refine and_congr_right fun spilled => (or_iff_right fun writes => ?_).symm
    obtain ⟨slot, stored⟩ := (keys t).mp spilled
    cases (plain t writes).symm.trans stored
  · have spilled : d ∈ temps := (keys d).mpr ⟨slot, stored⟩
    rcases origin with ⟨shared, rfl⟩ | ⟨unread, rfl, rfl⟩
    · have read : d ∈ (loadsOf slots next i).map (·.temp) := by
        obtain ⟨r, inside, same, _⟩ := fresh?_mem shared
        exact List.mem_map.mpr ⟨r, inside, same⟩
      rw [code, count _ readsNodup fun t => ?_, List.length_map]
      rw [reads, Instr.accesses_iff, writes]
      refine and_congr_right fun _ => (or_iff_right_of_imp fun same => ?_).symm
      cases same
      exact ((reads d).mp read).2
    · rw [code, count (d :: (loadsOf slots next i).map (·.temp))
        (List.nodup_cons.mpr ⟨fresh?_eq_none.mp unread, readsNodup⟩) fun t => ?_, List.length_cons,
        List.length_map]
      · rfl
      · rw [List.mem_cons, reads, Instr.accesses_iff, writes]
        constructor
        · rintro (rfl | ⟨inside, read⟩)
          · exact ⟨spilled, Or.inl rfl⟩
          · exact ⟨inside, Or.inr read⟩
        · rintro ⟨inside, same | read⟩
          · exact Or.inl (Option.some.inj same).symm
          · exact Or.inr ⟨inside, read⟩

theorem instrsCode_last (nodup : temps.Nodup) (keys : ∀ t, t ∈ temps ↔ ∃ s, slots.get? t = some s)
    (next : Nat) (instrs : List Instr) : (instrsCode slots next instrs).2 =
      next + (instrs.flatMap fun i => temps.filter i.accesses).length := by
  induction instrs generalizing next with
  | nil => rfl
  | cons i rest ih =>
    rw [instrsCode_cons, ih, instrCode_free nodup keys, List.flatMap_cons, List.length_append,
      Nat.add_assoc]

end Spill

namespace Func

variable {f g : Func} {temps : List Temp} {slots : IndexMap Slot}

/-- The accesses to the temps, instruction by instruction. -/
def accesses (f : Func) (temps : List Temp) : List Temp :=
  f.instrs.flatMap fun i => temps.filter i.accesses

/-- No counter overflows when the temps are spilled. -/
structure RoomFor (f : Func) (temps : List Temp) : Prop where
  slots : f.numSlots + temps.length ≤ maxIndex
  temps : f.nextTemp + (f.accesses temps).length ≤ maxIndex

/-- Spilling succeeds exactly if there is room for the slots and for the fresh temps. -/
theorem spill_ok_iff (limits : f.WithinLimits) (nodup : temps.Nodup) :
    (∃ slots g, f.spill temps = .ok (slots, g)) ↔ f.RoomFor temps := by
  by_cases none : temps = []
  · subst none
    have unread : f.accesses [] = [] := List.flatMap_eq_nil_iff.mpr fun _ _ => rfl
    refine ⟨fun _ => ⟨limits.slots, ?_⟩, fun _ => ⟨∅, f, spill_nil f⟩⟩
    rw [unread]
    exact limits.temps
  · have last : (Spill.blocksCode (Spill.slotsFrom f.numSlots temps) f.nextTemp f.blocks).2 =
        f.nextTemp + (f.accesses temps).length := by
      have keys : ∀ t, t ∈ temps ↔ ∃ s, (Spill.slotsFrom f.numSlots temps).get? t = some s :=
        fun _ => Spill.mem_iff_get?_slotsFrom
      have code := Spill.instrsCode_last nodup keys f.nextTemp f.instrs
      rwa [instrs, Spill.blocksCode_instrs] at code
    constructor
    · intro spilled
      obtain ⟨slots, g, run⟩ := spilled
      obtain ⟨slotRoom, tempRoom, rfl, _⟩ := (spill_eq_ok none).mp run
      rw [last] at tempRoom
      refine ⟨slotRoom, ?_⟩
      rcases tempRoom with fits | unread
      · exact fits
      · exact Nat.le_trans (Nat.le_of_eq unread) limits.temps
    · intro room
      have tempRoom := room.temps
      rw [← last] at tempRoom
      exact ⟨_, _, (spill_eq_ok none).mpr ⟨room.slots, .inl tempRoom, rfl, rfl⟩⟩

/-- In `g` the temps live in their slots and nowhere else, and executions of `f` and `g` from starts
that mirror each other do so at every instruction of `f`. -/
structure Mirrored (f : Func) (temps : List Temp) (slots : IndexMap Slot) (g : Func) : Prop where
  keys : ∀ t, t ∈ temps ↔ ∃ s, slots.get? t = some s
  absent : ∀ j ∈ g.instrs, ∀ t ∈ j.temps, t ∉ temps
  distinct : ∀ t u s, slots.get? t = some s → slots.get? u = some s → t = u
  unused : ∀ t s, slots.get? t = some s →
    (∀ i ∈ f.instrs, i.slot? ≠ some s) ∧ ∀ p, f.stackParams.get? p ≠ some s
  behavior : ∀ {Val Mem : Type} (m : Machine Val Mem), f.Suits slots m →
    ∀ cells stored others moved, f.Mirrors slots cells stored others moved → ∀ mem,
      SameBehavior (f.program.step m) (f.program.start cells stored mem)
        (g.program.step m) (g.program.start others moved mem)
  boundaries : ∀ {Val Mem : Type} (m : Machine Val Mem), f.Suits slots m →
    ∀ cells stored others moved, f.Mirrors slots cells stored others moved → ∀ mem n es c,
      Runs (f.program.step m) n (f.program.start cells stored mem) es c →
        ∃ k e, Runs (g.program.step m) k (g.program.start others moved mem) es e ∧
          f.Follows slots c e

theorem Spills.mirrored (spills : f.Spills temps slots g) (wf : f.WellFormed)
    (bound : f.StackBound) (nodup : temps.Nodup) (inside : ∀ t ∈ temps, t ∈ f.allTemps) :
    f.Mirrored temps slots g where
  keys _ := spills.contains_iff
  absent _ member _ named := spills.absent wf inside member named
  distinct _ _ _ := spills.slot_injective nodup
  unused t s found := by
    have fresh := (spills.slot_bounds found).1
    refine ⟨fun i member named => ?_, fun p place => ?_⟩
    · exact absurd fresh (Nat.not_le_of_lt (wf.slots i member s named))
    · exact absurd fresh (Nat.not_le_of_lt (bound p s place))
  behavior m suits cells stored others moved data mem :=
    (spills.simulation nodup wf suits).sameBehavior (spills.follows_start wf data mem)
  boundaries m suits cells stored others moved data mem n es c run :=
    (spills.simulation nodup wf suits).forward (spills.follows_start wf data mem) run

/-- Whatever temps are spilled, if there is room for it the function keeps its meaning. -/
theorem spill_mirrored (derived : f.Derived) (nodup : temps.Nodup)
    (inside : ∀ t ∈ temps, t ∈ f.allTemps) :
    ((∃ slots g, f.spill temps = .ok (slots, g)) ↔ f.RoomFor temps) ∧
      ∀ slots g, f.spill temps = .ok (slots, g) → f.Mirrored temps slots g :=
  ⟨spill_ok_iff derived.withinLimits nodup, fun _ _ run =>
    (spill_ok run).mirrored derived.wellFormed derived.stackBound nodup inside⟩

end Func

/-- A parameter that is read twice, then read and written at once, and a value that is written under
its address. -/
def squareSource : Source.Func :=
  ⟨"square", [⟨0, none⟩],
    [.statement (.assign 1 (.binary .mul (.temp 0) (.temp 0))),
      .statement (.assign 0 (.binary .add (.temp 0) (.temp 1))),
      .statement (.assign 2 (.addrOf 1)),
      .statement (.store 2 (.temp 0)),
      .statement (.ret (some (.temp 1)))]⟩

/-- There are six accesses to the two temps. Addresses are numbers here and the slots have the
numbers of the temps, so the machine suits them. -/
theorem squareSource_mirrored : ∃ f slots g, Func.ofSource squareSource false = .ok f ∧
    f.spill [0, 1] = .ok (slots, g) ∧ (f.accesses [0, 1]).length = 6 ∧ g.instrs.length = 12 ∧
    f.Suits slots adder ∧ f.Mirrors slots (fun t => (t : Int)) (fun _ => 0) (fun t => (t : Int))
      (fun s => (s : Int)) ∧ f.Mirrored [0, 1] slots g := by
  have result : (Func.ofSource squareSource false).bind (fun f =>
      (f.spill [0, 1]).map fun r => (f.numSlots, (f.accesses [0, 1]).length, r.2.instrs.length,
        f.allTemps.toList)) = .ok (0, 6, 12, [0, 1, 2]) := by decide +kernel
  obtain ⟨f, resolved, rest⟩ := bind_eq_ok.mp result
  obtain ⟨⟨slots, g⟩, run, values⟩ := map_eq_ok.mp rest
  simp only [Prod.mk.injEq] at values
  obtain ⟨numSlots, accesses, length, names⟩ := values
  have inside : ∀ t ∈ [0, 1], t ∈ f.allTemps := by
    intro t member
    rw [← IndexSet.mem_toList, names]
    exact List.mem_append_left [2] member
  have same : ∀ (t : Temp) (s : Slot), slots.get? t = some s → s = t := by
    intro t s found
    obtain ⟨k, place, number⟩ := ((Func.spill_ok run).get?_eq_some (by decide)).mp found
    rw [numSlots, Nat.zero_add] at number
    subst number
    rcases k with _ | _ | k
    · exact Option.some.inj place
    · exact Option.some.inj place
    · cases place
  refine ⟨f, slots, g, resolved, run, accesses, length,
    ⟨fun i _ t s _ found => ?_, fun s shown => ?_⟩,
    ⟨fun _ _ _ => rfl, fun t s found => ?_, fun s below => ?_⟩,
    (Func.spill_mirrored (.source resolved) (by decide) inside).2 slots g run⟩
  · rw [same t s found]
    rfl
  · cases shown
  · rw [same t s found]
  · rw [numSlots] at below
    exact absurd below (Nat.not_lt_zero s)

end RegisterColoring
