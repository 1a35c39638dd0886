import RegisterColoring.Proofs.Reloads

namespace RegisterColoring.Spill

variable {slots : IndexMap Slot} {next : Nat} {temps : List Temp}

/-- The code for one instruction with fresh temps from `next` on, and the next number after them. -/
def instrCode (slots : IndexMap Slot) (next : Temp) (i : Instr) : List Instr × Temp :=
  instrCodeM number slots i next

/-- The reloads of an instruction. -/
def loadsOf (slots : IndexMap Slot) (next : Temp) (i : Instr) : List Reload :=
  reloads slots next (redirect slots i).uses

/-- The instruction with what it reads replaced. -/
def renamed (slots : IndexMap Slot) (next : Temp) (i : Instr) : Instr :=
  (redirect slots i).mapUses (standIn (loadsOf slots next i))

/-- The code behind the reloads. -/
def coreOf (slots : IndexMap Slot) (next : Temp) (i : Instr) : List Instr × Temp :=
  coreCodeM number slots (loadsOf slots next i) (redirect slots i)
    (next + (loadsOf slots next i).length)

/-- The reloads take the first numbers. -/
theorem instrCode_eq (slots : IndexMap Slot) (next : Temp) (i : Instr) : instrCode slots next i =
    (loadCode (loadsOf slots next i) ++ (coreOf slots next i).1, (coreOf slots next i).2) := by
  unfold instrCode instrCodeM
  simp only [bind, StateT.bind, reloadsM_number]
  rfl

/-- The two forms of the code for an instruction: without a store, and with one if the instruction
writes a spilled temp. -/
theorem instrCode_cases (slots : IndexMap Slot) (next : Nat) (i : Instr) :
    (∀ d, i.dest? = some d → slots.get? d = none) ∧
        instrCode slots next i = (loadCode (loadsOf slots next i) ++ [renamed slots next i],
          next + (loadsOf slots next i).length) ∨
      ∃ (d : Temp) (slot : Slot) (x free : Nat),
        i.dest? = some d ∧ slots.get? d = some slot ∧
        instrCode slots next i = (loadCode (loadsOf slots next i) ++
          [(renamed slots next i).mapDest fun _ => x, .spillStore slot x], free) ∧
        (fresh? (loadsOf slots next i) d = some x ∧ free = next + (loadsOf slots next i).length ∨
          fresh? (loadsOf slots next i) d = none ∧ x = next + (loadsOf slots next i).length ∧
            free = x + 1) := by
  have dest := dest?_redirect slots i
  rw [instrCode_eq]
  cases writes : i.dest? with
  | none =>
    rw [writes] at dest
    refine Or.inl ⟨fun d impossible => ?_, ?_⟩
    · cases impossible
    · simp only [coreOf, coreCodeM, dest, Option.bind_none]
      rfl
  | some d =>
    rw [writes] at dest
    cases stored : slots.get? d with
    | none =>
      refine Or.inl ⟨fun e same => ?_, ?_⟩
      · cases same
        exact stored
      · simp only [coreOf, coreCodeM, dest, Option.bind_some, stored, Option.map_none]
        rfl
    | some slot =>
      cases fresh : fresh? (loadsOf slots next i) d with
      | some shared =>
        refine Or.inr ⟨d, slot, shared, _, rfl, stored, ?_, Or.inl ⟨fresh, rfl⟩⟩
        simp only [coreOf, coreCodeM, dest, Option.bind_some, stored, Option.map_some, fresh]
        rfl
      | none =>
        refine Or.inr ⟨d, slot, _, _, rfl, stored, ?_, Or.inr ⟨fresh, rfl, rfl⟩⟩
        simp only [coreOf, coreCodeM, dest, Option.bind_some, stored, Option.map_some, fresh]
        rfl

theorem mem_loadCode {loads : List Reload} {j : Instr} :
    j ∈ loadCode loads ↔ ∃ r ∈ loads, j = .spillLoad r.fresh r.slot := by
  unfold loadCode
  rw [List.mem_map]
  exact ⟨fun ⟨r, member, same⟩ => ⟨r, member, same.symm⟩,
    fun ⟨r, member, same⟩ => ⟨r, member, same.symm⟩⟩

theorem loadCode_straight (loads : List Reload) : Straight (loadCode loads) := by
  intro j member
  obtain ⟨r, _, rfl⟩ := mem_loadCode.mp member
  rfl

theorem le_free (slots : IndexMap Slot) (next : Nat) (i : Instr) :
    next + (loadsOf slots next i).length ≤ (instrCode slots next i).2 := by
  rcases instrCode_cases slots next i with
    ⟨_, code⟩ | ⟨d, slot, x, free, _, _, code, ⟨_, rfl⟩ | ⟨_, rfl, rfl⟩⟩
  · exact Nat.le_of_eq (by rw [code])
  · exact Nat.le_of_eq (by rw [code])
  · rw [code]
    exact Nat.le_succ _

theorem next_le_free (slots : IndexMap Slot) (next : Nat) (i : Instr) :
    next ≤ (instrCode slots next i).2 :=
  Nat.le_trans (Nat.le_add_right _ _) (le_free slots next i)

/-- A temp that an instruction of the code reads. -/
theorem uses_renamed {i : Instr} {t : Nat} (used : t ∈ (renamed slots next i).uses) :
    t ∈ i.uses ∧ slots.get? t = none ∨ ∃ r ∈ loadsOf slots next i, r.fresh = t := by
  obtain ⟨u, member, rfl⟩ := Instr.mem_uses_mapUses.mp used
  rcases standIn_eq next member with ⟨absent, same⟩ | ⟨r, inside, _, same⟩
  · refine Or.inl ⟨?_, ?_⟩
    · unfold loadsOf
      rw [same]
      exact uses_redirect member
    · unfold loadsOf
      rw [same]
      exact absent
  · exact Or.inr ⟨r, inside, same.symm⟩

theorem fresh_lt {i : Instr} {r : Reload} (member : r ∈ loadsOf slots next i) :
    next ≤ r.fresh ∧ (instrCode slots next i).2 > r.fresh := by
  obtain ⟨_, _, k, bound, same⟩ := mem_reloads member
  refine ⟨Nat.le.intro same, Nat.lt_of_lt_of_le ?_ (le_free slots next i)⟩
  rw [← same]
  exact Nat.add_lt_add_left bound next

@[simp] theorem dest?_renamed (slots : IndexMap Slot) (next : Nat) (i : Instr) :
    (renamed slots next i).dest? = i.dest? := by
  rw [renamed, Instr.dest?_mapUses, dest?_redirect]

/-- The temp that is stored is a fresh one. -/
theorem le_store {i : Instr} {d : Temp} {x free : Nat}
    (origin : fresh? (loadsOf slots next i) d = some x ∧
        free = next + (loadsOf slots next i).length ∨
      fresh? (loadsOf slots next i) d = none ∧ x = next + (loadsOf slots next i).length ∧
        free = x + 1) : next ≤ x := by
  rcases origin with ⟨shared, _⟩ | ⟨_, rfl, _⟩
  · obtain ⟨r, inside, _, rfl⟩ := fresh?_mem shared
    exact (fresh_lt inside).1
  · exact Nat.le_add_right _ _

/-- The temps of the code are those of the instruction that are not spilled, and fresh ones. -/
theorem temps_instrCode {i j : Instr} {t : Nat} (member : j ∈ (instrCode slots next i).1)
    (named : t ∈ j.temps) : t ∈ i.temps ∧ slots.get? t = none ∨
      next ≤ t ∧ t < (instrCode slots next i).2 := by
  have loaded : j ∈ loadCode (loadsOf slots next i) →
      next ≤ t ∧ t < (instrCode slots next i).2 := by
    intro load
    obtain ⟨r, inside, rfl⟩ := mem_loadCode.mp load
    have same : t = r.fresh := by simpa [Instr.temps, Instr.dest?, Instr.uses, Instr.operands,
      distinct] using named
    rw [same]
    exact fresh_lt inside
  have read : t ∈ (renamed slots next i).uses → t ∈ i.temps ∧ slots.get? t = none ∨
      next ≤ t ∧ t < (instrCode slots next i).2 := by
    intro used
    rcases uses_renamed used with ⟨old, absent⟩ | ⟨r, inside, rfl⟩
    · exact Or.inl ⟨Instr.mem_temps.mpr (Or.inr old), absent⟩
    · exact Or.inr (fresh_lt inside)
  rcases instrCode_cases slots next i with ⟨kept, code⟩ | ⟨d, slot, x, free, _, _, code, origin⟩
  · rw [code] at member
    rcases List.mem_append.mp member with load | last
    · exact Or.inr (loaded load)
    · rw [List.mem_singleton.mp last] at named
      rcases Instr.mem_temps.mp named with writes | used
      · simp only [renamed, Instr.dest?_mapUses, dest?_redirect] at writes
        exact Or.inl ⟨Instr.mem_temps.mpr (Or.inl writes), kept t writes⟩
      · exact read used
  · have fresh : next ≤ x ∧ x < (instrCode slots next i).2 := by
      rcases origin with ⟨shared, _⟩ | ⟨_, rfl, rfl⟩
      · obtain ⟨r, inside, _, rfl⟩ := fresh?_mem shared
        exact fresh_lt inside
      · rw [code]
        exact ⟨Nat.le_add_right _ _, Nat.lt_succ_self _⟩
    rw [code] at member
    simp only [List.mem_append, List.mem_cons, List.not_mem_nil, or_false] at member
    rcases member with load | rfl | rfl
    · exact Or.inr (loaded load)
    · rcases Instr.mem_temps.mp named with writes | used
      · simp only [Instr.dest?_mapDest, Option.map_eq_some_iff] at writes
        obtain ⟨_, _, rfl⟩ := writes
        exact Or.inr fresh
      · rw [Instr.uses_mapDest] at used
        exact read used
    · have same : t = x := by simpa [Instr.temps, Instr.dest?, Instr.uses, Instr.operands,
        Operand.temp?, distinct] using named
      rw [same]
      exact Or.inr fresh

theorem slot?_instrCode {i j : Instr} {s : Slot} (member : j ∈ (instrCode slots next i).1)
    (named : j.slot? = some s) : i.slot? = some s ∨ ∃ t, slots.get? t = some s := by
  have loaded : j ∈ loadCode (loadsOf slots next i) → ∃ t, slots.get? t = some s := by
    intro load
    obtain ⟨r, inside, rfl⟩ := mem_loadCode.mp load
    cases named
    exact ⟨r.temp, (mem_reloads inside).2.1⟩
  rcases instrCode_cases slots next i with ⟨_, code⟩ | ⟨d, slot, x, free, _, stored, code, _⟩
  · rw [code] at member
    rcases List.mem_append.mp member with load | last
    · exact Or.inr (loaded load)
    · rw [List.mem_singleton.mp last, renamed, Instr.slot?_mapUses] at named
      exact slot?_redirect named
  · rw [code] at member
    simp only [List.mem_append, List.mem_cons, List.not_mem_nil, or_false] at member
    rcases member with load | rfl | rfl
    · exact Or.inr (loaded load)
    · rw [Instr.slot?_mapDest, renamed, Instr.slot?_mapUses] at named
      exact slot?_redirect named
    · cases named
      exact Or.inr ⟨d, stored⟩

/-- The addresses that the code takes are taken by the instruction itself. -/
theorem addressTaken?_instrCode {i j : Instr} {t : Temp} (member : j ∈ (instrCode slots next i).1)
    (taken : j.addressTaken? = some t) : i.addressTaken? = some t := by
  have core : (renamed slots next i).addressTaken? = some t → i.addressTaken? = some t := by
    intro renamedTaken
    rw [renamed, Instr.addressTaken?_mapUses] at renamedTaken
    obtain ⟨u, old, same⟩ := Option.map_eq_some_iff.mp renamedTaken
    rcases redirect_cases slots i with ⟨plain, absent⟩ | ⟨d, v, slot, _, _, moved⟩
    · have used := Instr.mem_uses_of_addressTaken old
      rw [plain] at old
      rcases standIn_eq next used with ⟨_, kept⟩ | ⟨r, inside, rfl, _⟩
      · rw [← same]
        exact old.trans (congrArg some kept.symm)
      · cases (absent _ old).symm.trans (mem_reloads inside).2.1
    · rw [moved] at old
      exact nomatch old
  have loads : j ∉ loadCode (loadsOf slots next i) := by
    intro load
    obtain ⟨r, _, rfl⟩ := mem_loadCode.mp load
    exact nomatch taken
  rcases instrCode_cases slots next i with ⟨_, code⟩ | ⟨d, slot, x, free, _, _, code, _⟩
  · rw [code, List.mem_append, List.mem_singleton] at member
    rw [member.resolve_left loads] at taken
    exact core taken
  · rw [code, List.mem_append] at member
    simp only [List.mem_cons, List.not_mem_nil, or_false] at member
    rcases member.resolve_left loads with rfl | rfl
    · rw [Instr.addressTaken?_mapDest] at taken
      exact core taken
    · exact nomatch taken

theorem instrCode_straight {i : Instr} (ordinary : i.isTerminator = false) :
    Straight (instrCode slots next i).1 := by
  have renamedOrdinary : (renamed slots next i).isTerminator = false := by
    rw [renamed, Instr.isTerminator_mapUses, isTerminator_redirect]
    exact ordinary
  intro j member
  rcases instrCode_cases slots next i with ⟨_, code⟩ | ⟨d, slot, x, free, _, _, code, _⟩
  · rw [code] at member
    rcases List.mem_append.mp member with load | last
    · exact loadCode_straight _ j load
    · rw [List.mem_singleton.mp last]
      exact renamedOrdinary
  · rw [code] at member
    simp only [List.mem_append, List.mem_cons, List.not_mem_nil, or_false] at member
    rcases member with load | rfl | rfl
    · exact loadCode_straight _ j load
    · rw [Instr.isTerminator_mapDest]
      exact renamedOrdinary
    · rfl

theorem instrCode_of_terminator {i : Instr} (terminator : i.isTerminator = true) :
    instrCode slots next i = (loadCode (loadsOf slots next i) ++ [renamed slots next i],
      next + (loadsOf slots next i).length) := by
  rcases instrCode_cases slots next i with ⟨_, code⟩ | ⟨d, _, _, _, writes, _⟩
  · exact code
  · rw [Instr.dest?_of_terminator terminator] at writes
    exact nomatch writes

end RegisterColoring.Spill
