import RegisterColoring.Proofs.InstrCode

namespace RegisterColoring.Spill

variable {slots : IndexMap Slot} {next : Nat} {temps : List Temp}

/-- The code for a list of instructions. -/
def instrsCode (slots : IndexMap Slot) (next : Temp) (instrs : List Instr) : List Instr × Temp :=
  instrsCodeM number slots instrs next

def blocksCode (slots : IndexMap Slot) (next : Temp) (blocks : List Block) : List Block × Temp :=
  blocksCodeM number slots blocks next

theorem instrsCode_nil (slots : IndexMap Slot) (next : Temp) : instrsCode slots next [] = ([], next) :=
  rfl

theorem instrsCode_cons (slots : IndexMap Slot) (next : Temp) (i : Instr) (rest : List Instr) :
    instrsCode slots next (i :: rest) =
      ((instrCode slots next i).1 ++ (instrsCode slots (instrCode slots next i).2 rest).1,
        (instrsCode slots (instrCode slots next i).2 rest).2) := rfl

theorem instrsCode_singleton (slots : IndexMap Slot) (next : Temp) (i : Instr) :
    instrsCode slots next [i] = instrCode slots next i := by
  rw [instrsCode_cons, instrsCode_nil, List.append_nil]

theorem instrsCode_append (slots : IndexMap Slot) (next : Temp) (pre rest : List Instr) :
    instrsCode slots next (pre ++ rest) =
      ((instrsCode slots next pre).1 ++ (instrsCode slots (instrsCode slots next pre).2 rest).1,
        (instrsCode slots (instrsCode slots next pre).2 rest).2) := by
  induction pre generalizing next with
  | nil => rfl
  | cons i pre ih =>
    rw [List.cons_append, instrsCode_cons, ih, instrsCode_cons]
    simp only [List.append_assoc]

theorem le_last (slots : IndexMap Slot) (next : Nat) (instrs : List Instr) :
    next ≤ (instrsCode slots next instrs).2 := by
  induction instrs generalizing next with
  | nil => exact Nat.le_refl next
  | cons i rest ih =>
    have first := Nat.le_trans (Nat.le_add_right next _) (le_free slots next i)
    exact Nat.le_trans first (ih _)

/-- Every instruction of the code belongs to one of the row, with fresh temps of its own. -/
theorem mem_instrsCode {instrs : List Instr} {j : Instr}
    (member : j ∈ (instrsCode slots next instrs).1) :
    ∃ i ∈ instrs, ∃ first : Nat, next ≤ first ∧ j ∈ (instrCode slots first i).1 ∧
      (instrCode slots first i).2 ≤ (instrsCode slots next instrs).2 := by
  induction instrs generalizing next with
  | nil => exact absurd member List.not_mem_nil
  | cons i rest ih =>
    rw [instrsCode_cons] at member ⊢
    rcases List.mem_append.mp member with here | later
    · exact ⟨i, List.mem_cons_self, next, Nat.le_refl _, here, le_last slots _ rest⟩
    · obtain ⟨k, inside, first, low, place, high⟩ := ih later
      have step := Nat.le_trans (Nat.le_add_right next _) (le_free slots next i)
      exact ⟨k, List.mem_cons_of_mem _ inside, first, Nat.le_trans step low, place, high⟩

theorem instrsCode_straight (slots : IndexMap Slot) (next : Nat) {instrs : List Instr}
    (straight : Straight instrs) : Straight (instrsCode slots next instrs).1 := by
  intro j member
  obtain ⟨i, inside, first, _, place, _⟩ := mem_instrsCode member
  exact instrCode_straight (straight i inside) j place

/-- A row that ends in a terminator becomes one that ends in the same jump. -/
theorem instrsCode_ends (slots : IndexMap Slot) (next : Nat) {init : List Instr} {i : Instr}
    (straight : Straight init) (terminator : i.isTerminator = true) :
    ∃ front j, (instrsCode slots next (init ++ [i])).1 = front ++ [j] ∧ Straight front ∧
      j.isTerminator = true ∧ j.targets = i.targets := by
  rw [instrsCode_append, instrsCode_singleton, instrCode_of_terminator terminator]
  refine ⟨(instrsCode slots next init).1 ++ _, _, (List.append_assoc _ _ _).symm, ?_, ?_, ?_⟩
  · intro j member
    rcases List.mem_append.mp member with early | load
    · exact instrsCode_straight slots next straight j early
    · exact loadCode_straight _ j load
  · rw [renamed, Instr.isTerminator_mapUses, isTerminator_redirect]
    exact terminator
  · rw [renamed, Instr.targets_mapUses, targets_redirect]

theorem instrsCode_terminatorLast {instrs : List Instr} (last : TerminatorLast instrs) :
    TerminatorLast (instrsCode slots next instrs).1 := by
  rcases last.straight_or with straight | ⟨init, i, rfl, early, terminator⟩
  · intro pre j behind split stops
    have ordinary := instrsCode_straight slots next straight j
      (by rw [split]; simp)
    rw [ordinary] at stops
    exact nomatch stops
  · obtain ⟨front, j, code, straight, _⟩ := instrsCode_ends slots next early
      terminator
    rw [code]
    exact .append straight

theorem successorsOf_instrsCode {instrs : List Instr} (last : TerminatorLast instrs) (n b : Nat) :
    successorsOf n b (instrsCode slots next instrs).1 = successorsOf n b instrs := by
  rcases last.straight_or with straight | ⟨init, i, rfl, early, terminator⟩
  · rw [successorsOf_straight straight, successorsOf_straight (instrsCode_straight slots next straight)]
  · obtain ⟨front, j, code, _, stops, targets⟩ := instrsCode_ends slots next
      early terminator
    rw [code, successorsOf_append stops, successorsOf_append terminator, targets]

theorem blocksCode_cons (slots : IndexMap Slot) (next : Temp) (block : Block) (rest : List Block) :
    blocksCode slots next (block :: rest) =
      ({ block with instrs := (instrsCode slots next block.instrs).1 } ::
          (blocksCode slots (instrsCode slots next block.instrs).2 rest).1,
        (blocksCode slots (instrsCode slots next block.instrs).2 rest).2) := rfl

/-- The fresh temps run on from block to block. -/
theorem blocksCode_instrs (slots : IndexMap Slot) (next : Temp) (blocks : List Block) :
    instrsCode slots next (blocks.flatMap (·.instrs)) =
      ((blocksCode slots next blocks).1.flatMap (·.instrs), (blocksCode slots next blocks).2) := by
  induction blocks generalizing next with
  | nil => rfl
  | cons block rest ih =>
    rw [List.flatMap_cons, instrsCode_append, ih, blocksCode_cons, List.flatMap_cons]

theorem next_le_blocksCode (slots : IndexMap Slot) (next : Nat) (blocks : List Block) :
    next ≤ (blocksCode slots next blocks).2 := by
  have last := le_last slots next (blocks.flatMap (·.instrs))
  rwa [blocksCode_instrs] at last

theorem blocksCode_length (slots : IndexMap Slot) (next : Temp) (blocks : List Block) :
    (blocksCode slots next blocks).1.length = blocks.length := by
  induction blocks generalizing next with
  | nil => rfl
  | cons block rest ih => rw [blocksCode_cons, List.length_cons, ih, List.length_cons]

/-- The fresh temps of a block lie between those of the blocks around it. -/
theorem blocksCode_getElem? {blocks : List Block} {b : BlockId} {block : Block}
    (found : blocks[b]? = some block) :
    ∃ first : Nat, next ≤ first ∧
      (instrsCode slots first block.instrs).2 ≤ (blocksCode slots next blocks).2 ∧
      (blocksCode slots next blocks).1[b]? =
        some { block with instrs := (instrsCode slots first block.instrs).1 } := by
  induction blocks generalizing next b with
  | nil => exact nomatch found
  | cons head rest ih =>
    rw [blocksCode_cons]
    cases b with
    | zero =>
      cases Option.some.inj found
      exact ⟨next, Nat.le_refl next, next_le_blocksCode slots _ rest, rfl⟩
    | succ b =>
      obtain ⟨first, low, place⟩ := @ih (instrsCode slots next head.instrs).2 b found
      exact ⟨first, Nat.le_trans (le_last slots next head.instrs) low, place⟩

theorem reloads_empty (next : Nat) (temps : List Temp) : reloads ∅ next temps = [] := by
  induction temps with
  | nil => rfl
  | cons t rest ih => exact ih

theorem instrCode_empty (next : Nat) (i : Instr) : instrCode ∅ next i = ([i], next) := by
  have loads : loadsOf ∅ next i = [] := reloads_empty next _
  have same : renamed ∅ next i = i := by
    have plain : redirect ∅ i = i := by
      rcases redirect_cases ∅ i with ⟨plain, _⟩ | ⟨_, _, _, _, stored, _⟩
      · exact plain
      · cases stored
    rw [renamed, plain, loads]
    exact Instr.mapUses_eq_self fun t _ => rfl
  rcases instrCode_cases ∅ next i with ⟨_, code⟩ | ⟨_, _, _, _, _, stored, _⟩
  · rw [code, loads, same]
    rfl
  · cases stored

theorem instrsCode_empty (next : Nat) (instrs : List Instr) :
    instrsCode ∅ next instrs = (instrs, next) := by
  induction instrs with
  | nil => rfl
  | cons i rest ih => rw [instrsCode_cons, instrCode_empty, ih, List.singleton_append]

/-- If nothing is spilled there is no spill code. -/
theorem blocksCode_empty (next : Nat) (blocks : List Block) :
    blocksCode ∅ next blocks = (blocks, next) := by
  induction blocks with
  | nil => rfl
  | cons block rest ih => rw [blocksCode_cons, instrsCode_empty, ih]

end RegisterColoring.Spill
