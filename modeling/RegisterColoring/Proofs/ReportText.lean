import RegisterColoring.Proofs.Written

namespace RegisterColoring

/-- The name of a register of the pool or of a place in the frame. -/
def PhysicalName (name : String) : Prop :=
  (∃ r ∈ Register.pool, name = r.name) ∨ ∃ slot, name = Slot.operand slot

theorem PhysicalName.ne_temp {name : String} (physical : PhysicalName name) (t : Temp) :
    name ≠ Temp.name t := by
  intro same
  have first := congrArg (·.toList.head?) same
  rcases physical with ⟨r, _, rfl⟩ | ⟨slot, rfl⟩
  · simp [Register.name, Temp.name] at first
  · simp [Slot.operand, Temp.name] at first

namespace Allocation

variable {a : Allocation}

/-- How the report may call a temp: by the register of its color, or by the place of its slot in the
frame. -/
structure Names (a : Allocation) (t : Temp) (name : String) : Prop where
  place : (∃ c r, a.assignment.get? t = some (.reg c) ∧ Register.pool[c]? = some r ∧
      name = r.name) ∨
    ∃ slot, a.assignment.get? t = some (.slot slot) ∧ name = Slot.operand slot
  physical : PhysicalName name
  notTemp : ∀ u, name ≠ Temp.name u

/-- The rows of a block: each instruction has one, but for copies within one register. -/
inductive Rows (a : Allocation) : List Instr → List String → Prop
  | none : Rows a [] []
  | omitted {d s : Temp} {c : Color} {rest : List Instr} {rows : List String} :
      a.assignment.get? d = some (.reg c) → a.assignment.get? s = some (.reg c) →
      Rows a rest rows → Rows a (.move d (.temp s) :: rest) rows
  | row {i : Instr} {text : String} {rest : List Instr} {rows : List String} :
      i.Written a.Names a.func.blockName Slot.operand text →
      (∀ d s c, i = .move d (.temp s) → a.assignment.get? d = some (.reg c) →
        a.assignment.get? s ≠ some (.reg c)) →
      Rows a rest rows → Rows a (i :: rest) (("  " ++ text ++ ";") :: rows)

/-- A text that reports the allocation: comments on the rounds, and then the function with a place
for each of its parameters and a label and rows for each of its blocks. -/
def Reported (a : Allocation) (colors : Nat) (text : String) : Prop :=
  ∃ comments params bodies,
    text = String.join ((("NUM_COLORS=" ++ toString colors) :: comments ++
      (("fn " ++ a.func.name ++ "(" ++ ", ".intercalate params ++ ") \x7b") ::
        bodies.flatten ++ ["\x7d"])).map (· ++ "\n")) ∧
    (∀ line ∈ comments, ∃ comment, line = "//" ++ comment) ∧
    List.Forall₂ a.Names a.func.params params ∧
    List.Forall₂ (fun block body => ∃ rows, body = (block.label ++ ":") :: rows ∧
      a.Rows block.instrs rows) a.func.blocks bodies

theorem isNop_iff {i : Instr} : a.isNop i = true ↔
    ∃ d s c, i = .move d (.temp s) ∧ a.assignment.get? d = some (.reg c) ∧
      a.assignment.get? s = some (.reg c) := by
  constructor
  · intro dropped
    unfold isNop at dropped
    split at dropped
    · rename_i d s copies
      split at dropped
      · rename_i c e atD atS
        cases of_decide_eq_true dropped
        exact ⟨d, s, c, Instr.copy?_eq_some.mp copies, atD, atS⟩
      · cases dropped
    · cases dropped
  · rintro ⟨d, s, c, rfl, atD, atS⟩
    simp [isNop, Instr.copy?, atD, atS]

theorem rows_blockLines {block : Block} (b : BlockId)
    (named : ∀ i ∈ block.instrs, ∀ t ∈ i.temps, a.Names t (a.naming.temp t)) :
    ∃ rows, Report.blockLines ⟨fun _ => [],
        fun _ _ i => if a.isNop i then none else some ("  " ++ i.text a.naming ++ ";"),
        fun _ => []⟩ block.label b block = (block.label ++ ":") :: rows ∧
      a.Rows block.instrs rows := by
  refine ⟨_, List.append_nil _, ?_⟩
  show a.Rows block.instrs (block.instrs.mapIdx fun _ i =>
    (if a.isNop i then none else some ("  " ++ i.text a.naming ++ ";")).toList).flatten
  generalize block.instrs = instrs at named
  induction instrs with
  | nil => exact .none
  | cons i rest ih =>
    have later := ih fun j member => named j (List.mem_cons_of_mem _ member)
    rw [List.mapIdx_cons, List.flatten_cons]
    cases nop : a.isNop i with
    | true =>
      obtain ⟨d, s, c, rfl, atD, atS⟩ := isNop_iff.mp nop
      exact .omitted atD atS later
    | false =>
      refine .row (Instr.written_text (named i List.mem_cons_self)) ?_ later
      intro d s c move atD atS
      rw [isNop_iff.mpr ⟨d, s, c, move, atD, atS⟩] at nop
      cases nop

theorem comment_of_mem_roundLines {r : Round} {line : String} (member : line ∈ roundLines r) :
    ∃ comment, line = "//" ++ comment := by
  rcases List.mem_cons.mp member with rfl | event
  · have slashes : "// round " = "//" ++ " round " := rfl
    apply Exists.intro
    simp only [slashes, String.append_assoc]
    rfl
  · obtain ⟨e, _, rfl⟩ := List.mem_map.mp event
    have slashes : "//   " = "//" ++ "   " := rfl
    apply Exists.intro
    simp only [slashes, String.append_assoc]
    rfl

theorem forall₂_mapIdx {α β : Type} {R : α → β → Prop} {l : List α} {f : Nat → α → β}
    (each : ∀ n, ∀ x ∈ l, R x (f n x)) : List.Forall₂ R l (l.mapIdx f) := by
  induction l generalizing f with
  | nil => exact .nil
  | cons x rest ih =>
    rw [List.mapIdx_cons]
    exact .cons (each 0 x List.mem_cons_self)
      (ih fun n y member => each (n + 1) y (List.mem_cons_of_mem x member))

/-- An allocation whose colors have registers is reported, with a name for each temp that has a
place. -/
theorem report_ok {colors : Nat} (below : ∀ c ∈ a.assignment.colors, c < Register.pool.length)
    (named : ∀ t ∈ a.func.allTemps, a.Names t (a.naming.temp t)) :
    ∃ text, a.report colors = .ok text ∧ a.Reported colors text := by
  refine ⟨_, ?_, a.rounds.flatMap roundLines, a.func.params.map a.naming.temp, _, rfl,
    fun line member => ?_, ?_, forall₂_mapIdx fun b block member => rows_blockLines b ?_⟩
  · unfold report
    simp only
    split
    next c largest =>
      rw [if_neg (Nat.not_le.mpr (below c (List.max?_mem largest)))]
      rfl
    next => rfl
  · obtain ⟨r, _, inside⟩ := List.mem_flatMap.mp member
    exact comment_of_mem_roundLines inside
  · refine List.forall₂_map_right_iff.mpr (List.forall₂_same.mpr fun t member => named t ?_)
    exact Func.mem_allTemps.mpr (Or.inr (Or.inl member))
  · intro i inside t occurs
    refine named t (Func.mem_allTemps.mpr (Or.inr (Or.inr ⟨i, ?_, occurs⟩)))
    exact List.mem_flatMap.mpr ⟨block, member, inside⟩

end Allocation

end RegisterColoring
