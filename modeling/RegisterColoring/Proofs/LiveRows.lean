import RegisterColoring.Liveness
import RegisterColoring.Proofs.WellFormed

namespace RegisterColoring

/-- A path from the point in block `b` before `rest` reads `t`, and no instruction on it before
that read writes `t`. -/
inductive Func.LiveAt (f : Func) (t : Temp) : BlockId → List Instr → Prop
  | read {b : BlockId} {i : Instr} {rest : List Instr} : t ∈ i.uses → LiveAt f t b (i :: rest)
  | pass {b : BlockId} {i : Instr} {rest : List Instr} :
      i.dest? ≠ some t → LiveAt f t b rest → LiveAt f t b (i :: rest)
  | edge {b s : BlockId} {block : Block} :
      s ∈ f.succs b → f.blocks[s]? = some block → LiveAt f t s block.instrs → LiveAt f t b []

theorem Instr.mem_liveBefore {i : Instr} {after : IndexSet} {t : Temp} :
    t ∈ i.liveBefore after ↔ t ∈ i.uses ∨ i.dest? ≠ some t ∧ t ∈ after := by
  unfold liveBefore
  cases i.dest? with
  | none => simp
  | some d =>
    rw [IndexSet.mem_insertAll, IndexSet.mem_erase, and_comm, ne_eq, ne_eq, Option.some.injEq,
      eq_comm]

/-- The temps live before a row of instructions, from those live at its end. -/
def liveRow (instrs : List Instr) (out : IndexSet) : IndexSet := instrs.foldr Instr.liveBefore out

@[simp] theorem liveRow_nil (out : IndexSet) : liveRow [] out = out := rfl

@[simp] theorem liveRow_cons (i : Instr) (rest : List Instr) (out : IndexSet) :
    liveRow (i :: rest) out = i.liveBefore (liveRow rest out) := rfl

/-- What a row reads first, and what it leaves alone of the set at its end. -/
theorem mem_liveRow {instrs : List Instr} {out : IndexSet} {t : Temp} :
    t ∈ liveRow instrs out ↔
      t ∈ liveRow instrs ∅ ∨ t ∈ out ∧ ∀ i ∈ instrs, i.dest? ≠ some t := by
  induction instrs with
  | nil => simp
  | cons i rest ih =>
    rw [liveRow_cons, Instr.mem_liveBefore, ih, liveRow_cons, Instr.mem_liveBefore]
    constructor
    · rintro (used | ⟨kept, exposed | ⟨member, later⟩⟩)
      · exact Or.inl (Or.inl used)
      · exact Or.inl (Or.inr ⟨kept, exposed⟩)
      · refine Or.inr ⟨member, fun j inside => ?_⟩
        rcases List.mem_cons.mp inside with rfl | inside
        · exact kept
        · exact later j inside
    · rintro ((used | ⟨kept, exposed⟩) | ⟨member, none⟩)
      · exact Or.inl used
      · exact Or.inr ⟨kept, Or.inl exposed⟩
      · exact Or.inr ⟨none i List.mem_cons_self,
          Or.inr ⟨member, fun j inside => none j (List.mem_cons_of_mem _ inside)⟩⟩

theorem livePoints_fst (out : IndexSet) (instrs : List Instr) :
    (livePoints out instrs).1 = liveRow instrs out := by
  induction instrs with
  | nil => rfl
  | cons i rest ih =>
    simp only [livePoints]
    rw [ih]
    rfl

theorem livePoints_snd (out : IndexSet) (pre rest : List Instr) (i : Instr) :
    (livePoints out (pre ++ i :: rest)).2[pre.length]? = some (liveRow rest out) := by
  induction pre with
  | nil => simp [livePoints, livePoints_fst]
  | cons j pre ih => simpa [livePoints] using ih

theorem mem_joinAt {live : List IndexSet} {succs : List BlockId} {t : Temp} :
    t ∈ joinAt live succs ↔ ∃ s ∈ succs, t ∈ live.getD s ∅ := by
  simp [joinAt_def]

end RegisterColoring
