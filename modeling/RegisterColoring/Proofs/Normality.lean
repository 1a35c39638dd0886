import RegisterColoring.Proofs.Confluence
import RegisterColoring.Proofs.Settling

namespace RegisterColoring

open Relation

namespace Func

variable {f g h : Func} {b : BlockId} {i : Instr} {row rest kept : List Instr} {t : Temp}

/-- A single removal: `f` without one instruction that an analysis finds dead in a block that can be
reached. -/
inductive Drops (f : Func) : Func → Prop
  | drop {bound : Nat} {l : Liveness} {b : BlockId} {block : Block} {pre rest : List Instr}
      {i : Instr} : Liveness.analyze bound f = .ok l → b ∈ l.reachable →
      f.blocks[b]? = some block → block.instrs = pre ++ i :: rest →
      i.isDead (l.liveAfter b pre.length) = true →
      Drops f { f with blocks := f.blocks.set b { block with instrs := pre ++ rest } }

/-- Nothing is left to remove. -/
def Normal (f : Func) : Prop := ∀ g, ¬ f.Drops g

theorem Strips.append (strips : f.Strips b rest kept) (pre : List Instr) :
    f.Strips b (pre ++ rest) (pre ++ kept) := by
  induction pre with
  | nil => exact strips
  | cons i pre ih => exact .keep ih

theorem Drops.sheds (drops : f.Drops g) (wf : f.WellFormed) : f.Sheds g := by
  cases drops with
  | @drop bound l b block pre rest i run reach found split dead =>
    rw [Liveness.reachable_of_analyze run] at reach
    have here := (Instr.isDead_iff wf.edgesInside run reach found split).mp dead
    refine ⟨fun c other place => ?_, List.length_set, rfl⟩
    by_cases same : c = b
    · subst same
      cases place.symm.trans found
      refine ⟨pre ++ rest, ?_, ?_⟩
      · exact List.getElem?_set_self (List.getElem?_eq_some_iff.mp found).1
      · rw [split]
        exact Strips.append (.drop here (.refl rest)) pre
    · refine ⟨other.instrs, ?_, .refl _⟩
      exact (List.getElem?_set_ne (Ne.symm same)).trans place

theorem Drops.instrCount (drops : f.Drops g) : g.instrCount + 1 = f.instrCount := by
  cases drops with
  | @drop bound l b block pre rest i run reach found split dead =>
    have count := length_flatMap_set (·.instrs) found { block with instrs := pre ++ rest }
    rw [split] at count
    simp only [List.length_append, List.length_cons] at count
    simp only [Func.instrCount, Func.instrs]
    omega

theorem sheds_of_drops (drops : ReflTransGen Drops f g) (wf : f.WellFormed) :
    ReflTransGen Sheds f g := by
  induction drops with
  | refl => exact .refl
  | tail _ last ih => exact .tail ih (last.sheds (wellFormed_of_sheds ih wf))

theorem Strips.eq_or_dead (strips : f.Strips b row kept) :
    kept = row ∨ ∃ pre i rest, row = pre ++ i :: rest ∧ f.DeadAt b i rest := by
  induction strips with
  | nil => exact .inl rfl
  | @keep i rest kept _ ih =>
    rcases ih with same | ⟨pre, j, behind, split, dead⟩
    · exact .inl (congrArg (i :: ·) same)
    · exact .inr ⟨i :: pre, j, behind, congrArg (i :: ·) split, dead⟩
  | @drop i rest kept dead _ _ => exact .inr ⟨[], i, rest, rfl, dead⟩

/-- A block without dead instructions stays as it is. -/
theorem Sheds.getElem?_eq (sheds : f.Sheds g)
    (alive : ∀ block pre i rest, f.blocks[b]? = some block → block.instrs = pre ++ i :: rest →
      ¬ f.DeadAt b i rest) : g.blocks[b]? = f.blocks[b]? := by
  cases found : f.blocks[b]? with
  | none => exact List.getElem?_eq_none (sheds.length ▸ List.getElem?_eq_none_iff.mp found)
  | some block =>
    obtain ⟨row, place, strips⟩ := sheds.rows b block found
    rcases strips.eq_or_dead with same | ⟨pre, i, rest, split, dead⟩
    · rw [place, same]
    · exact absurd dead (alive block pre i rest found split)

/-- From a normal function nothing can be removed. The analysis has a result for it, with enough
sweeps, and that would show what is dead. -/
theorem Normal.eq_of_sheds (normal : f.Normal) (wf : f.WellFormed) (sheds : f.Sheds g) : g = f := by
  have blocks : g.blocks = f.blocks := by
    refine List.ext_getElem? fun b => sheds.getElem?_eq fun block pre i rest found split dead => ?_
    obtain ⟨l, run⟩ := Liveness.analyze_isOk (Nat.lt_succ_self (f.blocks.length * f.allTemps.size))
    have reach : b ∈ l.reachable := by
      rw [Liveness.reachable_of_analyze run]
      exact dead.1
    have shown := (Instr.isDead_iff wf.edgesInside run dead.1 found split).mpr dead
    exact normal _ (.drop run reach found split shown)
  rw [sheds.fields, blocks]

theorem Normal.eq_of_shedsStar (normal : f.Normal) (wf : f.WellFormed)
    (sheds : ReflTransGen Sheds f g) : g = f := by
  induction sheds with
  | refl => rfl
  | tail _ last ih =>
    subst ih
    exact normal.eq_of_sheds wf last

/-- There is at most one normal function in which removals end. -/
theorem normal_unique (wf : f.WellFormed) (left : ReflTransGen Sheds f g)
    (right : ReflTransGen Sheds f h) (leftNormal : g.Normal) (rightNormal : h.Normal) : g = h := by
  obtain ⟨k, onLeft, onRight⟩ := sheds_confluent left right
  rw [← leftNormal.eq_of_shedsStar (wellFormed_of_sheds left wf) onLeft]
  exact rightNormal.eq_of_shedsStar (wellFormed_of_sheds right wf) onRight

/-- Removals come to an end, because each makes the function shorter. -/
theorem exists_normal (f : Func) : ∃ g, ReflTransGen Drops f g ∧ g.Normal := by
  induction count : f.instrCount generalizing f with
  | zero =>
    refine ⟨f, .refl, fun g drops => ?_⟩
    have shorter := drops.instrCount
    omega
  | succ n ih =>
    by_cases normal : f.Normal
    · exact ⟨f, .refl, normal⟩
    · obtain ⟨g, drops⟩ := not_forall_not.mp normal
      have shorter := drops.instrCount
      obtain ⟨h, later, ends⟩ := ih g (by omega)
      exact ⟨h, .head drops later, ends⟩

end Func

end RegisterColoring
