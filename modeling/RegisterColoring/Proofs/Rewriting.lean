import RegisterColoring.Proofs.Instructions

namespace RegisterColoring

/-- Later occurrences are the ones that are dropped. -/
theorem distinct_eq_eraseDups (l : List Nat) : distinct l = l.eraseDups := by
  cases l with
  | nil => rfl
  | cons x rest =>
    have later := distinct_eq_eraseDups (rest.filter fun y => !y == x)
    have apart : (fun y => decide (y ≠ x)) = fun y => !y == x := funext fun y => decide_not
    rw [distinct, List.eraseDups_cons, ← later, distinct_filter, apart]
-- erasing goes on with a filtered list, which is shorter but not the tail
termination_by l.length
decreasing_by exact Nat.lt_succ_of_le (List.length_filter_le _ _)

/-- The number that the operand is, if it is not read from a temp. -/
def Operand.const? : Operand → Option Int
  | const n => some n
  | temp _ => none

theorem Operand.const?_map (f : Temp → Temp) (o : Operand) : (o.map f).const? = o.const? := by
  cases o <;> rfl

namespace Instr

/-- The constants among the operands, each at its place. -/
def constants (i : Instr) : List (Option Int) := i.operands.map Operand.const?

/-- Two instructions name the same slot and the same constants, and are alike in having an effect
and in ending a block. -/
structure SameKind (i j : Instr) : Prop where
  slot : j.slot? = i.slot?
  constants : j.constants = i.constants
  effect : j.hasEffect = i.hasEffect
  terminator : j.isTerminator = i.isTerminator

/-- `j` reads the new names of what `i` reads and has its other parts from `i`. -/
structure ReadsRenamed (f : Temp → Temp) (i j : Instr) : Prop where
  uses : j.uses = (i.uses.map f).eraseDups
  dest : j.dest? = i.dest?
  targets : j.targets = i.targets
  kind : i.SameKind j

/-- `j` writes the new name of what `i` writes and has its other parts from `i`. -/
structure WriteRenamed (f : Temp → Temp) (i j : Instr) : Prop where
  dest : j.dest? = i.dest?.map f
  uses : j.uses = i.uses
  targets : j.targets = i.targets
  kind : i.SameKind j

/-- `j` jumps to the new numbers of the targets of `i` and has its other parts from `i`. -/
structure TargetsRenumbered (g : BlockId → BlockId) (i j : Instr) : Prop where
  targets : j.targets = (i.targets.map g).eraseDups
  uses : j.uses = i.uses
  dest : j.dest? = i.dest?
  kind : i.SameKind j

theorem constants_mapUses (f : Temp → Temp) (i : Instr) :
    (i.mapUses f).constants = i.constants := by
  rw [constants, constants, operands_mapUses, List.map_map]
  exact List.map_congr_left fun o _ => o.const?_map f

theorem mapUses_readsRenamed (f : Temp → Temp) (i : Instr) : i.ReadsRenamed f (i.mapUses f) where
  uses := by rw [uses_mapUses, distinct_eq_eraseDups]
  dest := dest?_mapUses f i
  targets := targets_mapUses f i
  kind := ⟨slot?_mapUses f i, constants_mapUses f i, hasEffect_mapUses f i,
    isTerminator_mapUses f i⟩

theorem mapDest_writeRenamed (f : Temp → Temp) (i : Instr) : i.WriteRenamed f (i.mapDest f) where
  dest := dest?_mapDest f i
  uses := uses_mapDest f i
  targets := targets_mapDest f i
  kind := ⟨slot?_mapDest f i, congrArg (·.map Operand.const?) (operands_mapDest f i),
    hasEffect_mapDest f i, isTerminator_mapDest f i⟩

theorem mapTargets_renumbered (g : BlockId → BlockId) (i : Instr) :
    i.TargetsRenumbered g (i.mapTargets g) where
  targets := by rw [targets_mapTargets, distinct_eq_eraseDups]
  uses := uses_mapTargets g i
  dest := dest?_mapTargets g i
  kind := ⟨slot?_mapTargets g i, congrArg (·.map Operand.const?) (operands_mapTargets g i),
    hasEffect_mapTargets g i, isTerminator_mapTargets g i⟩

/-- A renaming leaves an instruction as it is just when it keeps every temp that is read. -/
theorem mapUses_eq_self_iff {f : Temp → Temp} {i : Instr} :
    i.mapUses f = i ↔ ∀ t ∈ i.uses, f t = t := by
  refine ⟨fun same t used => ?_, mapUses_eq_self⟩
  have operands := operands_mapUses f i
  rw [same] at operands
  have fixed := List.map_inj_left.mp (operands.symm.trans (List.map_id _).symm) (.temp t)
    (mem_uses.mp used)
  exact Operand.temp.inj fixed

/-- Whatever the instruction and the renamings, each rewrite shows in the part that it is about and
leaves the others alone; a renaming changes nothing just when it keeps every temp that is read. -/
theorem rewriting_agrees (i : Instr) (f : Temp → Temp) (g : BlockId → BlockId) :
    i.ReadsRenamed f (i.mapUses f) ∧ i.WriteRenamed f (i.mapDest f) ∧
      i.TargetsRenumbered g (i.mapTargets g) ∧ (i.mapUses f = i ↔ ∀ t ∈ i.uses, f t = t) :=
  ⟨mapUses_readsRenamed f i, mapDest_writeRenamed f i, mapTargets_renumbered g i,
    mapUses_eq_self_iff⟩

/-- A call that reads one temp twice, with a constant in between. -/
def repeatingCall : Instr := .call (some 4) "g" [.temp 2, .const 5, .temp 1, .temp 3, .temp 2]

/-- A branch between two blocks. -/
def forkingBranch : Instr := .branch (.compare .less (.temp 1) (.const 0)) 3 6

theorem repeatingCall_rewritten :
    repeatingCall.uses = [2, 1, 3] ∧
    (repeatingCall.mapUses fun t => t / 2 + 8).uses = [9, 8] ∧
    (repeatingCall.mapUses fun t => t / 2 + 8).constants = [none, some 5, none, none, none] ∧
    (repeatingCall.mapDest fun t => t / 2 + 8).dest? = some 10 ∧
    (repeatingCall.mapUses fun t => if t = 4 then 7 else t) = repeatingCall ∧
    forkingBranch.targets = [3, 6] ∧ (forkingBranch.mapTargets fun _ => 2).targets = [2] := by
  obtain ⟨reads, writes, _, _⟩ := rewriting_agrees repeatingCall (fun t => t / 2 + 8) id
  obtain ⟨_, _, _, kept⟩ := rewriting_agrees repeatingCall (fun t => if t = 4 then 7 else t) id
  obtain ⟨_, _, jumps, _⟩ := rewriting_agrees forkingBranch id fun _ => 2
  exact ⟨by decide, reads.uses.trans (by decide), reads.kind.constants.trans (by decide),
    writes.dest, kept.mpr (by decide), by decide, jumps.targets.trans (by decide)⟩

end Instr

end RegisterColoring
