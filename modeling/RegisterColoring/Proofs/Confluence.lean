import Mathlib.Logic.Relation
import RegisterColoring.Proofs.Elimination

namespace RegisterColoring

open Relation

namespace Func

variable {f g h : Func} {b : BlockId} {i : Instr} {row rest kept : List Instr} {t : Temp}

theorem DeadAt.liveAt_cons (dead : f.DeadAt b i rest) (live : f.LiveAt t b rest) :
    f.LiveAt t b (i :: rest) := by
  obtain ⟨_, _, d, writes, unread, _⟩ := dead
  refine .pass (fun same => ?_) live
  cases writes.symm.trans same
  exact unread live

/-- Where nothing is left of a row, it hides nothing that is live behind it. -/
theorem Strips.liveAt_of_nil (strips : f.Strips b row []) (live : f.LiveAt t b []) :
    f.LiveAt t b row := by
  induction row with
  | nil => exact live
  | cons i row ih =>
    cases strips with
    | drop dead later => exact dead.liveAt_cons (ih later)

/-- The first instruction that is left stands in the row behind dead ones only. -/
theorem Strips.of_cons (strips : f.Strips b row (i :: kept)) :
    ∃ rest, f.Strips b rest kept ∧ ∀ t, f.LiveAt t b (i :: rest) → f.LiveAt t b row := by
  induction row with
  | nil => cases strips
  | cons j row ih =>
    cases strips with
    | keep later => exact ⟨row, later, fun t live => live⟩
    | drop dead later =>
      obtain ⟨rest, strips, up⟩ := ih later
      exact ⟨rest, strips, fun t live => dead.liveAt_cons (up t live)⟩

theorem Sheds.origin (sheds : f.Sheds g) {image : Block} (place : g.blocks[b]? = some image) :
    ∃ block row, f.blocks[b]? = some block ∧ image = { block with instrs := row } ∧
      f.Strips b block.instrs row := by
  obtain ⟨block, found, _⟩ := sheds.trims.origin place
  obtain ⟨row, same, strips⟩ := sheds.rows b block found
  exact ⟨block, row, found, Option.some.inj (place.symm.trans same), strips⟩

/-- No more is live without dead instructions. -/
theorem Sheds.liveAt (sheds : f.Sheds g) (live : g.LiveAt t b kept) (strips : f.Strips b row kept) :
    f.LiveAt t b row := by
  induction live generalizing row with
  | read used =>
    obtain ⟨rest, _, up⟩ := strips.of_cons
    exact up t (.read used)
  | pass other _ ih =>
    obtain ⟨rest, later, up⟩ := strips.of_cons
    exact up t (.pass other (ih later))
  | edge next place _ ih =>
    rw [sheds.trims.succs_eq] at next
    obtain ⟨block, row, found, rfl, below⟩ := sheds.origin place
    exact strips.liveAt_of_nil (.edge next found (ih below))

/-- No more addresses are taken. -/
theorem Sheds.addressTaken (sheds : f.Sheds g) (taken : g.AddressTaken t) : f.AddressTaken t := by
  obtain ⟨b, path, k, d, here⟩ := taken
  obtain ⟨image, place, _, split⟩ := instrAt_eq_some here
  have member : .addrOf d t ∈ image.instrs := by
    rw [split]
    exact List.mem_append_right _ List.mem_cons_self
  obtain ⟨block, row, found, rfl, strips⟩ := sheds.origin place
  obtain ⟨m, there⟩ := List.mem_iff_getElem?.mp (strips.thins.sublist.subset member)
  refine ⟨b, ?_, m, d, ?_⟩
  · rwa [funext sheds.trims.succs_eq] at path
  · rw [instrAt_of_found found]
    exact there

theorem Sheds.deadAt (sheds : f.Sheds g) (strips : f.Strips b rest kept) (dead : f.DeadAt b i rest) :
    g.DeadAt b i kept := by
  obtain ⟨reach, quiet, d, writes, unread, untaken⟩ := dead
  refine ⟨?_, quiet, d, writes, fun live => unread (sheds.liveAt live strips),
    fun taken => untaken (sheds.addressTaken taken)⟩
  rw [sheds.trims.reachable_eq]
  exact reach

/-- What is left of a row in two ways has a common rest. -/
theorem Sheds.strips_join (left : f.Sheds g) (right : f.Sheds h) {first second : List Instr}
    (one : f.Strips b row first) (two : f.Strips b row second) :
    ∃ both, g.Strips b first both ∧ h.Strips b second both := by
  induction one generalizing second with
  | nil =>
    cases two
    exact ⟨[], .nil, .nil⟩
  | keep one ih =>
    cases two with
    | keep two =>
      obtain ⟨both, onLeft, onRight⟩ := ih two
      exact ⟨_, .keep onLeft, .keep onRight⟩
    | drop dead two =>
      obtain ⟨both, onLeft, onRight⟩ := ih two
      exact ⟨both, .drop (left.deadAt one dead) onLeft, onRight⟩
  | drop dead one ih =>
    cases two with
    | keep two =>
      obtain ⟨both, onLeft, onRight⟩ := ih two
      exact ⟨both, onLeft, .drop (right.deadAt two dead) onRight⟩
    | drop _ two => exact ih two

/-- A function that is `f` with other rows is `g` with dead instructions removed if its rows are. -/
theorem Sheds.of_rows {k : Func} (sheds : f.Sheds g) (length : k.blocks.length = f.blocks.length)
    (fields : k = { f with blocks := k.blocks })
    (rows : ∀ (b : BlockId) (block : Block), f.blocks[b]? = some block → ∃ first both,
      g.blocks[b]? = some { block with instrs := first } ∧
        k.blocks[b]? = some { block with instrs := both } ∧ g.Strips b first both) :
    g.Sheds k where
  rows b image place := by
    obtain ⟨block, _, found, _⟩ := sheds.origin place
    obtain ⟨first, both, same, there, strips⟩ := rows b block found
    cases Option.some.inj (place.symm.trans same)
    exact ⟨both, there, strips⟩
  length := length.trans sheds.length.symm
  fields := by
    rw [fields, sheds.fields]

theorem Sheds.join (left : f.Sheds g) (right : f.Sheds h) : ∃ k, g.Sheds k ∧ h.Sheds k := by
  have rows : ∀ (b : BlockId) (block : Block), f.blocks[b]? = some block → ∃ both first second,
      g.blocks[b]? = some { block with instrs := first } ∧
        h.blocks[b]? = some { block with instrs := second } ∧
        g.Strips b first both ∧ h.Strips b second both := by
    intro b block found
    obtain ⟨first, onLeft, one⟩ := left.rows b block found
    obtain ⟨second, onRight, two⟩ := right.rows b block found
    obtain ⟨both, strips⟩ := left.strips_join right one two
    exact ⟨both, first, second, onLeft, onRight, strips⟩
  choose! both first second atLeft atRight strips using rows
  have place : ∀ (b : BlockId) (block : Block), f.blocks[b]? = some block →
      (f.blocks.mapIdx fun b block => { block with instrs := both b block })[b]? =
        some { block with instrs := both b block } := by
    intro b block found
    rw [List.getElem?_mapIdx, found, Option.map_some]
  refine ⟨{ f with blocks := f.blocks.mapIdx fun b block => { block with instrs := both b block } },
    left.of_rows List.length_mapIdx rfl fun b block found => ?_,
    right.of_rows List.length_mapIdx rfl fun b block found => ?_⟩
  · exact ⟨_, _, atLeft b block found, place b block found, (strips b block found).1⟩
  · exact ⟨_, _, atRight b block found, place b block found, (strips b block found).2⟩

theorem sheds_confluent (left : ReflTransGen Sheds f g) (right : ReflTransGen Sheds f h) :
    Join (ReflTransGen Sheds) g h := by
  refine church_rosser (fun f g h one two => ?_) left right
  obtain ⟨k, onLeft, onRight⟩ := one.join two
  exact ⟨k, .single onLeft, .single onRight⟩

theorem wellFormed_of_sheds (sheds : ReflTransGen Sheds f g) (wf : f.WellFormed) : g.WellFormed :=
  TrimsStar.wellFormed (ReflTransGen.mono (fun _ _ step => step.trims) _ _ sheds) wf

end Func

end RegisterColoring
