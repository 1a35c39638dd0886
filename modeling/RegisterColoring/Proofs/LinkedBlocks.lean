import RegisterColoring.Proofs.LoopBodies
import RegisterColoring.Proofs.WellFormed

namespace RegisterColoring

theorem Block.ext {a b : Block} (id : a.id = b.id) (label : a.label = b.label)
    (instrs : a.instrs = b.instrs) (succs : a.succs = b.succs) (preds : a.preds = b.preds) :
    a = b := by
  cases a
  cases b
  congr

/-- Linked blocks are determined by their numbers, labels and instructions. -/
theorem link_ext {blocks others : List Block} (linked : link blocks = .ok blocks)
    (otherLinked : link others = .ok others) (length : blocks.length = others.length)
    (parts : ∀ (c : BlockId) (block other : Block), blocks[c]? = some block →
      others[c]? = some other →
      block.id = other.id ∧ block.label = other.label ∧ block.instrs = other.instrs) :
    blocks = others := by
  have partner : ∀ {c : BlockId} {block : Block}, blocks[c]? = some block →
      ∃ other, others[c]? = some other := by
    intro c block place
    have bound := (List.getElem?_eq_some_iff.mp place).1
    rw [length] at bound
    exact ⟨_, List.getElem?_eq_getElem bound⟩
  have missing : ∀ {c : BlockId}, blocks[c]? = none → others[c]? = none := by
    intro c place
    have outside := List.getElem?_eq_none_iff.mp place
    rw [length] at outside
    exact List.getElem?_eq_none outside
  have edges : edgesOf blocks = edgesOf others := by
    funext c
    unfold edgesOf
    cases place : blocks[c]? with
    | none => rw [missing place]
    | some block =>
      obtain ⟨other, otherPlace⟩ := partner place
      simp only [otherPlace, length, (parts c block other place otherPlace).2.2]
  refine List.ext_getElem? fun c => ?_
  cases place : blocks[c]? with
  | none => rw [missing place]
  | some block =>
    obtain ⟨other, otherPlace⟩ := partner place
    obtain ⟨ids, labels, instrs⟩ := parts c block other place otherPlace
    obtain ⟨succs, preds⟩ := (link_self.mp linked).2 c block place
    obtain ⟨otherSuccs, otherPreds⟩ := (link_self.mp otherLinked).2 c other otherPlace
    rw [edges, ← otherSuccs] at succs
    rw [edges, length, ← otherPreds] at preds
    rw [otherPlace]
    exact congrArg some (Block.ext ids labels instrs succs preds)

namespace Instr

theorem targets_mapTargets_of_injOn {r : BlockId → BlockId} {i : Instr}
    (injective : ∀ a ∈ i.targets, ∀ b ∈ i.targets, r a = r b → a = b) :
    (i.mapTargets r).targets = i.targets.map r := by
  rw [targets_mapTargets, distinct_eq_self (i.targets_nodup.map_on injective)]

end Instr

namespace Func

theorem mem_preds_of_linked {f : Func} (linked : link f.blocks = .ok f.blocks) {b p : BlockId} :
    p ∈ f.preds b ↔ b ∈ f.succs p := by
  have inside := edgesInside_of_linked linked
  cases found : f.blocks[b]? with
  | none =>
    have outside := List.getElem?_eq_none_iff.mp found
    simp only [preds_def, found, Option.map_none, Option.getD_none, List.not_mem_nil, false_iff]
    exact fun edge => Nat.not_lt.mpr outside (inside p b edge)
  | some block =>
    have stored := ((link_self.mp linked).2 b block found).2
    simp only [preds_def, found, Option.map_some, Option.getD_some, stored, List.mem_filter,
      List.mem_range, decide_eq_true_eq, ← succs_eq_edgesOf linked]
    refine and_iff_right_of_imp fun edge => ?_
    by_contra outside
    rw [succs_of_missing (List.getElem?_eq_none (Nat.not_lt.mp outside))] at edge
    exact absurd edge List.not_mem_nil

theorem preds_lt_of_linked {f : Func} (linked : link f.blocks = .ok f.blocks) {b p : BlockId}
    (edge : p ∈ f.preds b) : p < f.blocks.length := by
  by_contra outside
  have forward := (mem_preds_of_linked linked).mp edge
  rw [succs_of_missing (List.getElem?_eq_none (Nat.not_lt.mp outside))] at forward
  exact absurd forward List.not_mem_nil

theorem WellFormed.mem_preds {f : Func} (wf : f.WellFormed) {b p : BlockId} :
    p ∈ f.preds b ↔ b ∈ f.succs p := mem_preds_of_linked wf.linked

/-- The blocks from which an edge leads to `b`, none if that is the header of the loop. -/
def intoLoop (f : Func) (header b : BlockId) : List BlockId := if b = header then [] else f.preds b

theorem mem_intoLoop {f : Func} {header b p : BlockId} :
    p ∈ f.intoLoop header b ↔ b ≠ header ∧ p ∈ f.preds b := by
  unfold intoLoop
  split
  next same => simp [same]
  next other => simp [other]

/-- The blocks of a loop are found by a search against the edges that does not go beyond the
header. -/
theorem mem_naturalLoop_of_linked {f : Func} (linked : link f.blocks = .ok f.blocks)
    {header tail b : BlockId} (tailBound : tail < f.blocks.length) :
    b ∈ f.naturalLoop header tail ↔ b = header ∨ Path (f.intoLoop header) tail b := by
  have cut : beyond f.preds (.ofList [header]) = f.intoLoop header := by
    funext c
    simp only [beyond, intoLoop, IndexSet.mem_ofList, List.mem_singleton]
  have total := f.room_preds
  have less : room f.preds f.blocks.length (.ofList [header]) ≤ room f.preds f.blocks.length ∅ :=
    room_mono f.preds f.blocks.length fun x member => absurd member (IndexSet.not_mem_empty x)
  have inside : ∀ x < f.blocks.length, ∀ y ∈ f.preds x, y < f.blocks.length :=
    fun x _ y edge => preds_lt_of_linked linked edge
  rw [naturalLoop_def, mem_search inside, cut]
  · simp only [IndexSet.mem_ofList, List.mem_singleton, exists_eq_left]
  · intro x member
    rw [List.mem_singleton.mp member]
    exact tailBound
  · rw [List.length_singleton]
    omega

end Func

end RegisterColoring
