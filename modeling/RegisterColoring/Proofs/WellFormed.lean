import RegisterColoring.Proofs.Instructions
import RegisterColoring.Proofs.Reachability
import RegisterColoring.Resolution

namespace RegisterColoring

/-- Only the last entry of a list may satisfy `p`. -/
def LastOnly {α : Type} (p : α → Bool) (l : List α) : Prop :=
  ∀ pre x rest, l = pre ++ x :: rest → p x = true → rest = []

theorem LastOnly.append {α : Type} {p : α → Bool} {init : List α} {x : α}
    (none : ∀ y ∈ init, p y = false) : LastOnly p (init ++ [x]) := by
  intro pre y rest split holds
  by_contra more
  obtain ⟨front, last, ends⟩ := List.eq_nil_or_concat rest |>.resolve_left more
  rw [ends, List.concat_eq_append, ← List.cons_append, ← List.append_assoc] at split
  have same := (List.append_inj' split rfl).1
  have fails := none y (by rw [same]; simp)
  rw [fails] at holds
  exact nomatch holds

theorem LastOnly.none_of_last {α : Type} {p : α → Bool} {l : List α} (last : LastOnly p l)
    (fails : l.getLast?.any p = false) : ∀ y ∈ l, p y = false := by
  intro y member
  by_contra holds
  obtain ⟨pre, rest, split⟩ := List.append_of_mem member
  have alone := last pre y rest split (by simpa using holds)
  subst alone
  rw [split] at fails
  simp [holds] at fails

theorem LastOnly.of_map {α β : Type} {p : α → Bool} {q : β → Bool} {l : List α} {m : List β}
    (last : LastOnly q m) (same : l.map p = m.map q) : LastOnly p l := by
  intro pre x rest split holds
  rw [split, List.map_append, List.map_cons, holds] at same
  obtain ⟨pre', tail, cut, _, tailSame⟩ := List.map_eq_append_iff.mp same.symm
  obtain ⟨y, rest', cutTail, stops, restSame⟩ := List.map_eq_cons_iff.mp tailSame
  have none := last pre' y rest' (by rw [cut, cutTail]) stops
  rw [none] at restSame
  exact List.map_eq_nil_iff.mp restSame.symm

/-- An instruction from which control never passes on has none below it. -/
abbrev TerminatorLast : List Instr → Prop := LastOnly Instr.isTerminator

/-- Control passes through to the end. -/
def Straight (instrs : List Instr) : Prop := ∀ i ∈ instrs, i.isTerminator = false

theorem TerminatorLast.straight_or {instrs : List Instr} (last : TerminatorLast instrs) :
    Straight instrs ∨
      ∃ init i, instrs = init ++ [i] ∧ Straight init ∧ i.isTerminator = true := by
  rcases List.eq_nil_or_concat instrs with empty | ⟨init, i, ends⟩
  · left
    intro i member
    rw [empty] at member
    exact absurd member List.not_mem_nil
  · rw [List.concat_eq_append] at ends
    have early : Straight init := by
      intro j member
      by_contra second
      obtain ⟨a, b, cut⟩ := List.append_of_mem member
      have below := last a j (b ++ [i]) (by rw [ends, cut]; simp) (by simpa using second)
      exact absurd below (by simp)
    by_cases terminator : i.isTerminator = true
    · exact Or.inr ⟨init, i, ends, early, terminator⟩
    · left
      intro j member
      rw [ends] at member
      rcases List.mem_append.mp member with first | final
      · exact early j first
      · rw [List.mem_singleton.mp final]
        simpa using terminator

theorem successorsOf_straight {n b : Nat} {instrs : List Instr} (straight : Straight instrs) :
    successorsOf n b instrs = if b + 1 < n then [b + 1] else [] := by
  cases ends : instrs.getLast? with
  | none => simp [successorsOf, fallsThrough, ends]
  | some last =>
    have ordinary := straight last (List.mem_of_getLast? ends)
    simp [successorsOf, fallsThrough, ends, ordinary, Instr.targets_of_not_terminator ordinary]

theorem successorsOf_append {n b : Nat} {init : List Instr} {i : Instr}
    (terminator : i.isTerminator = true) : successorsOf n b (init ++ [i]) = i.targets := by
  simp [successorsOf, fallsThrough, terminator]

/-- The successors that the last instruction of block `b` asks for. -/
def edgesOf (blocks : List Block) (b : BlockId) : List BlockId :=
  match blocks[b]? with
  | some block => successorsOf blocks.length b block.instrs
  | none => []

theorem link_eq_ok {blocks linked : List Block} :
    link blocks = .ok linked ↔ (∀ b, ∀ s ∈ edgesOf blocks b, s < blocks.length) ∧
      linked = blocks.mapIdx fun b block =>
        { block with
          succs := edgesOf blocks b
          preds := (List.range blocks.length).filter fun p => b ∈ edgesOf blocks p } := by
  have stored : ∀ b, (blocks.mapIdx fun b block =>
      successorsOf blocks.length b block.instrs).getD b [] = edgesOf blocks b := by
    intro b
    rw [List.getD_eq_getElem?_getD, List.getElem?_mapIdx]
    unfold edgesOf
    cases blocks[b]? <;> rfl
  have inside : ((blocks.mapIdx fun b block => successorsOf blocks.length b block.instrs).all
      (·.all (· < blocks.length))) = true ↔ ∀ b, ∀ s ∈ edgesOf blocks b, s < blocks.length := by
    rw [List.all_eq_true]
    constructor
    · intro all b s edge
      unfold edgesOf at edge
      split at edge
      · rename_i block found
        have member : successorsOf blocks.length b block.instrs ∈
            blocks.mapIdx fun b block => successorsOf blocks.length b block.instrs :=
          List.mem_mapIdx.mpr (by
            obtain ⟨bound, value⟩ := List.getElem?_eq_some_iff.mp found
            exact ⟨b, bound, by rw [value]⟩)
        simpa using List.all_eq_true.mp (all _ member) s edge
      · exact absurd edge List.not_mem_nil
    · intro all row member
      obtain ⟨b, bound, value⟩ := List.mem_mapIdx.mp member
      refine List.all_eq_true.mpr fun s edge => ?_
      refine decide_eq_true (all b s ?_)
      unfold edgesOf
      rw [List.getElem?_eq_getElem bound]
      simpa only [value] using edge
  unfold link
  simp only [stored]
  split
  · rename_i all
    rw [Except.ok.injEq]
    exact ⟨fun same => ⟨inside.mp all, same.symm⟩, fun ⟨_, same⟩ => same.symm⟩
  · rename_i some
    refine ⟨fun impossible => ?_, fun ⟨all, _⟩ => absurd (inside.mpr all) some⟩
    exact nomatch impossible

/-- A list of blocks is linked if its stored edges are those that its instructions ask for. -/
theorem link_self {blocks : List Block} :
    link blocks = .ok blocks ↔ (∀ b, ∀ s ∈ edgesOf blocks b, s < blocks.length) ∧
      ∀ b block, blocks[b]? = some block → block.succs = edgesOf blocks b ∧
        block.preds = (List.range blocks.length).filter fun p => b ∈ edgesOf blocks p := by
  rw [link_eq_ok]
  refine and_congr_right fun _ => ⟨fun same b block found => ?_, fun stored => ?_⟩
  · have value := congrArg (·[b]?) same
    simp only [List.getElem?_mapIdx, found, Option.map_some, Option.some.injEq] at value
    rw [value]
    exact ⟨rfl, rfl⟩
  · refine List.ext_getElem? fun b => ?_
    rw [List.getElem?_mapIdx]
    cases found : blocks[b]? with
    | none => rfl
    | some block =>
      obtain ⟨succs, preds⟩ := stored b block found
      rw [Option.map_some, ← succs, ← preds]

/-- Blocks with the stored edges of others that ask for the same edges are linked with them. -/
theorem link_congr {blocks others : List Block} (linked : link blocks = .ok blocks)
    (length : others.length = blocks.length) (asked : edgesOf others = edgesOf blocks)
    (stored : ∀ (b : BlockId) (block other : Block), blocks[b]? = some block →
      others[b]? = some other → other.succs = block.succs ∧ other.preds = block.preds) :
    link others = .ok others := by
  obtain ⟨inside, old⟩ := link_self.mp linked
  refine link_self.mpr ⟨fun b s edge => ?_, fun b other found => ?_⟩
  · rw [length]
    exact inside b s (by rw [← asked]; exact edge)
  · obtain ⟨bound, _⟩ := List.getElem?_eq_some_iff.mp found
    have inRange : b < blocks.length := length ▸ bound
    have before := List.getElem?_eq_getElem inRange
    obtain ⟨succs, preds⟩ := old b _ before
    obtain ⟨sameSuccs, samePreds⟩ := stored b _ other before found
    rw [asked, length, sameSuccs, samePreds]
    exact ⟨succs, preds⟩

/-- Linking again changes nothing. -/
theorem link_linked {blocks linked : List Block} (run : link blocks = .ok linked) :
    link linked = .ok linked := by
  obtain ⟨inside, value⟩ := link_eq_ok.mp run
  have length : linked.length = blocks.length := by rw [value, List.length_mapIdx]
  have asked : edgesOf linked = edgesOf blocks := by
    funext b
    unfold edgesOf
    rw [length, value, List.getElem?_mapIdx]
    cases blocks[b]? <;> rfl
  refine link_self.mpr ⟨fun b s edge => ?_, fun b block found => ?_⟩
  · rw [length]
    exact inside b s (by rw [← asked]; exact edge)
  · rw [asked, length]
    rw [value, List.getElem?_mapIdx] at found
    obtain ⟨old, _, same⟩ := Option.map_eq_some_iff.mp found
    rw [← same]
    exact ⟨rfl, rfl⟩

/-- Linking changes nothing but edges. -/
theorem link_headings {blocks linked : List Block} (run : link blocks = .ok linked) :
    linked.map (fun block => (block.id, block.label, block.instrs)) =
      blocks.map fun block => (block.id, block.label, block.instrs) := by
  rw [(link_eq_ok.mp run).2]
  refine List.ext_getElem? fun b => ?_
  simp only [List.getElem?_map, List.getElem?_mapIdx]
  cases blocks[b]? <;> rfl

namespace Func

theorem mem_instrs {f : Func} {i : Instr} :
    i ∈ f.instrs ↔
      ∃ (b : BlockId) (block : Block), f.blocks[b]? = some block ∧ i ∈ block.instrs := by
  unfold instrs
  rw [List.mem_flatMap]
  constructor
  · rintro ⟨block, member, inside⟩
    obtain ⟨b, found⟩ := List.mem_iff_getElem?.mp member
    exact ⟨b, block, found, inside⟩
  · rintro ⟨b, block, found, inside⟩
    exact ⟨block, List.mem_of_getElem? found, inside⟩

theorem mem_allTemps {f : Func} {t : Temp} :
    t ∈ f.allTemps ↔
      f.pinned.contains t = true ∨ t ∈ f.params ∨ ∃ i ∈ f.instrs, t ∈ i.temps := by
  unfold allTemps
  rw [IndexSet.mem_insertAll, IndexSet.mem_insertAll, IndexMap.mem_keys, List.mem_flatMap]
  constructor
  · rintro (named | param | pin)
    · exact Or.inr (Or.inr named)
    · exact Or.inr (Or.inl param)
    · exact Or.inl pin
  · rintro (pin | param | named)
    · exact Or.inr (Or.inr pin)
    · exact Or.inr (Or.inl param)
    · exact Or.inl named

/-- The numbers and labels of the blocks. -/
def headings (f : Func) : List (BlockId × String) := f.blocks.map fun block => (block.id, block.label)

theorem headings_getElem? {f : Func} {b : BlockId} {block : Block}
    (found : f.blocks[b]? = some block) : f.headings[b]? = some (block.id, block.label) := by
  rw [headings, List.getElem?_map, found, Option.map_some]

/-- The representation invariant of functions. -/
structure WellFormed (f : Func) : Prop where
  nonempty : f.blocks ≠ []
  linked : link f.blocks = .ok f.blocks
  terminators : ∀ block ∈ f.blocks, TerminatorLast block.instrs
  temps : ∀ t ∈ f.allTemps, t < f.nextTemp
  spillTemps : ∀ t ∈ f.spillTemps, t < f.nextTemp
  slots : ∀ i ∈ f.instrs, ∀ s, i.slot? = some s → s < f.numSlots

/-- Edges that are consistent are those of linked blocks. -/
theorem rebuildEdges_eq_self {f : Func} :
    f.rebuildEdges = .ok f ↔ link f.blocks = .ok f.blocks := by
  constructor
  · intro consistent
    obtain ⟨blocks, linked, same⟩ := bind_eq_ok.mp consistent
    have stored : blocks = f.blocks := congrArg Func.blocks (Except.ok.inj same)
    rwa [stored] at linked
  · intro linked
    exact bind_eq_ok.mpr ⟨f.blocks, linked, rfl⟩

theorem succs_eq_edgesOf {f : Func} (linked : link f.blocks = .ok f.blocks) (b : BlockId) :
    f.succs b = edgesOf f.blocks b := by
  cases found : f.blocks[b]? with
  | some block => rw [succs_of_found found, ((link_self.mp linked).2 b block found).1]
  | none =>
    rw [succs_of_missing found]
    simp only [edgesOf, found]

theorem edgesInside_of_linked {f : Func} (linked : link f.blocks = .ok f.blocks) :
    f.EdgesInside := by
  intro b s edge
  rw [succs_eq_edgesOf linked] at edge
  exact (link_self.mp linked).1 b s edge

theorem WellFormed.succs_eq {f : Func} (wf : f.WellFormed) (b : BlockId) :
    f.succs b = edgesOf f.blocks b := succs_eq_edgesOf wf.linked b

theorem WellFormed.temp_lt {f : Func} (wf : f.WellFormed) {i : Instr} {t : Temp}
    (member : i ∈ f.instrs) (named : t ∈ i.temps) : t < f.nextTemp :=
  wf.temps t (mem_allTemps.mpr (Or.inr (Or.inr ⟨i, member, named⟩)))

theorem WellFormed.entry_block {f : Func} (wf : f.WellFormed) :
    ∃ block, f.blocks[entry]? = some block :=
  ⟨_, List.getElem?_eq_getElem (List.length_pos_iff.mpr wf.nonempty)⟩

theorem WellFormed.edgesInside {f : Func} (wf : f.WellFormed) : f.EdgesInside :=
  edgesInside_of_linked wf.linked

/-- Control can stand in block `b` with the instructions `rest` still to come. -/
def At (f : Func) (b : BlockId) (rest : List Instr) : Prop :=
  ∃ block pre, f.blocks[b]? = some block ∧ block.instrs = pre ++ rest ∧ Straight pre

theorem At.start {f : Func} {b : BlockId} {block : Block} (found : f.blocks[b]? = some block) :
    f.At b block.instrs :=
  ⟨block, [], found, rfl, fun _ member => absurd member List.not_mem_nil⟩

theorem At.next {f : Func} {b : BlockId} {i : Instr} {rest : List Instr} (here : f.At b (i :: rest))
    (ordinary : i.isTerminator = false) : f.At b rest := by
  obtain ⟨block, pre, found, split, straight⟩ := here
  refine ⟨block, pre ++ [i], found, by rw [split]; simp, fun j member => ?_⟩
  rcases List.mem_append.mp member with early | last
  · exact straight j early
  · rw [List.mem_singleton.mp last]
    exact ordinary

theorem At.mem_instrs {f : Func} {b : BlockId} {i : Instr} {rest : List Instr}
    (here : f.At b (i :: rest)) : i ∈ f.instrs := by
  obtain ⟨block, pre, found, split, _⟩ := here
  exact Func.mem_instrs.mpr ⟨b, block, found, by rw [split]; simp⟩

/-- At the end of a block that has no terminator, control passes to the block below. -/
theorem At.falls {f : Func} {b : BlockId} (wf : f.WellFormed) (here : f.At b []) :
    f.succs b = if b + 1 < f.blocks.length then [b + 1] else [] := by
  obtain ⟨block, pre, found, split, straight⟩ := here
  rw [List.append_nil] at split
  rw [wf.succs_eq]
  simp only [edgesOf, found, split]
  exact successorsOf_straight straight

/-- A terminator ends its block and names the successors. -/
theorem At.leaves {f : Func} {b : BlockId} {i : Instr} {rest : List Instr} (wf : f.WellFormed)
    (here : f.At b (i :: rest)) (terminator : i.isTerminator = true) :
    rest = [] ∧ f.succs b = i.targets := by
  obtain ⟨block, pre, found, split, straight⟩ := here
  have alone := wf.terminators block (List.mem_of_getElem? found) pre i rest split terminator
  subst alone
  refine ⟨rfl, ?_⟩
  rw [wf.succs_eq]
  simp only [edgesOf, found, split]
  exact successorsOf_append terminator

end Func

end RegisterColoring
