import RegisterColoring.Proofs.Attempts
import RegisterColoring.Proofs.Passes

namespace RegisterColoring

theorem firstRepeat_eq_none {seen labels : List String} :
    firstRepeat seen labels = none ↔ labels.Nodup ∧ ∀ label ∈ labels, label ∉ seen := by
  induction labels generalizing seen with
  | nil => simp [firstRepeat]
  | cons label rest ih =>
    unfold firstRepeat
    by_cases before : label ∈ seen
    · simp [before]
    · rw [if_neg before, ih]
      simp only [List.nodup_cons, List.mem_cons, forall_eq_or_imp, not_or]
      constructor
      · intro ⟨nodup, fresh⟩
        have apart : label ∉ rest := fun member => (fresh label member).1 rfl
        exact ⟨⟨apart, nodup⟩, before, fun other member => (fresh other member).2⟩
      · intro ⟨⟨apart, nodup⟩, _, fresh⟩
        refine ⟨nodup, fun other member => ⟨fun same => ?_, fresh other member⟩⟩
        rw [same] at member
        exact apart member

theorem resolveBlocks_labels {func : String} {labels : List String}
    {named : List (String × List Source.Statement)} {blocks : List (String × List Instr)}
    (run : resolveBlocks func labels named = .ok blocks) : blocks.map (·.1) = named.map (·.1) := by
  induction named generalizing blocks with
  | nil =>
    cases run
    rfl
  | cons first rest ih =>
    obtain ⟨instrs, _, run⟩ := bind_eq_ok.mp run
    obtain ⟨later, others, rfl⟩ := map_eq_ok.mp run
    rw [List.map_cons, List.map_cons, ih others]

namespace Func

/-- Blocks are numbered by their positions and have different labels. -/
structure Numbered (f : Func) : Prop where
  ids : ∀ (b id : BlockId) (label : String), f.headings[b]? = some (id, label) → id = b
  labels : (f.headings.map (·.2)).Nodup

theorem Numbered.label_inj {f : Func} (numbered : f.Numbered) {b c x y : BlockId} {label : String}
    (first : f.headings[b]? = some (x, label)) (second : f.headings[c]? = some (y, label)) :
    b = c := by
  have atFirst : (f.headings.map (·.2))[b]? = some label := by rw [List.getElem?_map, first]; rfl
  have atSecond : (f.headings.map (·.2))[c]? = some label := by rw [List.getElem?_map, second]; rfl
  obtain ⟨firstBound, firstValue⟩ := List.getElem?_eq_some_iff.mp atFirst
  obtain ⟨secondBound, secondValue⟩ := List.getElem?_eq_some_iff.mp atSecond
  exact (numbered.labels.getElem_inj_iff).mp (firstValue.trans secondValue.symm)

theorem numbered_of_headings {f g : Func} (numbered : f.Numbered) (same : g.headings = f.headings) :
    g.Numbered := by
  refine ⟨fun b id label place => ?_, ?_⟩
  · rw [same] at place
    exact numbered.ids b id label place
  · rw [same]
    exact numbered.labels

theorem Built.headings_eq {name : String} {params : List Temp} {pinned : IndexMap Color}
    {blocks : List (String × List Instr)} {f : Func} (built : f.Built name params pinned blocks) :
    f.headings = blocks.mapIdx fun b block => (b, block.1) := by
  have rows := congrArg (List.map fun row => (row.1, row.2.1)) (link_headings built.linked)
  rw [List.map_map, List.map_map] at rows
  refine rows.trans (List.ext_getElem? fun b => ?_)
  rw [List.getElem?_map, unlinked_getElem?, List.getElem?_mapIdx]
  cases blocks[b]? <;> rfl

theorem ofSource_numbered {src : Source.Func} {automatic : Bool} {f : Func}
    (run : Func.ofSource src automatic = .ok f) : f.Numbered := by
  obtain ⟨pins, blocks, _, _, unique, resolved, built⟩ := Func.ofSource_eq_ok.mp run
  refine ⟨fun b id label place => ?_, ?_⟩
  · rw [built.headings_eq, List.getElem?_mapIdx] at place
    obtain ⟨block, _, same⟩ := Option.map_eq_some_iff.mp place
    exact (congrArg Prod.fst same).symm
  · have labels : f.headings.map (·.2) = blocks.map (·.1) := by
      rw [built.headings_eq]
      refine List.ext_getElem? fun b => ?_
      simp only [List.getElem?_map, List.getElem?_mapIdx]
      cases blocks[b]? <;> rfl
    rw [labels, resolveBlocks_labels resolved]
    exact (firstRepeat_eq_none.mp unique).1

theorem Prunes.numbered {f g : Func} {r : BlockId → BlockId} (prunes : Prunes f g r)
    (wf : f.WellFormed) (numbered : f.Numbered) : g.Numbered := by
  -- Every heading of the result is the image of one that was numbered by its position.
  have origin : ∀ (c id : BlockId) (label : String), g.headings[c]? = some (id, label) →
      id = c ∧ ∃ b, r b = c ∧ f.headings[b]? = some (b, label) := by
    intro c id label place
    have bound : c < g.blocks.length := by
      have inside := (List.getElem?_eq_some_iff.mp place).1
      rwa [Func.headings, List.length_map] at inside
    obtain ⟨b, reach, rfl⟩ := prunes.onto c bound
    have found := List.getElem?_eq_getElem (reachable_lt wf.edgesInside reach)
    have heading := headings_getElem? found
    have here := numbered.ids b _ _ heading
    have image := prunes.headings b reach _ _ heading
    obtain ⟨sameId, sameLabel⟩ := Prod.mk.inj (Option.some.inj (place.symm.trans image))
    rw [here] at sameId heading
    rw [sameLabel]
    exact ⟨sameId, b, rfl, heading⟩
  refine ⟨fun c id label place => (origin c id label place).1, ?_⟩
  rw [List.nodup_iff_getElem?_ne_getElem?]
  intro c d before bound same
  rw [List.length_map] at bound
  obtain ⟨⟨x, label⟩, earlier⟩ : ∃ heading, g.headings[c]? = some heading :=
    ⟨_, List.getElem?_eq_getElem (Nat.lt_trans before bound)⟩
  obtain ⟨⟨y, other⟩, later⟩ : ∃ heading, g.headings[d]? = some heading :=
    ⟨_, List.getElem?_eq_getElem bound⟩
  rw [List.getElem?_map, List.getElem?_map, earlier, later, Option.map_some, Option.map_some,
    Option.some.injEq] at same
  obtain ⟨_, b, first, atB⟩ := origin c x label earlier
  obtain ⟨_, e, second, atE⟩ := origin d y other later
  rw [show label = other from same] at atB
  have equal : b = e := numbered.label_inj atB atE
  rw [equal, second] at first
  exact Nat.ne_of_lt before first.symm

theorem TrimsStar.headings_eq {f g : Func} (trims : f.TrimsStar g) : g.headings = f.headings := by
  induction trims with
  | refl => rfl
  | tail _ step ih => exact step.headings.trans ih

theorem Spills.headings_eq {f g : Func} {temps : List Temp} {slots : IndexMap Slot}
    (spills : f.Spills temps slots g) : g.headings = f.headings := by
  refine List.ext_getElem? fun b => ?_
  cases found : f.blocks[b]? with
  | some block =>
    obtain ⟨_, _, _, place⟩ := spills.place found
    rw [headings_getElem? found, headings_getElem? place]
  | none =>
    have outside := List.getElem?_eq_none_iff.mp found
    have missing : g.blocks[b]? = none := by
      rw [← spills.length] at outside
      exact List.getElem?_eq_none outside
    rw [headings, headings, List.getElem?_map, List.getElem?_map, found, missing]

theorem Derived.numbered {f : Func} (derived : f.Derived) : f.Numbered := by
  induction derived with
  | source resolved => exact ofSource_numbered resolved
  | prune before run numbered =>
    obtain ⟨n, h, r, pruned, prunes⟩ := pruneUnreachable_prunes before.wellFormed
    cases pruned.symm.trans run
    exact prunes.numbered before.wellFormed numbered
  | eliminate before run numbered =>
    have trims := (DeadCode.eliminateFrom_trims before.wellFormed run).1
    exact numbered_of_headings numbered trims.headings_eq
  | spill _ run numbered => exact numbered_of_headings numbered (spill_ok run).headings_eq
  | freshTemp _ run numbered =>
    obtain ⟨_, rfl⟩ := freshTemp_ok run
    exact numbered_of_headings numbered rfl
  | freshSpillTemp _ run numbered =>
    have same := freshSpillTemp_ok run
    subst same
    exact numbered_of_headings numbered rfl
  | allocSlot _ run numbered =>
    have same := allocSlot_ok run
    subst same
    exact numbered_of_headings numbered rfl

/-- The slots in which parameters arrive exist. -/
def StackBound (f : Func) : Prop := ∀ p s, f.stackParams.get? p = some s → s < f.numSlots

theorem StackBound.grow {f g : Func} (bound : f.StackBound) (same : g.stackParams = f.stackParams)
    (slots : f.numSlots ≤ g.numSlots) : g.StackBound := by
  intro p s found
  rw [same] at found
  exact Nat.lt_of_lt_of_le (bound p s found) slots

theorem Spills.stackBound {f g : Func} {temps : List Temp} {slots : IndexMap Slot}
    (spills : f.Spills temps slots g) (bound : f.StackBound) : g.StackBound := by
  intro p s found
  rw [spills.stackParams] at found
  rcases IndexMap.mem_of_get?_insertAll found with member | old
  · obtain ⟨param, _, entry⟩ := List.mem_filterMap.mp member
    obtain ⟨slot, place, same⟩ := Option.map_eq_some_iff.mp entry
    cases same
    exact (spills.slot_bounds place).2
  · have below := bound p s old
    rw [spills.numSlots]
    exact Nat.lt_of_lt_of_le below (Nat.le_add_right _ _)

theorem Derived.stackBound {f : Func} (derived : f.Derived) : f.StackBound := by
  induction derived with
  | source resolved =>
    obtain ⟨pins, blocks, _, _, built⟩ := Func.ofSource_ok resolved
    intro p s found
    rw [built.stackParams] at found
    cases found
  | prune before run bound =>
    obtain ⟨n, h, r, pruned, prunes⟩ := pruneUnreachable_prunes before.wellFormed
    cases pruned.symm.trans run
    rw [prunes.fields]
    exact bound.grow rfl (Nat.le_refl _)
  | eliminate before run bound =>
    have trims := (DeadCode.eliminateFrom_trims before.wellFormed run).1
    rw [trims.fields]
    exact bound.grow rfl (Nat.le_refl _)
  | spill _ run bound => exact (spill_ok run).stackBound bound
  | freshTemp _ run bound =>
    obtain ⟨_, rfl⟩ := freshTemp_ok run
    exact bound.grow rfl (Nat.le_refl _)
  | freshSpillTemp _ run bound =>
    have same := freshSpillTemp_ok run
    subst same
    exact bound.grow rfl (Nat.le_refl _)
  | allocSlot _ run bound =>
    have same := allocSlot_ok run
    subst same
    exact bound.grow rfl (Nat.le_succ _)

/-- The successors of a block are those to which its terminator jumps, or the block below. -/
theorem WellFormed.block_succs {f : Func} (wf : f.WellFormed) {b : BlockId} {block : Block}
    (found : f.blocks[b]? = some block) :
    (∀ i ∈ block.instrs, i.isTerminator = true → block.succs = i.targets) ∧
      ((∀ i ∈ block.instrs, i.isTerminator = false) →
        block.succs = if b + 1 < f.blocks.length then [b + 1] else []) := by
  have succs : block.succs = successorsOf f.blocks.length b block.instrs := by
    have asked := wf.succs_eq b
    rwa [succs_of_found found, edgesOf, found] at asked
  rw [succs]
  refine ⟨fun i inside terminator => ?_, successorsOf_straight⟩
  obtain ⟨pre, rest, split⟩ := List.append_of_mem inside
  have last := wf.terminators block (List.mem_of_getElem? found) pre i rest split terminator
  rw [split, last, successorsOf_append terminator]

/-- Jumps follow the edges of their block. -/
theorem WellFormed.target_mem_succs {f : Func} (wf : f.WellFormed) {b : BlockId} {block : Block}
    {i : Instr} {target : BlockId} (found : f.blocks[b]? = some block) (inside : i ∈ block.instrs)
    (jumps : target ∈ i.targets) : target ∈ f.succs b := by
  have terminator : i.isTerminator = true := by
    by_contra ordinary
    rw [Instr.targets_of_not_terminator (by simpa using ordinary)] at jumps
    exact absurd jumps List.not_mem_nil
  rw [succs_of_found found, (wf.block_succs found).1 i inside terminator]
  exact jumps

/-- Jumps lead to blocks that exist. -/
theorem WellFormed.target_lt {f : Func} (wf : f.WellFormed) {i : Instr} {target : BlockId}
    (member : i ∈ f.instrs) (jumps : target ∈ i.targets) : target < f.blocks.length := by
  obtain ⟨b, block, found, inside⟩ := mem_instrs.mp member
  exact wf.edgesInside b target (wf.target_mem_succs found inside jumps)

/-- The representation of a function is intact. -/
structure Intact (f : Func) : Prop where
  ids : ∀ (b : BlockId) (block : Block), f.blocks[b]? = some block → block.id = b
  labels : (f.blocks.map (·.label)).Nodup
  terminators : ∀ block ∈ f.blocks, ∀ pre i rest, block.instrs = pre ++ i :: rest →
    i.isTerminator = true → rest = []
  targets : ∀ i ∈ f.instrs, ∀ target ∈ i.targets, target < f.blocks.length
  edges : f.rebuildEdges = .ok f
  temps : ∀ t ∈ f.allTemps, t < f.nextTemp
  spillTemps : ∀ t ∈ f.spillTemps, t < f.nextTemp
  slots : ∀ i ∈ f.instrs, ∀ s, i.slot? = some s → s < f.numSlots
  stackParams : ∀ p s, f.stackParams.get? p = some s → s < f.numSlots

theorem Derived.intact {f : Func} (derived : f.Derived) : f.Intact := by
  have wf := derived.wellFormed
  have numbered := derived.numbered
  have labels : f.headings.map (·.2) = f.blocks.map (·.label) := List.map_map
  exact {
    ids := fun b block found => numbered.ids b _ _ (headings_getElem? found)
    labels := labels ▸ numbered.labels
    terminators := wf.terminators
    targets := fun i member target => wf.target_lt member
    edges := rebuildEdges_eq_self.mpr wf.linked
    temps := wf.temps
    spillTemps := wf.spillTemps
    slots := wf.slots
    stackParams := derived.stackBound }

end Func

/-- The operations that change a function. -/
inductive Operation
  | prune
  | eliminate (bound : Nat)
  | spill (temps : List Temp)
  | freshTemp
  | freshSpillTemp
  | allocSlot

namespace Operation

/-- What an operation leaves. An elimination that fails leaves a function too. -/
def apply (f : Func) : Operation → Except Failure Func
  | prune => f.pruneUnreachable.map (·.2)
  | eliminate bound => .ok (DeadCode.eliminate bound f).1
  | spill temps => (f.spill temps).map (·.2)
  | freshTemp => f.freshTemp.map (·.2)
  | freshSpillTemp => f.freshSpillTemp.map (·.2)
  | allocSlot => f.allocSlot.map (·.2)

def applyAll (f : Func) : List Operation → Except Failure Func
  | [] => .ok f
  | op :: rest => (op.apply f).bind fun g => applyAll g rest

theorem counter_of_freshTemp {f : Func} {e : Failure} (run : f.freshTemp = .error e) :
    e = .fault .counterExhausted := by
  unfold Func.freshTemp Func.freshTempM at run
  split at run
  · cases run
  · cases run
    rfl

theorem counter_of_allocSlot {f : Func} {e : Failure} (run : f.allocSlot = .error e) :
    e = .fault .counterExhausted := by
  unfold Func.allocSlot Func.allocSlotM at run
  split at run
  · cases run
  · cases run
    rfl

/-- A step that may fail in one way only, seen from both sides. -/
theorem map_ok_or {α : Type} {x : Except Failure (α × Func)} {P : Func → Prop} {e : Failure}
    (good : ∀ a g, x = .ok (a, g) → P g) (bad : ∀ reason, x = .error reason → reason = e) :
    (∃ g, x.map (·.2) = .ok g ∧ P g) ∨ x.map (·.2) = .error e := by
  cases run : x with
  | ok result => exact Or.inl ⟨result.2, rfl, good result.1 result.2 run⟩
  | error reason => exact Or.inr (congrArg Except.error (bad reason run))

/-- An operation gives a function again, unless a counter is exhausted. -/
theorem apply_derived {f : Func} (derived : f.Derived) (op : Operation) :
    (∃ g, op.apply f = .ok g ∧ g.Derived) ∨ op.apply f = .error (.fault .counterExhausted) := by
  cases op with
  | prune =>
    obtain ⟨n, g, r, pruned, _⟩ := Func.pruneUnreachable_prunes derived.wellFormed
    exact Or.inl ⟨g, map_eq_ok.mpr ⟨_, pruned, rfl⟩, .prune derived pruned⟩
  | eliminate bound => exact Or.inl ⟨_, rfl, .eliminate derived rfl⟩
  | spill temps => exact map_ok_or (fun _ _ => .spill derived) fun _ => Func.spill_error
  | freshTemp => exact map_ok_or (fun _ _ => .freshTemp derived) fun _ => counter_of_freshTemp
  | freshSpillTemp =>
    refine map_ok_or (fun _ _ => .freshSpillTemp derived) fun reason run => ?_
    rcases bind_eq_error.mp run with failed | ⟨_, _, impossible⟩
    · exact counter_of_freshTemp failed
    · cases impossible
  | allocSlot => exact map_ok_or (fun _ _ => .allocSlot derived) fun _ => counter_of_allocSlot

theorem applyAll_derived {f : Func} (derived : f.Derived) (ops : List Operation) :
    (∃ g, applyAll f ops = .ok g ∧ g.Derived) ∨
      applyAll f ops = .error (.fault .counterExhausted) := by
  induction ops generalizing f with
  | nil => exact Or.inl ⟨f, rfl, derived⟩
  | cons op rest ih =>
    rcases apply_derived derived op with ⟨g, run, next⟩ | failed
    · have step : applyAll f (op :: rest) = applyAll g rest := by rw [applyAll, run]; rfl
      rw [step]
      exact ih next
    · exact Or.inr (bind_eq_error.mpr (Or.inl failed))

/-- Whatever is done to a written function, its representation stays intact. -/
theorem applyAll_intact {src : Source.Func} {automatic : Bool} {f : Func}
    (resolved : Func.ofSource src automatic = .ok f) (ops : List Operation) :
    (∃ g, applyAll f ops = .ok g ∧ g.Intact) ∨
      applyAll f ops = .error (.fault .counterExhausted) := by
  rcases applyAll_derived (.source resolved) ops with ⟨g, run, derived⟩ | failed
  · exact Or.inl ⟨g, run, derived.intact⟩
  · exact Or.inr failed

end Operation

/-- A parameter, a value that nobody reads, and a block that cannot be reached. -/
def busySource : Source.Func :=
  ⟨"busy", [⟨0, none⟩],
    [.statement (.assign 1 (.binary .add (.temp 0) (.const 1))),
      .statement (.assign 2 (.move (.const 5))),
      .statement (.ret (some (.temp 1))),
      .statement (.goto "busy.entry")]⟩

/-- The temps to be spilled are given twice or do not occur, and the first elimination fails. -/
def busyOperations : List Operation :=
  [.spill [0, 0, 7], .freshSpillTemp, .eliminate 1, .prune, .allocSlot, .spill [1], .eliminate 9]

theorem busySource_intact : ∃ f g, Func.ofSource busySource false = .ok f ∧
    Operation.applyAll f busyOperations = .ok g ∧ g.Intact ∧ g.blocks.length = 1 ∧
    g.instrs.length = 5 ∧ g.stackParams.entries = [(0, 1)] ∧ g.numSlots = 5 ∧ g.nextTemp = 7 := by
  have result : (Func.ofSource busySource false).bind (fun f =>
      (Operation.applyAll f busyOperations).map fun g =>
        (g.blocks.length, g.instrs.length, g.stackParams.entries, g.numSlots, g.nextTemp)) =
      .ok (1, 5, [(0, 1)], 5, 7) := by decide +kernel
  obtain ⟨f, resolved, rest⟩ := bind_eq_ok.mp result
  obtain ⟨g, run, values⟩ := map_eq_ok.mp rest
  simp only [Prod.mk.injEq] at values
  rcases Operation.applyAll_intact resolved busyOperations with ⟨h, again, intact⟩ | failed
  · cases run.symm.trans again
    exact ⟨f, g, resolved, run, intact, values⟩
  · cases run.symm.trans failed

end RegisterColoring
