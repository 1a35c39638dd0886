import RegisterColoring.Proofs.GrowingSets

namespace RegisterColoring

theorem settle_induction {step : FlowSets → FlowSets} {P : FlowSets → Prop}
    (preserved : ∀ sets, P sets → P (step sets)) {bound passes count : Nat}
    {start sets : FlowSets} (first : P start)
    (run : settle step bound passes start = some (sets, count)) :
    ∃ before, P before ∧ step before = sets ∧ sets.changed = false := by
  induction bound generalizing passes start with
  | zero => exact nomatch run
  | succ bound ih =>
    rw [settle_succ] at run
    split at run
    · exact ih (preserved start first) run
    · rename_i quiet
      cases run
      exact ⟨start, first, rfl, by simpa using quiet⟩

/-- A bound only decides whether there is a result. -/
theorem settle_bound {step : FlowSets → FlowSets} {bound other passes : Nat} {start : FlowSets}
    {result second : FlowSets × Nat} (run : settle step bound passes start = some result)
    (again : settle step other passes start = some second) : result = second := by
  induction bound generalizing other passes start with
  | zero => exact nomatch run
  | succ bound ih =>
    cases other with
    | zero => exact nomatch again
    | succ other =>
      rw [settle_succ] at run again
      split at run
      · rename_i changed
        rw [if_pos changed] at again
        exact ih run again
      · rename_i quiet
        rw [if_neg quiet] at again
        exact Option.some.inj (run.symm.trans again)

namespace Func

/-- The sets with which the sweeps end: those at the starts are what the successors ask for, and those
at the ends were taken from them. -/
structure Settled (f : Func) (sets : FlowSets) : Prop where
  growing : f.Growing sets
  starts : ∀ b ∈ f.postorder, sets.atStart.getD b ∅ = f.flowIn sets.atStart b
  ends : ∀ b ∈ f.postorder, b < f.blocks.length →
    sets.atEnd.getD b ∅ = joinAt sets.atStart (f.succs b)

theorem settled_of_settle {f : Func} {bound passes count : Nat} {sets : FlowSets}
    (run : settle (sweep (f.blocks.map Block.transfer) f.postorder) bound passes
      (.start f.blocks.length) = some (sets, count)) : f.Settled sets := by
  obtain ⟨before, growing, last, quiet⟩ := settle_induction (P := f.Growing)
    (fun sets growing => growing.sweep f.postorder) f.growing_start run
  have unchanged := (growing.restart.visits f.postorder).2
  have same : f.postorder.foldl (visitBlock (f.blocks.map Block.transfer))
      { before with changed := false } = sets := (sweep_def ..).symm.trans last
  rw [same] at unchanged
  have final := unchanged quiet
  have starts : sets.atStart = before.atStart := final.starts
  refine ⟨?_, fun b member => ?_, fun b member inside => ?_⟩
  · rw [← last]
    exact growing.sweep f.postorder
  · rw [starts]
    exact final.stable b member
  · rw [starts]
    exact final.visited b member inside

/-- Once a sweep over the blocks that can be reached changes nothing, no live temp is missing. -/
theorem Settled.liveRow_complete {f : Func} {sets : FlowSets} (settled : f.Settled sets)
    (edges : f.EdgesInside) {t : Temp} {b : BlockId} {rest : List Instr}
    (path : f.LiveAt t b rest) (reach : b ∈ f.reachable) :
    t ∈ liveRow rest (joinAt sets.atStart (f.succs b)) := by
  induction path with
  | read used => exact Instr.mem_liveBefore.mpr (Or.inl used)
  | pass kept _ ih => exact Instr.mem_liveBefore.mpr (Or.inr ⟨kept, ih reach⟩)
  | @edge b s block edge found _ ih =>
    have inside := succ_mem_reachable edges reach edge
    have stable := settled.starts s ((mem_postorder edges).mpr inside)
    have live := ih inside
    refine mem_joinAt.mpr ⟨s, edge, ?_⟩
    rw [stable]
    simp only [flowIn, found]
    rwa [succs_of_found found] at live

theorem Settled.mem_liveRow {f : Func} {sets : FlowSets} (settled : f.Settled sets)
    (edges : f.EdgesInside) {t : Temp} {b : BlockId} {rest : List Instr} (reach : b ∈ f.reachable) :
    t ∈ liveRow rest (joinAt sets.atStart (f.succs b)) ↔ f.LiveAt t b rest :=
  ⟨fun member => settled.growing.liveRow_exact member,
    fun path => settled.liveRow_complete edges path reach⟩

end Func

namespace Liveness

theorem analyze_eq_ok {bound : Nat} {f : Func} {l : Liveness} : analyze bound f = .ok l ↔
    ∃ sets passes, sweeps f bound = some (sets, passes) ∧ ofSets f sets passes = l := by
  cases settled : sweeps f bound with
  | none => simp [analyze_of_none settled]
  | some result =>
    obtain ⟨sets, passes⟩ := result
    simp [analyze_of_some settled]

theorem analyze_ok {bound : Nat} {f : Func} {l : Liveness} (run : analyze bound f = .ok l) :
    ∃ sets, f.Settled sets ∧ l.reachable = f.reachable ∧
      l.addressTaken = addressTakenIn f f.postorder ∧
      l.blocks = f.blocks.mapIdx fun b block =>
        if b ∈ l.reachable then ofBlock l.addressTaken sets b block else ofUnreachable block := by
  obtain ⟨sets, passes, settled, rfl⟩ := analyze_eq_ok.mp run
  exact ⟨sets, Func.settled_of_settle settled, rfl, rfl, rfl⟩

/-- The result does not depend on the bound. -/
theorem analyze_bound {bound other : Nat} {f : Func} {l m : Liveness}
    (run : analyze bound f = .ok l) (again : analyze other f = .ok m) : l = m := by
  obtain ⟨sets, passes, settled, rfl⟩ := analyze_eq_ok.mp run
  obtain ⟨others, count, ended, rfl⟩ := analyze_eq_ok.mp again
  cases settle_bound settled ended
  rfl

theorem reachable_of_analyze {bound : Nat} {f : Func} {l : Liveness}
    (run : analyze bound f = .ok l) : l.reachable = f.reachable := by
  obtain ⟨_, _, reachable, _⟩ := analyze_ok run
  exact reachable

/-- The analysis fails only if the sweeps do not settle within the bound. -/
theorem analyze_error {bound : Nat} {f : Func} {e : Failure} (run : analyze bound f = .error e) :
    e = .internal f.name (.livenessUnsettled bound) none := by
  cases settled : sweeps f bound with
  | none =>
    rw [analyze_of_none settled] at run
    cases run
    rfl
  | some result =>
    rw [analyze_of_some settled] at run
    cases run

theorem mem_addressTakenIn {f : Func} {order : List BlockId} {t : Temp} :
    t ∈ addressTakenIn f order ↔ ∃ b ∈ order, ∃ block, f.blocks[b]? = some block ∧
      ∃ i ∈ block.instrs, i.addressTaken? = some t := by
  rw [addressTakenIn_def, IndexSet.mem_ofList, List.mem_flatMap]
  constructor
  · rintro ⟨b, member, inside⟩
    cases found : f.blocks[b]? with
    | some block =>
      rw [found] at inside
      exact ⟨b, member, block, found, List.mem_filterMap.mp inside⟩
    | none =>
      rw [found] at inside
      exact absurd inside List.not_mem_nil
  · rintro ⟨b, member, block, found, i, here, address⟩
    refine ⟨b, member, ?_⟩
    rw [found]
    exact List.mem_filterMap.mpr ⟨i, here, address⟩

theorem mem_addressTaken {bound : Nat} {f : Func} {l : Liveness} (run : analyze bound f = .ok l)
    {t : Temp} (member : t ∈ l.addressTaken) : ∃ i ∈ f.instrs, i.addressTaken? = some t := by
  obtain ⟨_, _, _, taken, _⟩ := analyze_ok run
  rw [taken, mem_addressTakenIn] at member
  obtain ⟨b, _, block, found, i, here, address⟩ := member
  exact ⟨i, Func.mem_instrs.mpr ⟨b, block, found, here⟩, address⟩

variable {bound : Nat} {f : Func} {l : Liveness} {b : BlockId} {block : Block} {t : Temp}

/-- What the analysis stores for a block that can be reached. -/
theorem block_of_reachable (edges : f.EdgesInside) (run : analyze bound f = .ok l)
    (reach : b ∈ f.reachable) (found : f.blocks[b]? = some block) :
    ∃ sets, f.Settled sets ∧ l.blocks[b]? = some
      ⟨liveRow block.instrs (joinAt sets.atStart (f.succs b)) ∪ l.addressTaken,
        joinAt sets.atStart (f.succs b) ∪ l.addressTaken,
        (livePoints (joinAt sets.atStart (f.succs b)) block.instrs).2.map (· ∪ l.addressTaken)⟩ := by
  obtain ⟨sets, settled, reachable, _, blocks⟩ := analyze_ok run
  have visited := (Func.mem_postorder edges).mpr reach
  have atStart := settled.starts b visited
  have atEnd := settled.ends b visited (Func.reachable_lt edges reach)
  refine ⟨sets, settled, ?_⟩
  simp only [blocks, List.getElem?_mapIdx, found, Option.map_some, reachable, if_pos reach, ofBlock_def,
    atStart, atEnd, Func.flowIn, Func.succs_of_found found]

/-- After an instruction that can be reached, exactly the temps are live that a path from there
reads, and those whose address is taken. -/
theorem mem_liveAfter (edges : f.EdgesInside) (run : analyze bound f = .ok l)
    (reach : b ∈ f.reachable) (found : f.blocks[b]? = some block) {pre rest : List Instr}
    {i : Instr} (split : block.instrs = pre ++ i :: rest) :
    t ∈ l.liveAfter b pre.length ↔ f.LiveAt t b rest ∨ t ∈ l.addressTaken := by
  obtain ⟨sets, settled, stored⟩ := block_of_reachable edges run reach found
  have points := livePoints_snd (joinAt sets.atStart (f.succs b)) pre rest i
  rw [← split] at points
  have value : l.liveAfter b pre.length =
      liveRow rest (joinAt sets.atStart (f.succs b)) ∪ l.addressTaken := by
    simp only [liveAfter_def, stored, Option.bind_some, List.getElem?_map, points,
      Option.map_some, Option.getD_some]
  rw [value, IndexSet.mem_union, settled.mem_liveRow edges reach]

/-- The same holds at the start of a block. -/
theorem mem_liveIn (edges : f.EdgesInside) (run : analyze bound f = .ok l) (reach : b ∈ f.reachable)
    (found : f.blocks[b]? = some block) :
    t ∈ l.liveIn b ↔ f.LiveAt t b block.instrs ∨ t ∈ l.addressTaken := by
  obtain ⟨sets, settled, stored⟩ := block_of_reachable edges run reach found
  simp only [liveIn, stored]
  rw [IndexSet.mem_union, settled.mem_liveRow edges reach]

/-- And at its end. -/
theorem mem_liveOut (edges : f.EdgesInside) (run : analyze bound f = .ok l) (reach : b ∈ f.reachable)
    (found : f.blocks[b]? = some block) :
    t ∈ l.liveOut b ↔ f.LiveAt t b [] ∨ t ∈ l.addressTaken := by
  obtain ⟨sets, settled, stored⟩ := block_of_reachable edges run reach found
  have row : t ∈ liveRow [] (joinAt sets.atStart (f.succs b)) ↔ f.LiveAt t b [] :=
    settled.mem_liveRow edges reach
  simp only [liveOut, stored]
  rw [IndexSet.mem_union, ← row, liveRow_nil]

/-- Nothing is live in a block that cannot be reached. -/
theorem block_of_unreachable (run : analyze bound f = .ok l) (unreached : b ∉ f.reachable) :
    l.liveIn b = ∅ ∧ l.liveOut b = ∅ ∧ ∀ i, l.liveAfter b i = ∅ := by
  obtain ⟨sets, _, reachable, _, blocks⟩ := analyze_ok run
  cases found : f.blocks[b]? with
  | none =>
    have missing : l.blocks[b]? = none := by
      rw [blocks, List.getElem?_mapIdx, found]
      rfl
    simp only [liveIn, liveOut, liveAfter_def, missing]
    exact ⟨trivial, trivial, fun _ => rfl⟩
  | some block =>
    have stored : l.blocks[b]? = some (ofUnreachable block) := by
      rw [blocks, List.getElem?_mapIdx, found, Option.map_some, reachable, if_neg unreached]
    simp only [liveIn, liveOut, liveAfter_def, stored, ofUnreachable]
    refine ⟨trivial, trivial, fun i => ?_⟩
    rw [Option.bind_some, List.getElem?_map]
    cases block.instrs[i]? <;> rfl

/-- The temps whose address is taken are the operands of the instructions for that in code that can
be reached. -/
theorem mem_addressTaken_iff (edges : f.EdgesInside) (run : analyze bound f = .ok l) :
    t ∈ l.addressTaken ↔ ∃ b ∈ f.reachable, ∃ block, f.blocks[b]? = some block ∧
      ∃ i ∈ block.instrs, i.addressTaken? = some t := by
  obtain ⟨_, _, _, taken, _⟩ := analyze_ok run
  rw [taken, mem_addressTakenIn]
  simp only [Func.mem_postorder edges]

/-- Where the points of a function come from. -/
theorem mem_points {i : Instr} {live : IndexSet} :
    (i, live) ∈ l.points f ↔ ∃ (b : BlockId) (block : Block) (pre rest : List Instr),
      b ∈ l.reachable ∧ f.blocks[b]? = some block ∧ block.instrs = pre ++ i :: rest ∧
        live = l.liveAfter b pre.length := by
  simp only [points_def, pairs_def, List.mem_flatten]
  constructor
  · rintro ⟨row, rowMember, member⟩
    obtain ⟨b, bound, rfl⟩ := List.mem_mapIdx.mp rowMember
    split at member
    · rename_i reach
      obtain ⟨k, inside, value⟩ := List.mem_mapIdx.mp member
      cases value
      refine ⟨b, _, _, _, reach, List.getElem?_eq_getElem bound,
        (List.take_append_drop k _).symm.trans (by rw [List.drop_eq_getElem_cons inside]), ?_⟩
      rw [List.length_take, Nat.min_eq_left (Nat.le_of_lt inside)]
    · exact absurd member List.not_mem_nil
  · rintro ⟨b, block, pre, rest, reach, found, split, rfl⟩
    obtain ⟨bound, value⟩ := List.getElem?_eq_some_iff.mp found
    refine ⟨_, List.mem_mapIdx.mpr ⟨b, bound, rfl⟩, ?_⟩
    rw [if_pos reach, value]
    refine List.mem_mapIdx.mpr ⟨pre.length, by rw [split]; simp, ?_⟩
    simp [split]

/-- The set at the start of the entry. -/
theorem entryLiveIn_eq (nonempty : f.blocks ≠ []) (run : analyze bound f = .ok l) :
    l.entryLiveIn = .ok (l.liveIn Func.entry) := by
  obtain ⟨_, _, _, _, blocks⟩ := analyze_ok run
  unfold entryLiveIn liveIn Func.entry
  cases stored : l.blocks with
  | nil =>
    rw [stored] at blocks
    exact absurd (List.mapIdx_eq_nil_iff.mp blocks.symm) nonempty
  | cons first rest => rfl

end Liveness

end RegisterColoring
