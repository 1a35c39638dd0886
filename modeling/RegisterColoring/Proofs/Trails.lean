import RegisterColoring.Proofs.LiveRanges
import RegisterColoring.Proofs.Resolved

namespace RegisterColoring

namespace Func

/-- The instruction with number `k` in block `b`. -/
def instrAt (f : Func) (b : BlockId) (k : Nat) : Option Instr := f.blocks[b]?.bind (·.instrs[k]?)

/-- A trail from the point before instruction `k` of a block to such a point of another block, with
the instructions that it passes. Behind its last instruction a block is left along an edge. -/
inductive Trail (f : Func) : BlockId → Nat → List Instr → BlockId → Nat → Prop
  | stay (b : BlockId) (k : Nat) : Trail f b k [] b k
  | pass {b c : BlockId} {k m : Nat} {i : Instr} {passed : List Instr} :
      f.instrAt b k = some i → Trail f b (k + 1) passed c m → Trail f b k (i :: passed) c m
  | edge {b s c : BlockId} {k m : Nat} {passed : List Instr} :
      f.instrAt b k = none → s ∈ f.succs b → Trail f s 0 passed c m → Trail f b k passed c m

/-- Some trail from the point before instruction `k` of block `b` leads to an instruction that reads
`t`, and passes none that writes it. -/
def ReadAhead (f : Func) (t : Temp) (b : BlockId) (k : Nat) : Prop :=
  ∃ passed c m i, f.Trail b k passed c m ∧ f.instrAt c m = some i ∧ t ∈ i.uses ∧
    ∀ j ∈ passed, j.dest? ≠ some t

/-- Code that can be reached takes the address of `t`. -/
def AddressTaken (f : Func) (t : Temp) : Prop :=
  ∃ b, Path f.succs entry b ∧ ∃ k d, f.instrAt b k = some (.addrOf d t)

theorem instrAt_of_found {f : Func} {b : BlockId} {block : Block}
    (found : f.blocks[b]? = some block) (k : Nat) : f.instrAt b k = block.instrs[k]? := by
  simp only [instrAt, found, Option.bind_some]

theorem instrAt_eq_some {f : Func} {b : BlockId} {k : Nat} {i : Instr}
    (here : f.instrAt b k = some i) : ∃ block, f.blocks[b]? = some block ∧
      k < block.instrs.length ∧ block.instrs = block.instrs.take k ++ i :: block.instrs.drop (k + 1) := by
  obtain ⟨block, found, place⟩ := Option.bind_eq_some_iff.mp here
  obtain ⟨inside, value⟩ := List.getElem?_eq_some_iff.mp place
  refine ⟨block, found, inside, ?_⟩
  have cut := (List.take_append_drop k block.instrs).symm
  rwa [List.drop_eq_getElem_cons inside, value] at cut

namespace Trail

theorem trans {f : Func} {b c d : BlockId} {k m n : Nat} {first second : List Instr}
    (trail : f.Trail b k first c m) (next : f.Trail c m second d n) :
    f.Trail b k (first ++ second) d n := by
  induction trail with
  | stay => exact next
  | pass here _ ih => exact .pass here (ih next)
  | edge ends succ _ ih => exact .edge ends succ (ih next)

/-- A trail can be cut in front of any instruction that it passes. -/
theorem cut {f : Func} {b c : BlockId} {k m : Nat} {before after : List Instr} {i : Instr}
    (trail : f.Trail b k (before ++ i :: after) c m) :
    ∃ d n, f.Trail b k before d n ∧ f.instrAt d n = some i ∧ f.Trail d (n + 1) after c m := by
  generalize whole : before ++ i :: after = passed at trail
  induction trail generalizing before with
  | stay b k => exact absurd whole (by simp)
  | @pass b c k m j passed here rest ih =>
    cases before with
    | nil =>
      obtain ⟨rfl, rfl⟩ := List.cons.inj whole
      exact ⟨b, k, .stay b k, here, rest⟩
    | cons first before =>
      obtain ⟨rfl, tail⟩ := List.cons.inj whole
      obtain ⟨d, n, front, there, back⟩ := ih tail
      exact ⟨d, n, .pass here front, there, back⟩
  | edge ends succ _ ih =>
    obtain ⟨d, n, front, there, back⟩ := ih whole
    exact ⟨d, n, .edge ends succ front, there, back⟩

theorem reachable {f : Func} {b c : BlockId} {k m : Nat} {passed : List Instr}
    (trail : f.Trail b k passed c m) (edges : f.EdgesInside) (reach : b ∈ f.reachable) :
    c ∈ f.reachable := by
  induction trail with
  | stay => exact reach
  | pass _ _ ih => exact ih reach
  | edge _ succ _ ih => exact ih (succ_mem_reachable edges reach succ)

theorem liveAt {f : Func} {b c : BlockId} {k m : Nat} {passed : List Instr} {t : Temp} {i : Instr}
    {block : Block} (trail : f.Trail b k passed c m) (edges : f.EdgesInside)
    (there : f.instrAt c m = some i) (used : t ∈ i.uses) (kept : ∀ j ∈ passed, j.dest? ≠ some t)
    (found : f.blocks[b]? = some block) : f.LiveAt t b (block.instrs.drop k) := by
  induction trail generalizing block with
  | stay b k =>
    rw [instrAt_of_found found] at there
    obtain ⟨inside, value⟩ := List.getElem?_eq_some_iff.mp there
    rw [List.drop_eq_getElem_cons inside, value]
    exact .read used
  | pass here _ ih =>
    rw [instrAt_of_found found] at here
    obtain ⟨inside, value⟩ := List.getElem?_eq_some_iff.mp here
    have later := ih there (fun j member => kept j (List.mem_cons_of_mem _ member)) found
    rw [List.drop_eq_getElem_cons inside, value]
    exact .pass (kept _ List.mem_cons_self) later
  | @edge b s c k m passed ends succ _ ih =>
    rw [instrAt_of_found found] at ends
    have next := List.getElem?_eq_getElem (edges b s succ)
    have later := ih there kept next
    rw [List.drop_eq_nil_of_le (List.getElem?_eq_none_iff.mp ends)]
    exact .edge succ next later

end Trail

theorem LiveAt.readAhead {f : Func} {t : Temp} {b : BlockId} {k : Nat} {rest : List Instr}
    {block : Block} (live : f.LiveAt t b rest) (found : f.blocks[b]? = some block)
    (here : block.instrs.drop k = rest) : f.ReadAhead t b k := by
  induction live generalizing block k with
  | @read b i rest used =>
    refine ⟨[], b, k, i, .stay b k, ?_, used, fun j member => absurd member List.not_mem_nil⟩
    have first := congrArg (·[0]?) here
    simpa [instrAt_of_found found] using first
  | @pass b i rest other _ ih =>
    have first := congrArg (·[0]?) here
    have tail := congrArg List.tail here
    have place : f.instrAt b k = some i := by simpa [instrAt_of_found found] using first
    obtain ⟨passed, c, m, j, trail, there, used, kept⟩ := ih found (by simpa using tail)
    refine ⟨i :: passed, c, m, j, .pass place trail, there, used, fun d member => ?_⟩
    rcases List.mem_cons.mp member with same | later
    · rw [same]
      exact other
    · exact kept d later
  | @edge b s target succ next _ ih =>
    have short := List.drop_eq_nil_iff.mp here
    have ends : f.instrAt b k = none := by
      rw [instrAt_of_found found]
      exact List.getElem?_eq_none short
    obtain ⟨passed, c, m, j, trail, there, used, kept⟩ := ih next List.drop_zero
    exact ⟨passed, c, m, j, .edge ends succ trail, there, used, kept⟩

/-- A temp is live at a point if some trail from there reads it first. -/
theorem readAhead_iff {f : Func} {t : Temp} {b : BlockId} {k : Nat} {block : Block}
    (edges : f.EdgesInside) (found : f.blocks[b]? = some block) :
    f.ReadAhead t b k ↔ f.LiveAt t b (block.instrs.drop k) := by
  constructor
  · rintro ⟨passed, c, m, i, trail, there, used, kept⟩
    exact trail.liveAt edges there used kept found
  · exact fun live => live.readAhead found rfl

/-- What is read ahead of the end of a trail is read ahead of its start, unless it is written in
between. -/
theorem ReadAhead.back {f : Func} {t : Temp} {b c : BlockId} {k m : Nat} {passed : List Instr}
    (ahead : f.ReadAhead t c m) (trail : f.Trail b k passed c m)
    (kept : ∀ j ∈ passed, j.dest? ≠ some t) : f.ReadAhead t b k := by
  obtain ⟨more, d, n, i, next, there, used, others⟩ := ahead
  refine ⟨passed ++ more, d, n, i, trail.trans next, there, used, fun j member => ?_⟩
  rcases List.mem_append.mp member with early | late
  · exact kept j early
  · exact others j late

theorem path_of_reachable {f : Func} {b : BlockId} (edges : f.EdgesInside)
    (reach : b ∈ f.reachable) : Path f.succs entry b := by
  have bound := reachable_lt edges reach
  have nonempty : f.blocks ≠ [] := List.ne_nil_of_length_pos (Nat.zero_lt_of_lt bound)
  exact (mem_reachable edges nonempty).mp reach

theorem reachable_of_path {f : Func} {b : BlockId} {block : Block} (edges : f.EdgesInside)
    (path : Path f.succs entry b) (found : f.blocks[b]? = some block) : b ∈ f.reachable := by
  have nonempty : f.blocks ≠ [] := List.ne_nil_of_mem (List.mem_of_getElem? found)
  exact (mem_reachable edges nonempty).mpr path

end Func

namespace Liveness

theorem mem_addressTaken_of_reached {bound : Nat} {f : Func} {l : Liveness} {t : Temp}
    (edges : f.EdgesInside) (run : analyze bound f = .ok l) :
    t ∈ l.addressTaken ↔ f.AddressTaken t := by
  rw [mem_addressTaken_iff edges run]
  constructor
  · rintro ⟨b, reach, block, found, i, member, taken⟩
    obtain ⟨k, place⟩ := List.mem_iff_getElem?.mp member
    obtain ⟨d, rfl⟩ := Instr.addressTaken?_eq_some.mp taken
    refine ⟨b, Func.path_of_reachable edges reach, k, d, ?_⟩
    rw [Func.instrAt_of_found found]
    exact place
  · rintro ⟨b, path, k, d, here⟩
    obtain ⟨block, found, place⟩ := Option.bind_eq_some_iff.mp here
    exact ⟨b, Func.reachable_of_path edges path found, block, found, _,
      List.mem_of_getElem? place, rfl⟩

/-- The points of a function are the instructions of blocks to which a path leads. -/
theorem mem_points_iff {bound : Nat} {f : Func} {l : Liveness} {i : Instr} {live : IndexSet}
    (edges : f.EdgesInside) (run : analyze bound f = .ok l) :
    (i, live) ∈ l.points f ↔
      ∃ b k, Path f.succs Func.entry b ∧ f.instrAt b k = some i ∧ live = l.liveAfter b k := by
  rw [mem_points, reachable_of_analyze run]
  constructor
  · rintro ⟨b, block, pre, rest, reach, found, split, same⟩
    refine ⟨b, pre.length, Func.path_of_reachable edges reach, ?_, same⟩
    rw [Func.instrAt_of_found found, split]
    simp
  · rintro ⟨b, k, path, here, same⟩
    obtain ⟨block, found, inside, split⟩ := Func.instrAt_eq_some here
    refine ⟨b, block, _, _, Func.reachable_of_path edges path found, found, split, ?_⟩
    rw [List.length_take, Nat.min_eq_left (Nat.le_of_lt inside)]
    exact same

/-- Behind an instruction, liveness in terms of trails. -/
theorem mem_liveAfter_iff {bound : Nat} {f : Func} {l : Liveness} {b : BlockId} {k : Nat} {i : Instr}
    {t : Temp} (edges : f.EdgesInside) (run : analyze bound f = .ok l) (reach : b ∈ f.reachable)
    (here : f.instrAt b k = some i) :
    t ∈ l.liveAfter b k ↔ f.AddressTaken t ∨ f.ReadAhead t b (k + 1) := by
  obtain ⟨block, found, inside, split⟩ := Func.instrAt_eq_some here
  have after := mem_liveAfter (t := t) edges run reach found split
  rw [List.length_take, Nat.min_eq_left (Nat.le_of_lt inside)] at after
  rw [after, mem_addressTaken_of_reached edges run, Func.readAhead_iff edges found]
  exact or_comm

theorem mem_liveIn_iff {bound : Nat} {f : Func} {l : Liveness} {b : BlockId} {block : Block}
    {t : Temp} (edges : f.EdgesInside) (run : analyze bound f = .ok l) (reach : b ∈ f.reachable)
    (found : f.blocks[b]? = some block) :
    t ∈ l.liveIn b ↔ f.AddressTaken t ∨ f.ReadAhead t b 0 := by
  rw [mem_liveIn edges run reach found, mem_addressTaken_of_reached edges run,
    Func.readAhead_iff edges found, List.drop_zero]
  exact or_comm

/-- The sets of the analysis say what can be read from each point on. -/
structure Exact (l : Liveness) (f : Func) : Prop where
  after : ∀ b, Path f.succs Func.entry b → ∀ k i, f.instrAt b k = some i → ∀ t,
    t ∈ l.liveAfter b k ↔ f.AddressTaken t ∨ f.ReadAhead t b (k + 1)
  atStart : ∀ b, Path f.succs Func.entry b → ∀ block, f.blocks[b]? = some block → ∀ t,
    t ∈ l.liveIn b ↔ f.AddressTaken t ∨ f.ReadAhead t b 0
  atEnd : ∀ b, Path f.succs Func.entry b → ∀ block, f.blocks[b]? = some block → ∀ t,
    t ∈ l.liveOut b ↔ f.AddressTaken t ∨ f.ReadAhead t b block.instrs.length
  unreached : ∀ b, ¬ Path f.succs Func.entry b →
    l.liveIn b = ∅ ∧ l.liveOut b = ∅ ∧ ∀ k, l.liveAfter b k = ∅

/-- Liveness is exact in every function whose stored edges are those that its instructions ask for,
and the bound on the sweeps decides only whether there is a result. -/
theorem analyze_exact {bound : Nat} {f : Func} {l : Liveness} (consistent : f.rebuildEdges = .ok f)
    (run : analyze bound f = .ok l) :
    l.Exact f ∧ ∀ other m, analyze other f = .ok m → m = l := by
  have edges := Func.edgesInside_of_linked (Func.rebuildEdges_eq_self.mp consistent)
  refine ⟨⟨fun b path k i here t => ?_, fun b path block found t => ?_,
    fun b path block found t => ?_, fun b unreached => ?_⟩, fun other m again => ?_⟩
  · obtain ⟨block, found, _⟩ := Func.instrAt_eq_some here
    exact mem_liveAfter_iff edges run (Func.reachable_of_path edges path found) here
  · exact mem_liveIn_iff edges run (Func.reachable_of_path edges path found) found
  · rw [mem_liveOut edges run (Func.reachable_of_path edges path found) found,
      mem_addressTaken_of_reached edges run, Func.readAhead_iff edges found, List.drop_length]
    exact or_comm
  · exact block_of_unreachable run fun reach => unreached (Func.path_of_reachable edges reach)
  · exact analyze_bound again run

end Liveness

/-- A loop, a temp whose address is taken, and a block that cannot be reached. -/
def countBlocks : List (String × List Instr) :=
  [("count.entry", [.addrOf 2 1, .move 0 (.const 3)]),
    (".loop", [.binary .sub 0 (.temp 0) (.const 1), .branch (.test (.temp 0)) 1 3]),
    (".lost", [.ret (some (.temp 2))]),
    (".done", [.store 2 (.temp 0), .ret none])]

/-- The counter stays live around the loop, and nothing is live in the lost block. -/
theorem countBlocks_exact : ∃ f l, Func.ofBlocks "count" [1] ∅ countBlocks = .ok f ∧
    Liveness.analyze 4 f = .ok l ∧ (l.liveAfter 1 1).toList = [0, 1, 2] ∧
    (l.liveIn 2).toList = [] ∧ l.Exact f ∧ ∀ other m, Liveness.analyze other f = .ok m → m = l := by
  have result : (Func.ofBlocks "count" [1] ∅ countBlocks).bind (fun f =>
      (Liveness.analyze 4 f).map fun l => ((l.liveAfter 1 1).toList, (l.liveIn 2).toList)) =
      .ok ([0, 1, 2], []) := by decide +kernel
  obtain ⟨f, built, rest⟩ := bind_eq_ok.mp result
  obtain ⟨l, run, values⟩ := map_eq_ok.mp rest
  rw [Prod.mk.injEq] at values
  have consistent := Func.ofBlocks_consistent built
  exact ⟨f, l, built, run, values.1, values.2, Liveness.analyze_exact consistent run⟩

end RegisterColoring
