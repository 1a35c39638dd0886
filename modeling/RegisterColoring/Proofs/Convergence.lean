import Mathlib.Logic.Function.Iterate
import RegisterColoring.Proofs.LiveRanges
import RegisterColoring.Proofs.Postorder

namespace RegisterColoring

namespace Func

variable {f : Func} {t : Temp} {b : BlockId}

/-- The last block of the path reads `t` before it writes it, and the blocks before do not write it. -/
inductive Carries (f : Func) (t : Temp) : List BlockId → Prop
  | reads {b : BlockId} {block : Block} : f.blocks[b]? = some block → t ∈ liveRow block.instrs ∅ →
      Carries f t [b]
  | passes {b s : BlockId} {block : Block} {rest : List BlockId} : f.blocks[b]? = some block →
      (∀ i ∈ block.instrs, i.dest? ≠ some t) → s ∈ f.succs b → Carries f t (s :: rest) →
      Carries f t (b :: s :: rest)

/-- Either the row itself reads a live temp first, or it leaves it alone and a path goes on. -/
theorem LiveAt.row_or_carries {row : List Instr} (live : f.LiveAt t b row) :
    t ∈ liveRow row ∅ ∨
      (∀ i ∈ row, i.dest? ≠ some t) ∧ ∃ s ∈ f.succs b, ∃ rest, f.Carries t (s :: rest) := by
  induction live with
  | read used => exact .inl (Instr.mem_liveBefore.mpr (.inl used))
  | pass other _ ih =>
    rcases ih with here | ⟨kept, later⟩
    · exact .inl (Instr.mem_liveBefore.mpr (.inr ⟨other, here⟩))
    · exact .inr ⟨List.forall_mem_cons.mpr ⟨other, kept⟩, later⟩
  | @edge b s block succ found _ ih =>
    refine .inr ⟨fun i member => absurd member List.not_mem_nil, s, succ, ?_⟩
    rcases ih with here | ⟨kept, next, edge, rest, carries⟩
    · exact ⟨[], .reads found here⟩
    · exact ⟨next :: rest, .passes found kept edge carries⟩

theorem LiveAt.carries {block : Block} (found : f.blocks[b]? = some block)
    (live : f.LiveAt t b block.instrs) : ∃ rest, f.Carries t (b :: rest) := by
  rcases live.row_or_carries with here | ⟨kept, s, edge, rest, carries⟩
  · exact ⟨[], .reads found here⟩
  · exact ⟨s :: rest, .passes found kept edge carries⟩

theorem Carries.of_append {pre rest : List BlockId} (carries : f.Carries t (pre ++ b :: rest)) :
    f.Carries t (b :: rest) := by
  induction pre with
  | nil => exact carries
  | cons first pre ih =>
    rw [List.cons_append] at carries
    generalize behind : pre ++ b :: rest = path at carries ih
    cases carries with
    | reads => exact absurd behind (by simp)
    | passes _ _ _ later => exact ih later

/-- A path that comes back to a block can be cut short. -/
theorem Carries.nodup {path : List BlockId} (carries : f.Carries t path) :
    ∃ short, f.Carries t short ∧ short.head? = path.head? ∧ short.Nodup := by
  induction carries with
  | @reads b block found here => exact ⟨[b], .reads found here, rfl, List.pairwise_singleton _ b⟩
  | @passes b s block rest found kept edge _ ih =>
    obtain ⟨short, carries, head, nodup⟩ := ih
    by_cases again : b ∈ short
    · obtain ⟨pre, behind, rfl⟩ := List.append_of_mem again
      exact ⟨b :: behind, carries.of_append, rfl, (List.nodup_append.mp nodup).2.1⟩
    · obtain ⟨behind, rfl⟩ : ∃ behind, short = s :: behind := List.head?_eq_some_iff.mp head
      exact ⟨b :: s :: behind, .passes found kept edge carries, rfl,
        List.nodup_cons.mpr ⟨again, nodup⟩⟩

/-- A path through blocks that can be reached, without repeated blocks. -/
structure SimplePath (f : Func) (path : List BlockId) : Prop where
  edges : path.IsChain fun u v => v ∈ f.succs u
  reachable : ∀ b ∈ path, b ∈ f.reachable
  nodup : path.Nodup

/-- The number of edges on a path that retreat: the block to which they lead does not stand before
the other one in postorder. -/
def retreats (f : Func) : List BlockId → Nat
  | u :: v :: rest => (if f.LeftBefore v u then 0 else 1) + f.retreats (v :: rest)
  | _ => 0

theorem Carries.isChain {path : List BlockId} (carries : f.Carries t path) :
    path.IsChain fun u v => v ∈ f.succs u := by
  induction carries with
  | reads => exact .singleton _
  | passes _ _ edge _ ih => exact List.isChain_cons_cons.mpr ⟨edge, ih⟩

theorem Carries.reachable {path : List BlockId} (carries : f.Carries t path)
    (edges : f.EdgesInside) (first : ∀ b, path.head? = some b → b ∈ f.reachable) :
    ∀ b ∈ path, b ∈ f.reachable := by
  induction carries with
  | reads => exact fun b member => first b (by rw [List.mem_singleton.mp member]; rfl)
  | @passes b s block rest _ _ edge _ ih =>
    have reach := first b rfl
    refine List.forall_mem_cons.mpr ⟨reach, ih fun c same => ?_⟩
    cases same
    exact succ_mem_reachable edges reach edge

/-- What is live at a block that can be reached is read at the end of a path without repeated
blocks. -/
theorem LiveAt.simplePath {block : Block} (edges : f.EdgesInside) (reach : b ∈ f.reachable)
    (found : f.blocks[b]? = some block) (live : f.LiveAt t b block.instrs) :
    ∃ rest, f.Carries t (b :: rest) ∧ f.SimplePath (b :: rest) := by
  obtain ⟨_, long⟩ := live.carries found
  obtain ⟨short, carries, head, nodup⟩ := long.nodup
  obtain ⟨rest, rfl⟩ : ∃ rest, short = b :: rest := List.head?_eq_some_iff.mp head
  refine ⟨rest, carries, carries.isChain, carries.reachable edges fun c same => ?_, nodup⟩
  cases same
  exact reach

theorem retreats_lt (f : Func) (b : BlockId) (rest : List BlockId) :
    f.retreats (b :: rest) < (b :: rest).length := by
  induction rest generalizing b with
  | nil => exact Nat.one_pos
  | cons s rest ih =>
    have later := ih s
    rw [retreats, List.length_cons]
    split <;> omega

/-- In a function without loops no edge retreats. -/
theorem LoopFree.retreats_eq_zero (free : f.LoopFree) (edges : f.EdgesInside) {path : List BlockId}
    (simple : f.SimplePath path) : f.retreats path = 0 := by
  obtain ⟨chain, inside, -⟩ := simple
  induction path with
  | nil => rfl
  | cons u rest ih =>
    cases rest with
    | nil => rfl
    | cons v rest =>
      obtain ⟨edge, chain⟩ := List.isChain_cons_cons.mp chain
      obtain ⟨reach, inside⟩ := List.forall_mem_cons.mp inside
      rw [retreats, if_pos (free.leftBefore edges reach edge), ih chain inside]

variable {sets : FlowSets}

theorem Growing.below_visits (growing : f.Growing sets) (order : List BlockId) :
    Below sets.atStart (order.foldl (visitBlock (f.blocks.map Block.transfer)) sets).atStart := by
  induction order generalizing sets with
  | nil => exact fun _ _ member => member
  | cons b rest ih =>
    exact fun c t member => ih (growing.visit b) c t (growing.below_visit b c t member)

/-- Visits to other blocks leave the set of a block alone. -/
theorem Growing.visits_of_not_mem (growing : f.Growing sets) {order : List BlockId}
    (absent : b ∉ order) :
    (order.foldl (visitBlock (f.blocks.map Block.transfer)) sets).atStart.getD b ∅ =
      sets.atStart.getD b ∅ := by
  induction order generalizing sets with
  | nil => rfl
  | cons c rest ih =>
    rw [List.mem_cons, not_or] at absent
    obtain ⟨other, later⟩ := absent
    rw [List.foldl_cons, ih (growing.visit c) later, growing.visitBlock_eq c, getD_set,
      if_neg fun same => other same.1.symm]

/-- After a visit the set of a block holds what its successors asked for. -/
theorem Growing.mem_visits (growing : f.Growing sets) {pre rest : List BlockId} {block : Block}
    (found : f.blocks[b]? = some block)
    (asked : t ∈ f.flowIn (pre.foldl (visitBlock (f.blocks.map Block.transfer)) sets).atStart b) :
    t ∈ ((pre ++ b :: rest).foldl (visitBlock (f.blocks.map Block.transfer)) sets).atStart.getD b ∅ := by
  have before := (growing.visits pre).1
  rw [List.foldl_append, List.foldl_cons]
  refine (before.visit b).below_visits rest b t ?_
  rw [before.visitBlock_eq b, getD_set, if_pos]
  · exact asked
  · exact ⟨rfl, before.starts ▸ (List.getElem?_eq_some_iff.mp found).1⟩

/-- The sets after a number of sweeps. -/
def sweeps (f : Func) (k : Nat) : FlowSets :=
  (sweep (f.blocks.map Block.transfer) f.postorder)^[k] (.start f.blocks.length)

theorem sweeps_succ (f : Func) (k : Nat) :
    f.sweeps (k + 1) = sweep (f.blocks.map Block.transfer) f.postorder (f.sweeps k) :=
  Function.iterate_succ_apply' _ k _

theorem growing_sweeps (f : Func) (k : Nat) : f.Growing (f.sweeps k) := by
  induction k with
  | zero => exact f.growing_start
  | succ k ih =>
    rw [sweeps_succ]
    exact ih.sweep f.postorder

/-- A sweep takes nothing away, so later sets are larger. -/
theorem below_sweeps (f : Func) {j k : Nat} (le : j ≤ k) :
    Below (f.sweeps j).atStart (f.sweeps k).atStart := by
  induction le with
  | refl => exact fun _ _ member => member
  | @step k _ ih =>
    intro b t member
    rw [sweeps_succ, sweep_def]
    exact (f.growing_sweeps k).restart.below_visits f.postorder b t (ih b t member)

/-- A sweep finds what a block reads first. -/
theorem mem_sweeps_of_read (edges : f.EdgesInside) {block : Block} (reach : b ∈ f.reachable)
    (found : f.blocks[b]? = some block) (read : t ∈ liveRow block.instrs ∅) (k : Nat) :
    t ∈ (f.sweeps (k + 1)).atStart.getD b ∅ := by
  obtain ⟨pre, rest, split⟩ := List.append_of_mem ((mem_postorder edges).mpr reach)
  rw [sweeps_succ, sweep_def, split]
  refine (f.growing_sweeps k).restart.mem_visits found ?_
  simp only [flowIn, found]
  exact mem_liveRow.mpr (.inl read)

/-- A sweep carries a temp backwards along an edge, if the temp was there before the sweep, or if the
sweep visits the head of the edge first. -/
theorem mem_sweeps_of_edge (edges : f.EdgesInside) {block : Block} {s : BlockId} {k : Nat}
    (reach : b ∈ f.reachable) (found : f.blocks[b]? = some block)
    (kept : ∀ i ∈ block.instrs, i.dest? ≠ some t) (edge : s ∈ f.succs b)
    (there : t ∈ (f.sweeps k).atStart.getD s ∅ ∨
      f.LeftBefore s b ∧ t ∈ (f.sweeps (k + 1)).atStart.getD s ∅) :
    t ∈ (f.sweeps (k + 1)).atStart.getD b ∅ := by
  have growing := (f.growing_sweeps k).restart
  obtain ⟨pre, rest, split⟩ := List.append_of_mem ((mem_postorder edges).mpr reach)
  rw [sweeps_succ, sweep_def, split] at there ⊢
  refine growing.mem_visits found ?_
  simp only [flowIn, found]
  refine mem_liveRow.mpr (.inr ⟨mem_joinAt.mpr ⟨s, succs_of_found found ▸ edge, ?_⟩, kept⟩)
  rcases there with old | ⟨before, new⟩
  · exact growing.below_visits pre s t old
  · -- The head is visited in front of the tail and not again, so its set is final by then.
    have inFront := mem_of_leftBefore edges split before
    have nodup := postorder_nodup edges
    rw [split] at nodup
    have notBehind : s ∉ b :: rest := fun behind =>
      (List.nodup_append.mp nodup).2.2 s inFront s behind rfl
    rwa [List.foldl_append, (growing.visits pre).1.visits_of_not_mem notBehind] at new

/-- A temp arrives at the start of a path after one sweep more than edges on it retreat. -/
theorem Carries.mem_sweeps (edges : f.EdgesInside) {path : List BlockId} {k : Nat}
    (carries : f.Carries t path) (inside : ∀ b ∈ path, b ∈ f.reachable)
    (enough : f.retreats path < k) : ∀ b, path.head? = some b →
      t ∈ (f.sweeps k).atStart.getD b ∅ := by
  induction carries generalizing k with
  | @reads b block found read =>
    intro c same
    cases same
    obtain ⟨j, rfl⟩ := Nat.exists_eq_succ_of_ne_zero (Nat.ne_zero_of_lt enough)
    exact mem_sweeps_of_read edges (inside b List.mem_cons_self) found read j
  | @passes b s block rest found kept edge _ ih =>
    intro c same
    cases same
    obtain ⟨reach, inside⟩ := List.forall_mem_cons.mp inside
    obtain ⟨j, rfl⟩ := Nat.exists_eq_succ_of_ne_zero (Nat.ne_zero_of_lt enough)
    rw [retreats] at enough
    refine mem_sweeps_of_edge edges reach found kept edge ?_
    split at enough
    · rename_i before
      exact .inr ⟨before, ih inside (by omega) s rfl⟩
    · exact .inl (ih inside (by omega) s rfl)

/-- No live temp is missing in the sets of blocks that can be reached. -/
def Complete (f : Func) (sets : FlowSets) : Prop :=
  ∀ b ∈ f.reachable, ∀ block, f.blocks[b]? = some block → ∀ t, f.LiveAt t b block.instrs →
    t ∈ sets.atStart.getD b ∅

theorem complete_sweeps (edges : f.EdgesInside) {k : Nat}
    (few : ∀ b rest, f.SimplePath (b :: rest) → f.retreats (b :: rest) < k) :
    f.Complete (f.sweeps k) := by
  intro b reach block found t live
  obtain ⟨rest, carries, simple⟩ := live.simplePath edges reach found
  exact carries.mem_sweeps edges simple.reachable (few b rest simple) b rfl

/-- Where no live temp is missing, visits change nothing. -/
theorem Growing.visits_changed (growing : f.Growing sets) (complete : f.Complete sets)
    {order : List BlockId} (inside : ∀ b ∈ order, b ∈ f.reachable) :
    (order.foldl (visitBlock (f.blocks.map Block.transfer)) sets).changed = sets.changed := by
  induction order generalizing sets with
  | nil => rfl
  | cons b rest ih =>
    obtain ⟨reach, inside⟩ := List.forall_mem_cons.mp inside
    have same : sets.atStart.getD b ∅ = f.flowIn sets.atStart b := by
      ext t
      refine ⟨growing.below b t, fun asked => ?_⟩
      obtain ⟨block, found, live⟩ := growing.flowIn_exact asked
      exact complete b reach block found t live
    have value := growing.visitBlock_eq b
    rw [← same, set_getD_self] at value
    have starts : (visitBlock (f.blocks.map Block.transfer) sets b).atStart = sets.atStart := by
      rw [value]
    rw [List.foldl_cons, ih (growing.visit b) (by rw [Complete, starts]; exact complete) inside, value]
    simp

theorem changed_of_complete (edges : f.EdgesInside) {k : Nat} (complete : f.Complete (f.sweeps k)) :
    (f.sweeps (k + 1)).changed = false := by
  rw [sweeps_succ, sweep_def]
  exact (f.growing_sweeps k).restart.visits_changed complete fun b member =>
    (mem_postorder edges).mp member

end Func

/-- Sweeps end at the latest with the first one that is known to change nothing. -/
theorem settle_of_quiet {step : FlowSets → FlowSets} {n bound : Nat} (passes : Nat)
    {start : FlowSets} (quiet : (step^[n + 1] start).changed = false) (room : n + 1 ≤ bound) :
    ∃ sets, ∃ k ≤ n + 1, settle step bound passes start = some (sets, passes + k) := by
  induction n generalizing bound passes start with
  | zero =>
    obtain ⟨bound, rfl⟩ := Nat.exists_eq_succ_of_ne_zero (Nat.ne_zero_of_lt room)
    refine ⟨step start, 1, Nat.le_refl 1, ?_⟩
    have still : (step start).changed = false := quiet
    simp only [settle_succ, still, Bool.false_eq_true, if_false]
  | succ n ih =>
    obtain ⟨bound, rfl⟩ := Nat.exists_eq_succ_of_ne_zero (Nat.ne_zero_of_lt room)
    rw [settle_succ]
    split
    · have later : (step^[n + 1] (step start)).changed = false := quiet
      obtain ⟨sets, k, few, run⟩ := ih (passes + 1) later (Nat.le_of_succ_le_succ room)
      exact ⟨sets, k + 1, Nat.succ_le_succ few, by rw [run]; congr 2; omega⟩
    · exact ⟨step start, 1, Nat.succ_pos _, rfl⟩

theorem settle_iterate {step : FlowSets → FlowSets} {bound passes count : Nat}
    {start sets : FlowSets} (run : settle step bound passes start = some (sets, count)) :
    ∃ k, count = passes + k ∧ sets = step^[k] start := by
  induction bound generalizing passes start with
  | zero => cases run
  | succ bound ih =>
    rw [settle_succ] at run
    split at run
    · obtain ⟨k, rfl, rfl⟩ := ih run
      exact ⟨k + 1, by omega, rfl⟩
    · cases run
      exact ⟨1, rfl, rfl⟩

namespace Liveness

variable {f : Func}

/-- The analysis needs at most `n` sweeps: a bound of `n` is enough, and no result took more. -/
structure SettlesWithin (f : Func) (n : Nat) : Prop where
  result : ∀ bound, n ≤ bound → ∃ l, analyze bound f = .ok l ∧ l.passes ≤ n
  passes : ∀ bound l, analyze bound f = .ok l → l.passes ≤ n

theorem settlesWithin_of_complete (edges : f.EdgesInside) {n : Nat}
    (complete : f.Complete (f.sweeps n)) : SettlesWithin f (n + 1) := by
  have result : ∀ bound, n + 1 ≤ bound → ∃ l, analyze bound f = .ok l ∧ l.passes ≤ n + 1 := by
    intro bound room
    obtain ⟨sets, k, few, run⟩ := settle_of_quiet 0 (Func.changed_of_complete edges complete) room
    exact ⟨_, analyze_of_some run, by simpa [ofSets] using few⟩
  refine ⟨result, fun bound l run => ?_⟩
  obtain ⟨m, again, few⟩ := result (n + 1) (Nat.le_refl _)
  rw [analyze_bound run again]
  exact few

/-- The sets that the analysis gives out are those of its last sweep. -/
theorem liveIn_eq_sweeps {bound : Nat} {l : Liveness} (run : analyze bound f = .ok l) {b : BlockId}
    {block : Block} (reach : b ∈ f.reachable) (found : f.blocks[b]? = some block) :
    l.liveIn b = (f.sweeps l.passes).atStart.getD b ∅ ∪ l.addressTaken := by
  obtain ⟨sets, passes, settled, rfl⟩ := analyze_eq_ok.mp run
  obtain ⟨k, rfl, rfl⟩ := settle_iterate settled
  simp only [liveIn, ofSets, List.getElem?_mapIdx, found, Option.map_some, if_pos reach, ofBlock_def,
    Nat.zero_add]
  rfl

/-- How fast the analysis of a function comes to its result. -/
structure Converges (f : Func) : Prop where
  /-- What retreats on paths without repeated blocks bounds the sweeps. -/
  retreats : ∀ d, (∀ path, f.SimplePath path → f.retreats path ≤ d) → SettlesWithin f (d + 2)
  loopFree : f.LoopFree → SettlesWithin f 2
  blocks : SettlesWithin f (f.reachable.size + 1)
  /-- From sweep to sweep the sets at the starts of the blocks only grow, up to the result. -/
  grows : ∀ j k, j ≤ k → ∀ b, ∀ t ∈ (f.sweeps j).atStart.getD b ∅, t ∈ (f.sweeps k).atStart.getD b ∅
  last : ∀ bound l, analyze bound f = .ok l → ∀ b ∈ f.reachable,
    l.liveIn b = (f.sweeps l.passes).atStart.getD b ∅ ∪ l.addressTaken

/-- In every function with consistent edges the analysis is as fast as the order of its visits
promises. -/
theorem analyze_converges (consistent : f.rebuildEdges = .ok f) : Converges f := by
  have edges := Func.edgesInside_of_linked (Func.rebuildEdges_eq_self.mp consistent)
  have bounded : ∀ d, (∀ path, f.SimplePath path → f.retreats path ≤ d) → SettlesWithin f (d + 2) :=
    fun d few => settlesWithin_of_complete edges
      (Func.complete_sweeps edges fun b rest simple => Nat.lt_succ_of_le (few _ simple))
  refine ⟨bounded, fun free => ?_, ?_, fun j k le => f.below_sweeps le,
    fun bound l run b reach => ?_⟩
  · exact bounded 0 fun path simple => Nat.le_of_eq (free.retreats_eq_zero edges simple)
  · refine settlesWithin_of_complete edges (Func.complete_sweeps edges fun b rest simple => ?_)
    exact Nat.lt_of_lt_of_le (f.retreats_lt b rest)
      (IndexSet.length_le_size simple.nodup simple.reachable)
  · exact liveIn_eq_sweeps run reach (List.getElem?_eq_getElem (Func.reachable_lt edges reach))

end Liveness

/-- One edge of the crossed loop retreats, and what is read behind it takes a sweep more. -/
theorem crossBlocks_converges : ∃ f l, Func.ofBlocks "cross" [0, 1] ∅ crossBlocks = .ok f ∧
    Liveness.Converges f ∧ f.retreats [0, 2, 1] = 1 ∧ Liveness.analyze 3 f = .ok l ∧ l.passes = 3 := by
  have result : (Func.ofBlocks "cross" [0, 1] ∅ crossBlocks).bind (fun f =>
      (Liveness.analyze 3 f).map fun l => (f.retreats [0, 2, 1], l.passes)) = .ok (1, 3) := by
    decide +kernel
  obtain ⟨f, built, rest⟩ := bind_eq_ok.mp result
  obtain ⟨l, run, values⟩ := map_eq_ok.mp rest
  rw [Prod.mk.injEq] at values
  have consistent := Func.ofBlocks_consistent built
  exact ⟨f, l, built, Liveness.analyze_converges consistent, values.1, run, values.2⟩

end RegisterColoring
