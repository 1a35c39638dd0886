import RegisterColoring.Proofs.Normality

namespace RegisterColoring

open Relation

theorem flatten_mapIdx_perm {α β : Type} {l : List α} {all first second : Nat → α → List β}
    (split : ∀ n x, (all n x).Perm (first n x ++ second n x)) :
    (l.mapIdx all).flatten.Perm ((l.mapIdx first).flatten ++ (l.mapIdx second).flatten) := by
  induction l generalizing all first second with
  | nil => exact .refl _
  | cons x rest ih =>
    simp only [List.mapIdx_cons, List.flatten_cons]
    have later := ih fun n => split (n + 1)
    refine ((split 0 x).append later).trans ?_
    rw [List.append_assoc, List.append_assoc]
    refine List.Perm.append_left _ ?_
    rw [← List.append_assoc, ← List.append_assoc]
    exact List.perm_append_comm.append_right _

theorem Liveness.map_fst_pairs (l : Liveness) (b : BlockId) (block : Block) :
    (l.pairs b block).map (·.1) = block.instrs := by
  refine List.ext_getElem? fun k => ?_
  rw [pairs_def, List.getElem?_map, List.getElem?_mapIdx, Option.map_map]
  exact Option.map_id' ..

namespace Func

variable {f g : Func} {b : BlockId}

/-- All instructions, each with its block. -/
def stream (f : Func) : List Eliminated :=
  (f.blocks.mapIdx fun b block => block.instrs.map (Eliminated.mk b)).flatten

theorem mem_stream {e : Eliminated} (member : e ∈ f.stream) : e.instr ∈ f.instrs := by
  obtain ⟨row, isRow, inside⟩ := List.mem_flatten.mp member
  obtain ⟨b, bound, rfl⟩ := List.mem_mapIdx.mp isRow
  obtain ⟨i, inBlock, rfl⟩ := List.mem_map.mp inside
  exact List.mem_flatMap.mpr ⟨_, List.getElem_mem bound, inBlock⟩

/-- A round splits the instructions into those that it removes and those that stay. -/
theorem stream_perm (f : Func) (l : Liveness) :
    f.stream.Perm (f.deadCode l ++ (f.withoutDead l).stream) := by
  rw [deadCode_def, withoutDead_def, stream, stream, List.mapIdx_mapIdx]
  refine flatten_mapIdx_perm fun b block => ?_
  simp only [Function.comp_apply]
  split
  · have parts := List.filter_append_perm (fun p => p.1.isDead p.2) (l.pairs b block)
    have named := (parts.map (·.1)).map (Eliminated.mk b)
    rw [List.map_append, List.map_append, l.map_fst_pairs] at named
    exact named.symm
  · exact .refl _

/-- Blocks that cannot be reached are left as they are. -/
theorem unreached_of_sheds (sheds : ReflTransGen Sheds f g) :
    g.reachable = f.reachable ∧ ∀ b, b ∉ f.reachable → g.blocks[b]? = f.blocks[b]? := by
  induction sheds with
  | refl => exact ⟨rfl, fun _ _ => rfl⟩
  | tail _ last ih =>
    obtain ⟨same, kept⟩ := ih
    refine ⟨last.trims.reachable_eq.trans same, fun b outside => ?_⟩
    rw [← kept b outside]
    exact last.getElem?_eq fun _ _ _ _ _ _ dead => outside (same ▸ dead.1)

/-- What is left of a block stands in the same order. -/
theorem sublist_of_sheds (sheds : ReflTransGen Sheds f g) {block : Block}
    (found : f.blocks[b]? = some block) :
    ∃ image, g.blocks[b]? = some image ∧ image.instrs.Sublist block.instrs := by
  induction sheds with
  | refl => exact ⟨block, found, .refl _⟩
  | tail _ last ih =>
    obtain ⟨image, place, sublist⟩ := ih
    obtain ⟨row, next, strips⟩ := last.rows b image place
    exact ⟨_, next, strips.thins.sublist.trans sublist⟩

/-- A function without dead code is normal. -/
theorem Lively.normal {bound : Nat} {l : Liveness} (lively : f.Lively l)
    (fresh : Liveness.analyze bound f = .ok l) : f.Normal := by
  rintro g ⟨run, reach, found, split, dead⟩
  cases Liveness.analyze_bound fresh run
  rw [Liveness.reachable_of_analyze run] at reach
  unfold Instr.isDead at dead
  split at dead
  · rename_i d writes
    simp only [Bool.and_eq_true, Bool.not_eq_true', decide_eq_true_eq] at dead
    exact dead.2 (lively _ reach _ _ _ _ d found split writes dead.1)
  · cases dead

end Func

namespace DeadCode

/-- What rounds of elimination do that start with `f` after `rounds` rounds have removed `gone`, and
that end with `g`. -/
structure Removes (bound rounds : Nat) (gone : List Eliminated) (f g : Func) (d : DeadCode) : Prop where
  sheds : ReflTransGen Func.Sheds f g
  fresh : Liveness.analyze bound g = .ok d.liveness
  none : (g.deadCode d.liveness).isEmpty = true
  split : ∃ more, d.eliminated = gone ++ more ∧ f.stream.Perm (more ++ g.stream) ∧
    d.rounds ≤ rounds + more.length + 1

theorem eliminateFrom_removes {bound left rounds : Nat} {gone : List Eliminated} {f g : Func}
    {d : DeadCode} (wf : f.WellFormed) (run : eliminateFrom bound left rounds gone f = (g, .ok d)) :
    Removes bound rounds gone f g d := by
  induction left generalizing rounds gone f with
  | zero => cases run
  | succ left ih =>
    cases analysis : Liveness.analyze bound f with
    | error e =>
      rw [eliminateFrom_of_error analysis] at run
      cases run
    | ok l =>
      rw [eliminateFrom_of_ok analysis] at run
      split at run
      · rename_i none
        cases run
        exact ⟨.refl, analysis, none, [], (List.append_nil gone).symm, .refl _, Nat.le_refl _⟩
      · rename_i some
        have sheds := withoutDead_sheds wf.edgesInside analysis
        obtain ⟨rest, fresh, none, more, eliminated, perm, rounds⟩ :=
          ih (sheds.trims.wellFormed wf) run
        have removed : 0 < (f.deadCode l).length :=
          List.length_pos_iff.mpr fun empty => some (List.isEmpty_iff.mpr empty)
        refine ⟨.head sheds rest, fresh, none, f.deadCode l ++ more, ?_, ?_, ?_⟩
        · rw [eliminated, List.append_assoc]
        · rw [List.append_assoc]
          exact (f.stream_perm l).trans (perm.append_left _)
        · rw [List.length_append]
          omega

/-- The result of an elimination is a normal form, and what is known of the way to it. -/
structure Normalizes (d : DeadCode) (bound : Nat) (f g : Func) : Prop where
  /-- Removals come to an end, since each takes one instruction away. -/
  shorter : ∀ h k : Func, h.Drops k → k.instrCount + 1 = h.instrCount
  /-- However removals begin, they can only end in the result. -/
  unique : ∀ h, ReflTransGen Func.Drops f h → h.Normal → h = g
  reached : ∀ h, ReflTransGen Func.Drops f h → ReflTransGen Func.Drops h g
  normal : g.Normal
  fresh : Liveness.analyze bound g = .ok d.liveness
  stream : f.stream.Perm (d.eliminated ++ g.stream)
  survivors : ∀ (b : BlockId) (block : Block), f.blocks[b]? = some block →
    ∃ image, g.blocks[b]? = some image ∧ image.instrs.Sublist block.instrs
  unreached : ∀ b, b ∉ f.reachable → g.blocks[b]? = f.blocks[b]?
  again : eliminate bound g = (g, .ok ⟨d.liveness, [], 1⟩)
  rounds : d.rounds ≤ d.eliminated.length + 1

/-- An elimination that succeeds leaves the one normal form of its function. -/
theorem eliminate_normalizes {src : Source.Func} {automatic : Bool} {bound : Nat} {f g : Func}
    {d : DeadCode} (source : Func.ofSource src automatic = .ok f)
    (run : eliminate bound f = (g, .ok d)) : d.Normalizes bound f g := by
  have wf := Func.ofSource_wellFormed source
  obtain ⟨sheds, fresh, none, more, rfl, perm, rounds⟩ := eliminateFrom_removes wf run
  have normal := (lively_of_deadCode fresh none).normal fresh
  have unique : ∀ h, ReflTransGen Func.Drops f h → h.Normal → h = g := fun h drops ends =>
    Func.normal_unique wf (Func.sheds_of_drops drops wf) sheds ends normal
  refine ⟨fun h k drops => drops.instrCount, unique, fun h drops => ?_, normal, fresh, perm,
    fun b block found => Func.sublist_of_sheds sheds found,
    (Func.unreached_of_sheds sheds).2, ?_, ?_⟩
  · obtain ⟨k, later, ends⟩ := h.exists_normal
    rw [unique k (drops.trans later) ends] at later
    exact later
  · cases bound with
    | zero => cases run
    | succ n =>
      exact (eliminateFrom_of_ok fresh).trans (if_pos none)
  · rwa [Nat.zero_add] at rounds

end DeadCode

/-- A chain that ends with an address, and a definition that cannot be reached. -/
def pointerSource : Source.Func :=
  ⟨"pointer", [],
    [.statement (.assign 0 (.move (.const 1))),
      .statement (.assign 1 (.addrOf 0)),
      .statement (.assign 2 (.move (.temp 1))),
      .statement (.goto ".end"),
      .statement (.assign 3 (.move (.const 2))),
      .label ".end",
      .statement (.ret none)]⟩

/-- Only when the address is gone is the first definition dead, so there are as many rounds as there
can be. -/
theorem pointerSource_normalizes : ∃ f g d, Func.ofSource pointerSource false = .ok f ∧
    DeadCode.eliminate 4 f = (g, .ok d) ∧ d.eliminated.map (·.instr.dest?) = [some 2, some 1, some 0] ∧
    d.rounds = 4 ∧ g.blocks.map (·.instrs.length) = [1, 1, 1] ∧ d.Normalizes 4 f g := by
  have result : (Func.ofSource pointerSource false).bind (fun f =>
      (DeadCode.eliminate 4 f).2.map fun d => (d.eliminated.map (·.instr.dest?), d.rounds,
        (DeadCode.eliminate 4 f).1.blocks.map (·.instrs.length))) =
      .ok ([some 2, some 1, some 0], 4, [1, 1, 1]) := by decide +kernel
  obtain ⟨f, source, rest⟩ := bind_eq_ok.mp result
  obtain ⟨d, found, values⟩ := map_eq_ok.mp rest
  simp only [Prod.mk.injEq] at values
  obtain ⟨gone, rounds, left⟩ := values
  have run : DeadCode.eliminate 4 f = ((DeadCode.eliminate 4 f).1, .ok d) := Prod.ext rfl found
  exact ⟨f, _, d, source, run, gone, rounds, left, DeadCode.eliminate_normalizes source run⟩

end RegisterColoring
