import RegisterColoring.Proofs.CompactLiveness
import RegisterColoring.Proofs.Elimination

namespace RegisterColoring

namespace Instr

variable (r : BlockId → BlockId)

@[simp] theorem isDead_mapTargets (i : Instr) (live : IndexSet) :
    (i.mapTargets r).isDead live = i.isDead live := by
  simp only [isDead, dest?_mapTargets, hasEffect_mapTargets]

/-- Only a jump has targets, and a jump is never dead. -/
theorem mapTargets_of_isDead {i : Instr} {live : IndexSet} (dead : i.isDead live = true) :
    i.mapTargets r = i := by
  cases i with
  | jump target => cases dead
  | branch cond yes no => cases dead
  | _ => rfl

end Instr

theorem flatMap_filter {α β : Type} (p : α → Bool) (row : α → List β) (xs : List α) :
    (xs.filter p).flatMap row = xs.flatMap fun x => if p x then row x else [] := by
  induction xs with
  | nil => rfl
  | cons x rest ih =>
    rw [List.filter_cons, List.flatMap_cons, ← ih]
    cases p x <;> rfl

namespace Func

/-- The blocks that can be reached, in their order. -/
theorem flatten_reachable {β : Type} {f : Func} (inside : f.EdgesInside)
    (row : BlockId → Block → List β) :
    (f.blocks.mapIdx fun b block => if b ∈ f.reachable then row b block else []).flatten =
      f.reachable.toList.flatMap fun b => (f.blocks[b]?).elim [] (row b) := by
  have numbers : (List.range f.blocks.length).filter (· ∈ f.reachable) = f.reachable.toList := by
    refine ascending_eq (List.pairwise_lt_range.filter _) f.reachable.ascending fun b => ?_
    rw [List.mem_filter, List.mem_range, decide_eq_true_eq]
    exact ⟨fun both => both.2, fun reach => ⟨reachable_lt inside reach, reach⟩⟩
  have rows : (f.blocks.mapIdx fun b block => if b ∈ f.reachable then row b block else []) =
      (List.range f.blocks.length).map fun b =>
        if b ∈ f.reachable then (f.blocks[b]?).elim [] (row b) else [] := by
    refine List.ext_getElem? fun b => ?_
    rw [List.getElem?_mapIdx, List.getElem?_map]
    cases found : f.blocks[b]? with
    | none =>
      rw [List.getElem?_eq_none (by simpa using List.getElem?_eq_none_iff.mp found)]
      rfl
    | some block =>
      rw [List.getElem?_range (List.getElem?_eq_some_iff.mp found).1]
      simp only [Option.map_some, found, Option.elim_some]
  rw [rows, ← numbers, flatMap_filter, List.flatMap_def]
  simp only [decide_eq_true_eq]

namespace Compacts

variable {f g : Func} {r : BlockId → BlockId}

/-- What is collected from the blocks that can be reached is collected from their images. -/
theorem flatten_image {β γ : Type} (compacts : Compacts f g r) {row : BlockId → Block → List β}
    {image : BlockId → Block → List γ} (change : β → γ)
    (same : ∀ b ∈ f.reachable, ∀ block other, f.blocks[b]? = some block →
      g.blocks[r b]? = some other → other.instrs = block.instrs.map (Instr.mapTargets r) →
      image (r b) other = (row b block).map change) :
    (g.blocks.mapIdx fun c block => if c ∈ g.reachable then image c block else []).flatten =
      ((f.blocks.mapIdx fun b block => if b ∈ f.reachable then row b block else []).flatten).map
        change := by
  rw [flatten_reachable compacts.inside, flatten_reachable compacts.after.edgesInside,
    compacts.reachable_eq, List.flatMap_map, List.map_flatMap]
  refine List.flatMap_congr fun b reach => ?_
  obtain ⟨block, other, found, placed, instrs, _⟩ := compacts.place reach
  rw [found, placed]
  exact same b reach block other found placed instrs

theorem pairs_eq {l m : Liveness} (agree : l.Agree f r m) {b : BlockId} (reach : b ∈ f.reachable)
    {block other : Block} (instrs : other.instrs = block.instrs.map (Instr.mapTargets r)) :
    m.pairs (r b) other = (l.pairs b block).map fun p => (p.1.mapTargets r, p.2) := by
  refine List.ext_getElem? fun i => ?_
  simp only [Liveness.pairs_def, instrs, List.getElem?_mapIdx, List.getElem?_map,
    agree.liveAfter_eq reach]
  cases block.instrs[i]? <;> rfl

/-- The points of the code are the same. -/
theorem points_eq (compacts : Compacts f g r) {bound : Nat} {l m : Liveness}
    (first : Liveness.analyze bound f = .ok l) (second : Liveness.analyze bound g = .ok m)
    (agree : Liveness.Agree f r l m) :
    m.points g = (l.points f).map fun p => (p.1.mapTargets r, p.2) := by
  rw [Liveness.points_def, Liveness.points_def, Liveness.reachable_of_analyze first,
    Liveness.reachable_of_analyze second]
  exact compacts.flatten_image _ fun b reach block other _ _ instrs => pairs_eq agree reach instrs

/-- The same instructions are dead. -/
theorem deadCode_eq (compacts : Compacts f g r) {bound : Nat} {l m : Liveness}
    (first : Liveness.analyze bound f = .ok l) (second : Liveness.analyze bound g = .ok m)
    (agree : Liveness.Agree f r l m) :
    g.deadCode m = (f.deadCode l).map fun e => ⟨r e.block, e.instr⟩ := by
  rw [deadCode_def, deadCode_def, Liveness.reachable_of_analyze first, Liveness.reachable_of_analyze second]
  refine compacts.flatten_image _ fun b reach block other _ _ instrs => ?_
  rw [pairs_eq agree reach instrs, List.map_map]
  unfold deadInstrs
  rw [List.filter_map, List.map_map, List.map_map, List.map_map]
  have dead : ((l.pairs b block).filter fun p => (p.1.mapTargets r).isDead p.2) =
      (l.pairs b block).filter fun p => p.1.isDead p.2 :=
    List.filter_congr fun p _ => by rw [Instr.isDead_mapTargets]
  simp only [Function.comp_def, dead]
  refine List.map_congr_left fun p member => ?_
  rw [Instr.mapTargets_of_isDead r (List.mem_filter.mp member).2]

/-- Without the dead instructions one function is still the other one without the blocks that cannot
be reached. -/
theorem withoutDead (compacts : Compacts f g r) {bound : Nat} {l m : Liveness}
    (first : Liveness.analyze bound f = .ok l) (second : Liveness.analyze bound g = .ok m)
    (agree : Liveness.Agree f r l m) : Compacts (f.withoutDead l) (g.withoutDead m) r := by
  have trims := withoutDead_trims compacts.wellFormed first
  have imageTrims := withoutDead_trims compacts.after second
  have prunes := compacts.prunes
  have wf := trims.wellFormed compacts.wellFormed
  refine ⟨wf, ⟨?_, ?_, prunes.entry, ?_, ?_, ?_, (imageTrims.wellFormed compacts.after).linked, ?_⟩, ?_⟩
  · intro b reach block found
    rw [trims.reachable_eq] at reach
    obtain ⟨old, image, oldFound, placed, instrs, _⟩ := compacts.place reach
    simp only [withoutDead_def, List.getElem?_mapIdx, oldFound, Option.map_some,
      Liveness.reachable_of_analyze first, if_pos reach, Option.some.injEq] at found
    simp only [withoutDead_def, List.getElem?_mapIdx, placed, Option.map_some,
      Liveness.reachable_of_analyze second, if_pos (compacts.image_mem reach)]
    refine ⟨_, rfl, ?_⟩
    rw [← found]
    simp only [liveInstrs, pairs_eq agree reach instrs, List.filter_map, List.map_map,
      Function.comp_def, Instr.isDead_mapTargets]
  · rw [imageTrims.length, trims.reachable_eq]
    exact prunes.onto
  · rw [trims.reachable_eq]
    exact prunes.next
  · rw [trims.reachable_eq, trims.length, imageTrims.length]
    exact prunes.last
  · rw [trims.reachable_eq, trims.headings, imageTrims.headings]
    exact prunes.headings
  · simp only [withoutDead_def]
    rw [prunes.fields]
  · rw [trims.reachable_eq, imageTrims.length]
    exact compacts.order

/-- Pruning leaves the function that it is described by. -/
theorem pruneUnreachable_eq (compacts : Compacts f g (renumber f.reachable)) :
    f.pruneUnreachable = .ok (f.blocks.length - f.reachable.size, g) := by
  obtain ⟨h, run, other⟩ := pruneUnreachable_compacts compacts.wellFormed
  rw [run, other.unique compacts]

end Compacts

end Func

/-- What dead code elimination finds in two functions agrees. -/
structure DeadCode.Agree (f : Func) (r : BlockId → BlockId) (d e : DeadCode) : Prop where
  rounds : e.rounds = d.rounds
  eliminated : e.eliminated = d.eliminated.map fun x => ⟨r x.block, x.instr⟩
  liveness : Liveness.Agree f r d.liveness e.liveness

namespace Func.Compacts

variable {f g : Func} {r : BlockId → BlockId}

/-- The rounds of an elimination remove the same instructions. -/
theorem eliminateFrom (compacts : Compacts f g r) (bound left rounds : Nat) (gone : List Eliminated)
    {f' g' : Func} {x y : Except Failure DeadCode}
    (run : DeadCode.eliminateFrom bound left rounds gone f = (f', x))
    (imageRun : DeadCode.eliminateFrom bound left rounds
      (gone.map fun e => ⟨r e.block, e.instr⟩) g = (g', y)) :
    Compacts f' g' r ∧ f'.reachable = f.reachable ∧ f'.blocks.length = f.blocks.length ∧
      Alike (DeadCode.Agree f r) x y := by
  induction left generalizing rounds gone f g with
  | zero =>
    cases run
    cases imageRun
    rw [compacts.name_eq]
    exact ⟨compacts, rfl, rfl, .error _⟩
  | succ left ih =>
    have analyses := compacts.analyze bound
    cases first : Liveness.analyze bound f with
    | error e =>
      rw [first] at analyses
      rw [DeadCode.eliminateFrom_of_error first] at run
      generalize second : Liveness.analyze bound g = other at analyses
      cases analyses
      rw [DeadCode.eliminateFrom_of_error second] at imageRun
      cases run
      cases imageRun
      exact ⟨compacts, rfl, rfl, .error e⟩
    | ok l =>
      rw [first] at analyses
      rw [DeadCode.eliminateFrom_of_ok first] at run
      generalize second : Liveness.analyze bound g = other at analyses
      cases analyses with
      | @ok _ m agree =>
        have dead := compacts.deadCode_eq first second agree
        rw [DeadCode.eliminateFrom_of_ok second] at imageRun
        simp only [dead, List.isEmpty_map] at run imageRun
        split at run
        next none =>
          rw [if_pos none] at imageRun
          cases run
          cases imageRun
          exact ⟨compacts, rfl, rfl, .ok ⟨rfl, rfl, agree⟩⟩
        next some =>
          rw [if_neg some, ← List.map_append] at imageRun
          have trims := withoutDead_trims compacts.wellFormed first
          obtain ⟨after, reachable, length, alike⟩ :=
            ih (compacts.withoutDead first second agree) _ _ run imageRun
          refine ⟨after, reachable.trans trims.reachable_eq, length.trans trims.length, ?_⟩
          cases alike with
          | error e => exact .error e
          | ok agree =>
            refine .ok ⟨agree.rounds, agree.eliminated, ?_, ?_, ?_⟩
            · exact agree.liveness.passes
            · exact agree.liveness.addressTaken
            · rw [← trims.reachable_eq]
              exact agree.liveness.blocks

end Func.Compacts

end RegisterColoring
