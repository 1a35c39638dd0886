import RegisterColoring.Proofs.Rounds
import RegisterColoring.Proofs.SpillRanges

namespace RegisterColoring

/-- The operands of every instruction fit into the registers, and the temps of spill code live
briefly, within one block and for one reader. -/
structure Func.Roomy (f : Func) (colors : Nat) : Prop where
  fits : ∀ i ∈ f.instrs, i.uses.length ≤ colors
  brief : ∀ block ∈ f.blocks, Brief f.spillTemps block.instrs
  inside : ∀ block ∈ f.blocks, ∀ t ∈ f.spillTemps, t ∉ liveRow block.instrs ∅
  single : ∀ t ∈ f.spillTemps, f.instrs.countP (Instr.reads t) ≤ 1
  unaddressed : ∀ i ∈ f.instrs, ∀ t ∈ f.spillTemps, i.addressTaken? ≠ some t

/-- Every reload of the function is read. -/
def Func.Served (f : Func) : Prop :=
  ∀ block ∈ f.blocks, RegisterColoring.Served f.spillTemps block.instrs

variable {f g : Func} {colors : Nat}

theorem Func.Trims.roomy (trims : f.Trims g) (roomy : f.Roomy colors) : g.Roomy colors := by
  have same : g.spillTemps = f.spillTemps := by rw [trims.fields]
  have origin : ∀ image ∈ g.blocks, ∃ b, ∃ block ∈ f.blocks,
      f.Thins b block.instrs image.instrs := by
    intro image member
    obtain ⟨b, place⟩ := List.mem_iff_getElem?.mp member
    obtain ⟨block, found, _, _, thins⟩ := trims.origin place
    exact ⟨b, block, List.mem_of_getElem? found, thins⟩
  refine ⟨fun i member => roomy.fits i (trims.instrs_subset member), fun image member => ?_,
    fun image member t spill live => ?_, fun t spill => ?_, fun i member => ?_⟩
  · obtain ⟨b, block, inside, thins⟩ := origin image member
    rw [same]
    exact thins.brief (roomy.brief block inside)
  · obtain ⟨b, block, inside, thins⟩ := origin image member
    rw [same] at spill
    exact roomy.inside block inside t spill (thins.liveRow_subset live)
  · rw [same] at spill
    exact Nat.le_trans (trims.instrs_sublist.countP_le) (roomy.single t spill)
  · rw [same]
    exact roomy.unaddressed i (trims.instrs_subset member)

theorem Func.TrimsStar.roomy (trims : f.TrimsStar g) (roomy : f.Roomy colors) : g.Roomy colors := by
  induction trims with
  | refl => exact roomy
  | tail _ step ih => exact step.roomy ih

namespace Func.Spills

variable {temps : List Temp} {slots : IndexMap Slot}

theorem widens (spills : f.Spills temps slots g) (wf : f.WellFormed)
    (apart : ∀ t ∈ temps, t ∉ f.spillTemps) :
    Spill.Widens slots f.nextTemp f.spillTemps g.spillTemps where
  kept t spill := by
    refine ⟨wf.spillTemps t spill, Option.eq_none_iff_forall_ne_some.mpr fun slot found => ?_⟩
    exact apart t (spills.contains_iff.mpr ⟨slot, found⟩) spill
  subset t spill := (spills.spillTemps t).mpr (Or.inl spill)
  cover t spill := ((spills.spillTemps t).mp spill).imp_right And.left

/-- Where the blocks of spill code come from, with what is known of their temps. -/
theorem block_origin (spills : f.Spills temps slots g) (wf : f.WellFormed) {image : Block}
    (member : image ∈ g.blocks) :
    ∃ block ∈ f.blocks, ∃ first : Nat, f.nextTemp ≤ first ∧
      (∀ i ∈ block.instrs, ∀ t ∈ i.temps, t < f.nextTemp) ∧
      (∀ t : Nat, first ≤ t → t < (Spill.instrsCode slots first block.instrs).2 →
        t ∈ g.spillTemps) ∧
      image.instrs = (Spill.instrsCode slots first block.instrs).1 := by
  obtain ⟨b, place⟩ := List.mem_iff_getElem?.mp member
  obtain ⟨block, found, first, low, high, rfl⟩ := spills.origin place
  refine ⟨block, List.mem_of_getElem? found, first, low, fun i inside t named => ?_,
    fun t above below => ?_, rfl⟩
  · exact wf.temp_lt (Func.mem_instrs.mpr ⟨b, block, found, inside⟩) named
  · exact (spills.spillTemps t).mpr
      (Or.inr ⟨Nat.le_trans low above, Nat.lt_of_lt_of_le below high⟩)

theorem served (spills : f.Spills temps slots g) (wf : f.WellFormed)
    (apart : ∀ t ∈ temps, t ∉ f.spillTemps) (served : f.Served) : g.Served := by
  intro image member
  obtain ⟨block, inside, first, low, below, _, code⟩ := spills.block_origin wf member
  rw [code]
  exact (spills.widens wf apart).served low below (served block inside)

theorem roomy (spills : f.Spills temps slots g) (wf : f.WellFormed)
    (apart : ∀ t ∈ temps, t ∉ f.spillTemps) (positive : 1 ≤ colors) (roomy : f.Roomy colors) :
    g.Roomy colors := by
  have widens := spills.widens wf apart
  have code : (Spill.instrsCode slots f.nextTemp f.instrs).1 = g.instrs := by
    rw [← spills.instrs_eq]
  refine ⟨fun j member => ?_, fun image member => ?_, fun image member t spill live => ?_,
    fun t spill => ?_, fun j member t spill taken => ?_⟩
  · rw [← code] at member
    obtain ⟨i, old, first, _, here, _⟩ := Spill.mem_instrsCode member
    exact Spill.uses_length_instrCode positive (roomy.fits i old) here
  · obtain ⟨block, inside, first, low, below, fresh, code⟩ := spills.block_origin wf member
    rw [code]
    exact widens.brief low below fresh (roomy.brief block inside)
  · obtain ⟨block, inside, first, low, below, _, code⟩ := spills.block_origin wf member
    rw [code] at live
    obtain ⟨old, before⟩ := widens.live low below spill live
    exact roomy.inside block inside t old before
  · rw [← code]
    rcases widens.cover t spill with old | above
    · exact Nat.le_trans (Spill.countP_reads_old (widens.kept t old).1) (roomy.single t old)
    · exact Spill.countP_reads_fresh above fun i inside u named => wf.temp_lt inside named
  · obtain ⟨i, old, same⟩ := spills.addressTaken member taken
    rcases widens.cover t spill with before | above
    · exact roomy.unaddressed i old t before same
    · have below := wf.temp_lt old (Instr.mem_temps.mpr (Or.inr
        (Instr.mem_uses_of_addressTaken same)))
      exact absurd above (Nat.not_le_of_lt below)

end Func.Spills

namespace Func.Roomy

variable {l : Liveness} {bound : Nat}

theorem liveRow_of_liveAt (roomy : f.Roomy colors) {b : BlockId} {rest : List Instr} {t : Temp}
    (spill : t ∈ f.spillTemps) (live : f.LiveAt t b rest) : t ∈ liveRow rest ∅ := by
  induction live with
  | read used => exact mem_liveRow_cons.mpr (Or.inl used)
  | pass kept _ ih => exact mem_liveRow_cons.mpr (Or.inr ⟨kept, ih⟩)
  | edge _ found _ ih => exact absurd ih (roomy.inside _ (List.mem_of_getElem? found) t spill)

/-- A temp of spill code that the analysis finds live is read in the same block. -/
theorem liveRow_of_liveAfter (roomy : f.Roomy colors) (wf : f.WellFormed)
    (run : Liveness.analyze bound f = .ok l) {b : BlockId} {block : Block} {pre rest : List Instr}
    {i : Instr} (reach : b ∈ f.reachable) (found : f.blocks[b]? = some block)
    (split : block.instrs = pre ++ i :: rest) {t : Temp} (spill : t ∈ f.spillTemps)
    (live : t ∈ l.liveAfter b pre.length) : t ∈ liveRow rest ∅ := by
  rcases (Liveness.mem_liveAfter wf.edgesInside run reach found split).mp live with path | taken
  · exact roomy.liveRow_of_liveAt spill path
  · obtain ⟨j, inside, address⟩ := Liveness.mem_addressTaken run taken
    exact absurd address (roomy.unaddressed j inside t spill)

theorem not_mem_liveIn (roomy : f.Roomy colors) (wf : f.WellFormed)
    (run : Liveness.analyze bound f = .ok l) {t : Temp} (spill : t ∈ f.spillTemps) :
    t ∉ l.liveIn entry := by
  intro live
  obtain ⟨block, found⟩ := wf.entry_block
  rcases (Liveness.mem_liveIn wf.edgesInside run (entry_mem_reachable wf.nonempty) found).mp live with
    path | taken
  · exact roomy.inside block (List.mem_of_getElem? found) t spill
      (roomy.liveRow_of_liveAt spill path)
  · obtain ⟨j, inside, address⟩ := Liveness.mem_addressTaken run taken
    exact absurd address (roomy.unaddressed j inside t spill)

/-- Without dead code every reload is read. -/
theorem served_of_lively (roomy : f.Roomy colors) (wf : f.WellFormed)
    (run : Liveness.analyze bound f = .ok l) (all : ∀ b < f.blocks.length, b ∈ f.reachable)
    (lively : f.Lively l) : f.Served := by
  intro block member
  obtain ⟨b, found⟩ := List.mem_iff_getElem?.mp member
  have reach := all b (List.getElem?_eq_some_iff.mp found).1
  refine served_of_split fun pre i rest split t spill slot same => ?_
  subst same
  exact roomy.liveRow_of_liveAfter wf run reach found split spill
    (lively b reach block pre rest _ t found split rfl rfl)

/-- Two temps of spill code meet only as operands of one instruction. -/
theorem reader_of_meets (roomy : f.Roomy colors) (served : f.Served) (wf : f.WellFormed)
    (run : Liveness.analyze bound f = .ok l) {t u : Temp} (first : t ∈ f.spillTemps)
    (second : u ∈ f.spillTemps) (other : t ≠ u) (meets : Interference.Meets f l t u) :
    ∃ j ∈ f.instrs, j.reads t = true ∧ j.reads u = true := by
  rcases meets with ⟨_, live⟩ | ⟨⟨i, after⟩, point, writes, live, _⟩
  · exact absurd live (roomy.not_mem_liveIn wf run second)
  · obtain ⟨b, block, pre, rest, reach, found, split, rfl⟩ := Liveness.mem_points.mp point
    rw [Liveness.reachable_of_analyze run] at reach
    have member := List.mem_of_getElem? found
    have brief := roomy.brief block member
    have reloads := served block member
    rw [split] at brief reloads
    have behind := roomy.liveRow_of_liveAfter wf run reach found split second live
    obtain ⟨⟨v, _, slot, rfl⟩ | last, later⟩ := brief.split
    · cases writes
      have read := reloads.split t first slot rfl
      rcases later.reader with none | ⟨j, inside, reads⟩
      · exact absurd read (none t first)
      · have usesT := reads t first read
        have usesU := reads u second behind
        have plain : ∀ slot x, j ≠ .spillStore slot x := by
          rintro slot x rfl
          exact other ((List.mem_singleton.mp usesT).trans (List.mem_singleton.mp usesU).symm)
        refine ⟨j, mem_instrs.mpr ⟨b, block, found, ?_⟩, Instr.reads_iff.mpr ⟨usesT, plain⟩,
          Instr.reads_iff.mpr ⟨usesU, plain⟩⟩
        rw [split]
        exact List.mem_append_right _ (List.mem_cons_of_mem _ inside)
    · exact absurd (Option.some.inj (writes.symm.trans (last u second behind))) other

theorem reader_of_interferes (roomy : f.Roomy colors) (served : f.Served) (wf : f.WellFormed)
    (run : Liveness.analyze bound f = .ok l) {graph : Interference} (represents : graph.Represents f l)
    {t u : Temp} (first : t ∈ f.spillTemps) (second : u ∈ f.spillTemps)
    (edge : graph.interferes t u = true) :
    t ≠ u ∧ ∃ j ∈ f.instrs, j.reads t = true ∧ j.reads u = true := by
  obtain ⟨other, meets | meets⟩ := (represents.edges t u).mp edge
  · exact ⟨other, roomy.reader_of_meets served wf run first second other meets⟩
  · obtain ⟨j, inside, readsU, readsT⟩ :=
      roomy.reader_of_meets served wf run second first other.symm meets
    exact ⟨other, j, inside, readsT, readsU⟩

theorem reader_unique (roomy : f.Roomy colors) {t : Temp} (spill : t ∈ f.spillTemps) {i j : Instr}
    (first : i ∈ f.instrs) (second : j ∈ f.instrs) (readsI : i.reads t = true)
    (readsJ : j.reads t = true) : i = j := by
  have single := roomy.single t spill
  rw [List.countP_eq_length_filter] at single
  have atI := List.mem_filter.mpr ⟨first, readsI⟩
  have atJ := List.mem_filter.mpr ⟨second, readsJ⟩
  cases readers : f.instrs.filter (Instr.reads t) with
  | nil =>
    rw [readers] at atI
    exact absurd atI List.not_mem_nil
  | cons k rest =>
    rw [readers] at single atI atJ
    have none : rest = [] := List.eq_nil_of_length_eq_zero (Nat.le_zero.mp (Nat.le_of_succ_le_succ single))
    rw [none] at atI atJ
    exact (List.mem_singleton.mp atI).trans (List.mem_singleton.mp atJ).symm

/-- Among temps of spill code a temp has fewer neighbors than there are registers. -/
theorem liveDegree_lt (roomy : f.Roomy colors) (served : f.Served) (wf : f.WellFormed)
    (run : Liveness.analyze bound f = .ok l) {graph : Interference} (represents : graph.Represents f l)
    (unpinned : ∀ t, graph.pinned.contains t = false) (positive : 1 ≤ colors) {rest : List Temp}
    (spill : ∀ t ∈ rest, t ∈ f.spillTemps) {t : Temp} (member : t ∈ rest) :
    Coloring.liveDegree graph rest t < colors := by
  unfold Coloring.liveDegree
  generalize near : (graph.neighbors t).filter _ = neighbors
  have joined : ∀ u ∈ neighbors, t ≠ u ∧ ∃ j ∈ f.instrs, j.reads t = true ∧ j.reads u = true := by
    intro u inside
    rw [← near, IndexSet.mem_filter, unpinned u, Bool.or_false, decide_eq_true_eq] at inside
    exact roomy.reader_of_interferes served wf run represents (spill t member)
      (spill u inside.2) ((Interference.mem_neighbors represents.valid).mp inside.1)
  cases content : neighbors.toList with
  | nil =>
    unfold IndexSet.size
    rw [content]
    exact positive
  | cons u others =>
    have inside : u ∈ neighbors := by
      rw [← IndexSet.mem_toList, content]
      exact List.mem_cons_self
    obtain ⟨_, j, here, readsT, _⟩ := joined u inside
    have usesT := (Instr.reads_iff.mp readsT).1
    -- The one instruction that reads `t` reads all its neighbors too.
    have lower : neighbors.size < (neighbors.insert t).size := by
      refine IndexSet.size_lt_size (fun v old => IndexSet.mem_insert.mpr (Or.inr old)) (fun old => ?_)
        (IndexSet.mem_insert.mpr (Or.inl rfl))
      exact (joined t old).1 rfl
    have upper : (neighbors.insert t).size ≤ j.uses.length := by
      refine IndexSet.size_le_length fun v old => ?_
      rcases IndexSet.mem_insert.mp old with rfl | near
      · exact usesT
      · obtain ⟨_, k, there, readsK, readsV⟩ := joined v near
        rw [roomy.reader_unique (spill t member) here there readsT readsK]
        exact (Instr.reads_iff.mp readsV).1
    exact Nat.lt_of_lt_of_le lower (Nat.le_trans upper (roomy.fits j here))

end Func.Roomy

theorem Func.costOf_spillTemp {t : Temp} (inside : t ∈ f.allTemps) (spill : t ∈ f.spillTemps) :
    f.costOf t = .infinite := by
  simp only [costOf, IndexMap.getD, spillCosts_def, IndexMap.get?_ofKeys, if_pos inside, costIn,
    if_pos spill, Option.getD_some]

theorem Func.mem_spillTemps_of_costOf {t : Temp} (infinite : f.costOf t = .infinite) :
    t ∈ f.spillTemps := by
  by_contra finite
  simp only [costOf, IndexMap.getD, spillCosts_def, IndexMap.get?_ofKeys, costIn, if_neg finite] at infinite
  split at infinite
  · exact nomatch infinite
  · exact nomatch infinite

theorem Weight.cost_of_infinite {c : Cost} {degree : Nat} (positive : 1 ≤ degree)
    (infinite : Weight.ofCost c degree = .infinite) : c = .infinite := by
  cases c with
  | infinite => rfl
  | finite n =>
    unfold ofCost at infinite
    simp only [if_neg (Nat.one_le_iff_ne_zero.mp positive)] at infinite
    split at infinite
    · exact nomatch infinite
    · exact nomatch infinite

/-- A temp of spill code is a candidate only if nothing else is left, and then it would have few
neighbors. -/
theorem Func.Roomy.not_candidate {l : Liveness} {bound : Nat} (roomy : f.Roomy colors)
    (served : f.Served) (wf : f.WellFormed) (run : Liveness.analyze bound f = .ok l)
    (all : ∀ b < f.blocks.length, b ∈ f.reachable) {graph : Interference}
    (represents : graph.Represents f l) (unpinned : ∀ t, graph.pinned.contains t = false)
    (positive : 1 ≤ colors) {events : List Event}
    (pushes : Coloring.Pushes graph f.costOf colors graph.unplaced events) {t : Temp} {w : Weight}
    (member : .candidate t w ∈ events) : t ∉ f.spillTemps := by
  intro spill
  obtain ⟨rest, inside, here, crowded, light⟩ := pushes.mem_candidate member
  have known : t ∈ f.allTemps := by
    have node := (Interference.mem_unplaced.mp (inside t here)).1
    refine Func.mem_allTemps.mpr ?_
    rcases (represents.mem_nodes wf run all t).mp node with param | pin | named
    · exact Or.inr (Or.inl (List.mem_of_mem_filter param))
    · exact Or.inl pin
    · exact Or.inr (Or.inr named)
  have infinite : ∀ u ∈ rest, u ∈ f.spillTemps := by
    intro u left
    refine Func.mem_spillTemps_of_costOf
      (Weight.cost_of_infinite (Nat.le_trans positive (crowded u left)) (light ?_ u left))
    rw [Func.costOf_spillTemp known spill]
    rfl
  exact absurd (crowded t here) (Nat.not_le_of_lt
    (roomy.liveDegree_lt served wf run represents unpinned positive infinite here))

theorem Func.Prepares.roomy {s : Settings} {l : Liveness} (prepares : f.Prepares s g l)
    (wf : f.WellFormed) (all : ∀ b < f.blocks.length, b ∈ f.reachable) (roomy : f.Roomy colors)
    (served : f.Served) : g.Roomy colors ∧ g.Served := by
  have trims := prepares.trims
  have left := trims.roomy roomy
  refine ⟨left, ?_⟩
  cases deadCode : s.deadCode with
  | true =>
    refine left.served_of_lively (trims.wellFormed wf) prepares.liveness ?_ (prepares.lively deadCode)
    rw [trims.length, trims.reachable_eq]
    exact all
  | false =>
    rw [prepares.kept deadCode]
    exact served

/-- No round spills a temp of spill code. -/
theorem Func.Attempts.spares {s : Settings} {a : Attempt} (attempts : f.Attempts s a) :
    ∀ t ∈ a.coloring.spilled.toList, t ∉ a.func.spillTemps := fun t member =>
  (attempts.selected.spilled t (IndexSet.mem_toList.mp member)).2.1

theorem Reached.roomy {s : Settings} {f₀ : Func} {rounds : List Round} {slots : IndexMap Slot}
    (reached : Reached s f₀ rounds slots f) (first : Progress f₀ [] ∅ f₀) (positive : 1 ≤ colors)
    (roomy : f₀.Roomy colors) (served : f₀.Served) : f.Roomy colors ∧ f.Served := by
  induction reached with
  | start => exact ⟨roomy, served⟩
  | @next rounds slots spilled f g a before attempt spill some ih =>
    have progress := before.progress first
    have attempts := Func.attempt_ok progress.wellFormed attempt
    have adds := progress.adds_of_spill attempts spill
    obtain ⟨left, read⟩ :=
      attempts.prepares.roomy progress.wellFormed progress.reachable ih.1 ih.2
    exact ⟨adds.spills.roomy adds.wellFormed attempts.spares positive left,
      adds.spills.served adds.wellFormed attempts.spares read⟩

/-- Before the first round there is no spill code. -/
theorem Func.Prunes.roomy {r : BlockId → BlockId} (prunes : f.Prunes g r) (wf : f.WellFormed)
    (written : g.spillTemps = ∅)
    (fits : ∀ b ∈ f.reachable, ∀ block, f.blocks[b]? = some block →
      ∀ i ∈ block.instrs, i.uses.length ≤ colors) : g.Roomy colors ∧ g.Served := by
  have none : ∀ t, t ∉ g.spillTemps := by
    intro t
    rw [written]
    exact IndexSet.not_mem_empty t
  have brief : ∀ row, Brief g.spillTemps row := by
    intro row
    induction row with
    | nil => trivial
    | cons i rest ih => exact ⟨Or.inr fun t spill => absurd spill (none t), ih⟩
  refine ⟨⟨fun i member => ?_, fun block _ => brief block.instrs,
    fun _ _ t spill => absurd spill (none t), fun t spill => absurd spill (none t),
    fun _ _ t spill => absurd spill (none t)⟩,
    fun block _ => served_of_split fun _ _ _ _ t spill => absurd spill (none t)⟩
  obtain ⟨c, image, place, inside⟩ := Func.mem_instrs.mp member
  obtain ⟨b, reach, _, block, found, instrs⟩ := prunes.origin wf place
  rw [instrs] at inside
  obtain ⟨old, before, rfl⟩ := List.mem_map.mp inside
  rw [Instr.uses_mapTargets]
  exact fits b reach block found old before

end RegisterColoring
