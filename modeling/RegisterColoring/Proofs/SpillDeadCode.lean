import RegisterColoring.Proofs.SpillCodeLiveness

namespace RegisterColoring

/-- Every instruction of a row and what follows it. -/
def AtEach (P : Instr → List Instr → Prop) : List Instr → Prop
  | [] => True
  | i :: rest => P i rest ∧ AtEach P rest

theorem atEach_iff {P : Instr → List Instr → Prop} {row : List Instr} :
    AtEach P row ↔ ∀ pre i rest, row = pre ++ i :: rest → P i rest := by
  induction row with
  | nil => exact ⟨fun _ pre i rest split => by simp at split, fun _ => trivial⟩
  | cons j row ih =>
    constructor
    · rintro ⟨first, later⟩ pre i rest split
      cases pre with
      | nil =>
        cases split
        exact first
      | cons k pre =>
        obtain ⟨_, split⟩ := List.cons.inj split
        exact ih.mp later pre i rest split
    · intro all
      refine ⟨all [] j row rfl, ih.mpr fun pre i rest split => ?_⟩
      exact all (j :: pre) i rest (by rw [split]; rfl)

/-- The temp that the instruction writes, if it has no other effect, is live in front of `rest` or
has its address taken. -/
def Func.Needed (f : Func) (taken : IndexSet) (b : BlockId) (i : Instr) (rest : List Instr) :
    Prop :=
  ∀ d, i.dest? = some d → i.hasEffect = false → f.LiveAt d b rest ∨ d ∈ taken

theorem Func.lively_iff {f : Func} {bound : Nat} {l : Liveness} (edges : f.EdgesInside)
    (run : Liveness.analyze bound f = .ok l) :
    f.Lively l ↔ ∀ b ∈ f.reachable, ∀ block, f.blocks[b]? = some block →
      AtEach (f.Needed l.addressTaken b) block.instrs := by
  constructor
  · intro lively b reach block found
    refine atEach_iff.mpr fun pre i rest split d writes quiet => ?_
    exact (Liveness.mem_liveAfter edges run reach found split).mp
      (lively b reach block pre rest i d found split writes quiet)
  · intro needed b reach block pre rest i d found split writes quiet
    exact (Liveness.mem_liveAfter edges run reach found split).mpr
      (atEach_iff.mp (needed b reach block found) pre i rest split d writes quiet)

theorem Func.deadCode_eq_nil_iff {f : Func} {bound : Nat} {l : Liveness}
    (run : Liveness.analyze bound f = .ok l) : f.deadCode l = [] ↔ f.Lively l := by
  refine ⟨fun none => lively_of_deadCode run (List.isEmpty_iff.mpr none), fun lively => ?_⟩
  rw [deadCode_def]
  refine List.flatten_eq_nil_iff.mpr fun row member => ?_
  obtain ⟨b, bound, rfl⟩ := List.mem_mapIdx.mp member
  split
  · rename_i reach
    rw [Liveness.reachable_of_analyze run] at reach
    refine List.map_eq_nil_iff.mpr (List.map_eq_nil_iff.mpr (List.filter_eq_nil_iff.mpr ?_))
    intro p point dead
    rw [Liveness.pairs_def] at point
    obtain ⟨k, inside, rfl⟩ := List.mem_mapIdx.mp point
    have cut : f.blocks[b].instrs = f.blocks[b].instrs.take k ++ f.blocks[b].instrs[k] ::
        f.blocks[b].instrs.drop (k + 1) := by
      rw [← List.drop_eq_getElem_cons inside, List.take_append_drop]
    have position : (f.blocks[b].instrs.take k).length = k := by
      rw [List.length_take, Nat.min_eq_left (Nat.le_of_lt inside)]
    simp only [Instr.isDead] at dead
    split at dead
    · rename_i d writes
      have live := lively b reach _ _ _ _ d (List.getElem?_eq_getElem bound) cut writes
      rw [position] at live
      simp only [Bool.and_eq_true, Bool.not_eq_true', decide_eq_true_eq] at dead
      exact dead.2 (live dead.1)
    · cases dead
  · rfl

namespace Spill

variable {P : Instr → List Instr → Prop}

@[simp] theorem hasEffect_renamed (slots : IndexMap Slot) (next : Nat) (i : Instr) :
    (renamed slots next i).hasEffect = i.hasEffect := by
  rw [renamed, Instr.hasEffect_mapUses]
  rcases redirect_cases slots i with ⟨same, _⟩ | ⟨d, v, slot, rfl, _, same⟩
  · rw [same]
  · rw [same]
    rfl

theorem atEach_loadCode {loads : List Reload} {later : List Instr}
    (needed : ∀ (r : Reload) rest, r.fresh ∈ liveRow rest ∅ → P (.spillLoad r.fresh r.slot) rest)
    (ascending : loads.Pairwise fun r q => r.fresh < q.fresh)
    (read : ∀ r ∈ loads, r.fresh ∈ liveRow later ∅) (done : AtEach P later) :
    AtEach P (loadCode loads ++ later) := by
  induction loads with
  | nil => exact done
  | cons r rest ih =>
    obtain ⟨above, ascending⟩ := List.pairwise_cons.mp ascending
    refine ⟨needed r _ (mem_liveRow_loadCode.mpr ⟨fun q inside => ?_, read r List.mem_cons_self⟩),
      ih ascending fun q inside => read q (List.mem_cons_of_mem r inside)⟩
    exact Nat.ne_of_gt (above q inside)

end Spill

namespace Func.Spills

variable {f g : Func} {temps : List Temp} {slots : IndexMap Slot} {bound : Nat} {l m : Liveness}
  (spills : f.Spills temps slots g) (wf : f.WellFormed)
  (run : Liveness.analyze bound f = .ok l) (again : Liveness.analyze bound g = .ok m)

include spills wf run again

/-- If what an instruction writes is needed, so is all that its code writes: the loads are for the
instruction, and what it writes is needed as before or is stored at once. -/
theorem needed_instrCode {b : BlockId} {next : Nat} {i : Instr} {rest : List Instr}
    (low : f.nextTemp ≤ next)
    (below : ∀ i ∈ rest, ∀ u ∈ i.temps, u < f.nextTemp)
    (needed : f.Needed l.addressTaken b i rest)
    (done : AtEach (g.Needed m.addressTaken b)
      (Spill.instrsCode slots (Spill.instrCode slots next i).2 rest).1) :
    AtEach (g.Needed m.addressTaken b) (Spill.instrsCode slots next (i :: rest)).1 := by
  have above := Nat.le_trans low (Spill.next_le_free slots next i)
  have ascending := Spill.reloads_ascending slots next (Spill.redirect slots i).uses
  have loads : ∀ (r : Spill.Reload) later, r.fresh ∈ liveRow later ∅ →
      g.Needed m.addressTaken b (.spillLoad r.fresh r.slot) later := by
    intro r later live d writes _
    cases writes
    exact Or.inl (.of_liveRow live)
  rw [Spill.instrsCode_cons]
  generalize behind : (Spill.instrsCode slots (Spill.instrCode slots next i).2 rest).1 = later
    at done ⊢
  rcases Spill.instrCode_cases slots next i with
    ⟨plain, code⟩ | ⟨d, slot, x, free, writes, _, code, _⟩
  · rw [code, List.append_assoc, List.singleton_append]
    refine Spill.atEach_loadCode loads ascending (fun r inside => mem_liveRow_cons.mpr (Or.inl ?_))
      ⟨fun d writes quiet => ?_, done⟩
    · exact Spill.fresh_mem_uses inside
    · rw [Spill.dest?_renamed] at writes
      rw [Spill.hasEffect_renamed] at quiet
      rw [← behind]
      exact (spills.live_iff wf run again above below).mpr ⟨needed d writes quiet, plain d writes⟩
  · rw [code, List.append_assoc, List.cons_append, List.singleton_append]
    refine Spill.atEach_loadCode loads ascending (fun r inside => mem_liveRow_cons.mpr (Or.inl ?_))
      ⟨fun d dest _ => ?_, fun d dest _ => ?_, done⟩
    · rw [Instr.uses_mapDest]
      exact Spill.fresh_mem_uses inside
    · rw [Instr.dest?_mapDest, Spill.dest?_renamed, writes] at dest
      cases dest
      exact Or.inl (.read List.mem_cons_self)
    · cases dest

theorem needed_instrsCode {b : BlockId} {next : Nat} {row : List Instr} (low : f.nextTemp ≤ next)
    (below : ∀ i ∈ row, ∀ u ∈ i.temps, u < f.nextTemp)
    (needed : AtEach (f.Needed l.addressTaken b) row) :
    AtEach (g.Needed m.addressTaken b) (Spill.instrsCode slots next row).1 := by
  induction row generalizing next with
  | nil => trivial
  | cons i rest ih =>
    have under : ∀ j ∈ rest, ∀ u ∈ j.temps, u < f.nextTemp := fun j inside =>
      below j (List.mem_cons_of_mem i inside)
    exact spills.needed_instrCode wf run again low under needed.1
      (ih (Nat.le_trans low (Spill.next_le_free slots next i)) under needed.2)

/-- Spilling makes nothing dead. -/
theorem lively (lively : f.Lively l) : g.Lively m := by
  rw [Func.lively_iff (spills.wellFormed wf).edgesInside again, spills.reachable_eq]
  intro b reach image place
  obtain ⟨block, found, first, low, _, rfl⟩ := spills.origin place
  exact spills.needed_instrsCode wf run again low (wf.block_temps_lt found)
    ((Func.lively_iff wf.edgesInside run).mp lively b reach block found)

end Func.Spills

end RegisterColoring
