import RegisterColoring.Proofs.Convergence
import RegisterColoring.Proofs.SpillRanges

namespace RegisterColoring

theorem exists_uses_of_mem_liveRow {row : List Instr} {t : Temp} (live : t ∈ liveRow row ∅) :
    ∃ i ∈ row, t ∈ i.uses := by
  induction row with
  | nil => exact absurd live (IndexSet.not_mem_empty t)
  | cons i rest ih =>
    rcases mem_liveRow_cons.mp live with used | ⟨_, later⟩
    · exact ⟨i, List.mem_cons_self, used⟩
    · obtain ⟨j, inside, used⟩ := ih later
      exact ⟨j, List.mem_cons_of_mem i inside, used⟩

namespace Spill

variable {slots : IndexMap Slot} {low next : Nat} {row : List Instr} {i : Instr} {t : Nat}

/-- What spill code reads first is what the row read first, apart from spilled temps. -/
theorem mem_liveRow_instrsCode_iff (le : low ≤ next) (below : ∀ i ∈ row, ∀ u ∈ i.temps, u < low) :
    t ∈ liveRow (instrsCode slots next row).1 ∅ ↔ t ∈ liveRow row ∅ ∧ slots.get? t = none := by
  constructor
  · intro live
    obtain ⟨j, member, used⟩ := exists_uses_of_mem_liveRow live
    obtain ⟨i, inside, first, above, here, _⟩ := mem_instrsCode member
    rcases temps_instrCode here (Instr.mem_temps.mpr (Or.inr used)) with
      ⟨named, absent⟩ | ⟨fresh, _⟩
    · exact ⟨(mem_liveRow_instrsCode (below i inside t named) le absent).mp live, absent⟩
    · have high := Nat.le_trans le (Nat.le_trans above fresh)
      exact absurd live (not_mem_liveRow_instrsCode high below)
  · rintro ⟨live, absent⟩
    obtain ⟨i, inside, used⟩ := exists_uses_of_mem_liveRow live
    have lt := below i inside t (Instr.mem_temps.mpr (Or.inr used))
    exact (mem_liveRow_instrsCode lt le absent).mpr live

theorem dest?_instrCode (lt : t < next) (absent : slots.get? t = none) :
    (∀ j ∈ (instrCode slots next i).1, j.dest? ≠ some t) ↔ i.dest? ≠ some t := by
  have loads : ∀ j ∈ loadCode (loadsOf slots next i), j.dest? ≠ some t := by
    intro j load writes
    obtain ⟨r, inside, rfl⟩ := mem_loadCode.mp load
    cases writes
    exact absurd (fresh_lt inside).1 (Nat.not_le_of_lt lt)
  rcases instrCode_cases slots next i with
    ⟨_, code⟩ | ⟨d, slot, x, free, writes, stored, code, origin⟩
  · rw [code, List.forall_mem_append, and_iff_right loads, List.forall_mem_singleton, dest?_renamed]
  · have other : i.dest? ≠ some t := by
      rw [writes]
      rintro same
      cases same
      cases absent.symm.trans stored
    have fresh : x ≠ t := Nat.ne_of_gt (Nat.lt_of_lt_of_le lt (le_store origin))
    refine iff_of_true ?_ other
    rw [code, List.forall_mem_append, List.forall_mem_cons, List.forall_mem_singleton,
      Instr.dest?_mapDest, dest?_renamed, writes]
    exact ⟨loads, fun same => fresh (Option.some.inj same), fun same => by cases same⟩

/-- Spill code writes the same temps, apart from spilled and fresh ones. -/
theorem dest?_instrsCode (lt : t < next) (absent : slots.get? t = none) :
    (∀ j ∈ (instrsCode slots next row).1, j.dest? ≠ some t) ↔ ∀ i ∈ row, i.dest? ≠ some t := by
  induction row generalizing next with
  | nil => simp [instrsCode_nil]
  | cons i rest ih =>
    rw [instrsCode_cons, List.forall_mem_append, List.forall_mem_cons, dest?_instrCode lt absent,
      ih (Nat.lt_of_lt_of_le lt (next_le_free slots next i))]

theorem addressTaken?_renamed (next : Nat) (absent : slots.get? t = none)
    (taken : i.addressTaken? = some t) : (renamed slots next i).addressTaken? = some t := by
  rcases redirect_cases slots i with ⟨plain, _⟩ | ⟨d, v, slot, rfl, stored, _⟩
  · rw [← plain] at taken
    rw [renamed, Instr.addressTaken?_mapUses, taken]
    rcases standIn_eq next (Instr.mem_uses_of_addressTaken taken) with
      ⟨_, same⟩ | ⟨r, inside, same, _⟩
    · exact congrArg some same
    · rw [← same, (mem_reloads inside).2.1] at absent
      cases absent
  · cases taken
    cases absent.symm.trans stored

theorem exists_addressTaken?_instrCode (next : Nat) (absent : slots.get? t = none)
    (taken : i.addressTaken? = some t) :
    ∃ j ∈ (instrCode slots next i).1, j.addressTaken? = some t := by
  have core := addressTaken?_renamed next absent taken
  rcases instrCode_cases slots next i with ⟨_, code⟩ | ⟨_, slot, x, _, _, _, code, _⟩
  · rw [code]
    exact ⟨_, List.mem_append_right _ List.mem_cons_self, core⟩
  · rw [code]
    exact ⟨_, List.mem_append_right _ List.mem_cons_self,
      (Instr.addressTaken?_mapDest _ _).trans core⟩

/-- Spill code takes the same addresses, apart from those of spilled temps. -/
theorem addressTaken?_instrsCode (le : low ≤ next) (below : ∀ i ∈ row, ∀ u ∈ i.temps, u < low) :
    (∃ j ∈ (instrsCode slots next row).1, j.addressTaken? = some t) ↔
      (∃ i ∈ row, i.addressTaken? = some t) ∧ slots.get? t = none := by
  have named : ∀ j : Instr, j.addressTaken? = some t → t ∈ j.temps := fun j taken =>
    Instr.mem_temps.mpr (Or.inr (Instr.mem_uses_of_addressTaken taken))
  constructor
  · rintro ⟨j, member, taken⟩
    obtain ⟨i, inside, first, above, here, _⟩ := mem_instrsCode member
    have before := addressTaken?_instrCode here taken
    refine ⟨⟨i, inside, before⟩, ?_⟩
    rcases temps_instrCode here (named j taken) with ⟨_, absent⟩ | ⟨fresh, _⟩
    · exact absent
    · have high := Nat.le_trans le (Nat.le_trans above fresh)
      exact absurd high (Nat.not_le_of_lt (below i inside t (named i before)))
  · rintro ⟨⟨i, inside, taken⟩, absent⟩
    obtain ⟨pre, rest, rfl⟩ := List.append_of_mem inside
    obtain ⟨j, member, same⟩ :=
      exists_addressTaken?_instrCode (instrsCode slots next pre).2 absent taken
    rw [instrsCode_append, instrsCode_cons]
    exact ⟨j, List.mem_append_right _ (List.mem_append_left _ member), same⟩

end Spill

namespace Func

variable {f g : Func} {t : Temp} {b : BlockId} {row : List Instr}

theorem LiveAt.of_kept (kept : ∀ i ∈ row, i.dest? ≠ some t) (live : f.LiveAt t b []) :
    f.LiveAt t b row := by
  induction row with
  | nil => exact live
  | cons i rest ih =>
    obtain ⟨first, later⟩ := List.forall_mem_cons.mp kept
    exact .pass first (ih later)

theorem Carries.liveAt {path : List BlockId} (carries : f.Carries t path) :
    ∀ b, path.head? = some b → ∃ block, f.blocks[b]? = some block ∧ f.LiveAt t b block.instrs := by
  induction carries with
  | @reads b block found live =>
    intro c same
    cases same
    exact ⟨block, found, .of_liveRow live⟩
  | @passes b s block rest found kept edge _ ih =>
    intro c same
    cases same
    obtain ⟨next, there, live⟩ := ih s rfl
    exact ⟨block, found, .of_kept kept (.edge edge there live)⟩

/-- A temp is live in front of a row if the row reads it first, or leaves it alone and a path
carries it from behind. -/
theorem liveAt_iff : f.LiveAt t b row ↔ t ∈ liveRow row ∅ ∨
    (∀ i ∈ row, i.dest? ≠ some t) ∧ ∃ s ∈ f.succs b, ∃ rest, f.Carries t (s :: rest) := by
  refine ⟨LiveAt.row_or_carries, ?_⟩
  rintro (read | ⟨kept, s, edge, rest, carries⟩)
  · exact .of_liveRow read
  · obtain ⟨block, found, live⟩ := carries.liveAt s rfl
    exact .of_kept kept (.edge edge found live)

theorem Carries.lt {path : List BlockId} (carries : f.Carries t path) (wf : f.WellFormed) :
    t < f.nextTemp := by
  induction carries with
  | reads found live =>
    obtain ⟨i, inside, used⟩ := exists_uses_of_mem_liveRow live
    exact wf.temp_lt (mem_instrs.mpr ⟨_, _, found, inside⟩) (Instr.mem_temps.mpr (Or.inr used))
  | passes _ _ _ _ ih => exact ih

theorem WellFormed.block_temps_lt (wf : f.WellFormed) {block : Block}
    (found : f.blocks[b]? = some block) : ∀ i ∈ block.instrs, ∀ u ∈ i.temps, u < f.nextTemp :=
  fun _ inside _ named => wf.temp_lt (mem_instrs.mpr ⟨b, block, found, inside⟩) named

namespace Spills

variable {temps : List Temp} {slots : IndexMap Slot}

/-- Spill code carries what was carried before, apart from spilled temps. -/
theorem carries_iff (spills : f.Spills temps slots g) (wf : f.WellFormed) {path : List BlockId} :
    g.Carries t path ↔ f.Carries t path ∧ slots.get? t = none := by
  constructor
  · intro carries
    induction carries with
    | reads place live =>
      obtain ⟨block, found, first, low, _, rfl⟩ := spills.origin place
      obtain ⟨read, absent⟩ :=
        (Spill.mem_liveRow_instrsCode_iff low (wf.block_temps_lt found)).mp live
      exact ⟨.reads found read, absent⟩
    | passes place kept edge _ ih =>
      obtain ⟨block, found, first, low, _, rfl⟩ := spills.origin place
      obtain ⟨carries, absent⟩ := ih
      rw [spills.succs_eq] at edge
      have lt := Nat.lt_of_lt_of_le (carries.lt wf) low
      exact ⟨.passes found ((Spill.dest?_instrsCode lt absent).mp kept) edge carries, absent⟩
  · rintro ⟨carries, absent⟩
    induction carries with
    | reads found live =>
      obtain ⟨first, low, _, place⟩ := spills.place found
      exact .reads place
        ((Spill.mem_liveRow_instrsCode_iff low (wf.block_temps_lt found)).mpr ⟨live, absent⟩)
    | passes found kept edge later ih =>
      obtain ⟨first, low, _, place⟩ := spills.place found
      rw [← spills.succs_eq] at edge
      have lt := Nat.lt_of_lt_of_le (later.lt wf) low
      exact .passes place ((Spill.dest?_instrsCode lt absent).mpr kept) edge ih

/-- In front of the code for some instructions exactly the temps are live that were live in front of
the instructions, apart from spilled ones. -/
theorem liveAt_iff (spills : f.Spills temps slots g) (wf : f.WellFormed) {next : Nat}
    (low : f.nextTemp ≤ next) (below : ∀ i ∈ row, ∀ u ∈ i.temps, u < f.nextTemp) :
    g.LiveAt t b (Spill.instrsCode slots next row).1 ↔ f.LiveAt t b row ∧ slots.get? t = none := by
  rw [Func.liveAt_iff, Func.liveAt_iff, Spill.mem_liveRow_instrsCode_iff low below, spills.succs_eq,
    or_and_right]
  refine or_congr_right ?_
  constructor
  · rintro ⟨kept, s, edge, rest, carries⟩
    obtain ⟨carries, absent⟩ := (spills.carries_iff wf).mp carries
    have lt := Nat.lt_of_lt_of_le (carries.lt wf) low
    exact ⟨⟨(Spill.dest?_instrsCode lt absent).mp kept, s, edge, rest, carries⟩, absent⟩
  · rintro ⟨⟨kept, s, edge, rest, carries⟩, absent⟩
    have lt := Nat.lt_of_lt_of_le (carries.lt wf) low
    exact ⟨(Spill.dest?_instrsCode lt absent).mpr kept, s, edge, rest,
      (spills.carries_iff wf).mpr ⟨carries, absent⟩⟩

end Spills

end Func

/-- If two analyses run side by side and the second is quiet whenever the first one is, the second
settles within the same bound, and not later. -/
theorem settle_of_related {step : FlowSets → FlowSets} (other : FlowSets → FlowSets)
    (R : FlowSets → FlowSets → Prop) (next : ∀ s t, R s t → R (step s) (other t))
    (quiet : ∀ s t, R s t → s.changed = false → t.changed = false) {bound passes count : Nat}
    {s t sets : FlowSets} (related : R s t)
    (run : settle step bound passes s = some (sets, count)) :
    ∃ result k, settle other bound passes t = some (result, k) ∧ k ≤ count := by
  induction bound generalizing passes s t with
  | zero => cases run
  | succ bound ih =>
    have after := next s t related
    rw [settle_succ] at run ⊢
    split at run
    · split
      · exact ih after run
      · obtain ⟨k, later, _⟩ := settle_iterate run
        exact ⟨_, _, rfl, by omega⟩
    · rename_i same
      cases run
      rw [if_neg (by simpa using quiet _ _ after (by simpa using same))]
      exact ⟨_, _, rfl, Nat.le_refl _⟩

namespace Func

variable {f g : Func} {temps : List Temp} {slots : IndexMap Slot} {t : Temp} {b : BlockId}

/-- The sets on the right are those on the left without the spilled temps, and they have not changed
if those on the left have not. -/
structure Shadows (slots : IndexMap Slot) (sets shadow : FlowSets) : Prop where
  starts : ∀ b t, t ∈ shadow.atStart.getD b ∅ ↔ t ∈ sets.atStart.getD b ∅ ∧ slots.get? t = none
  quiet : sets.changed = false → shadow.changed = false

namespace Spills

variable {sets shadow : FlowSets}

/-- If the sets of the successors lose the spilled temps, so does what they ask for. -/
theorem mem_flowIn (spills : f.Spills temps slots g) (wf : f.WellFormed) (growing : f.Growing sets)
    (shadows : Shadows slots sets shadow) :
    t ∈ g.flowIn shadow.atStart b ↔ t ∈ f.flowIn sets.atStart b ∧ slots.get? t = none := by
  unfold flowIn
  cases found : f.blocks[b]? with
  | none =>
    have missing : g.blocks[b]? = none := by
      rw [List.getElem?_eq_none_iff, spills.length]
      exact List.getElem?_eq_none_iff.mp found
    simp only [missing, IndexSet.not_mem_empty, false_and]
  | some block =>
    obtain ⟨first, low, _, place⟩ := spills.place found
    have joined : t ∈ joinAt shadow.atStart block.succs ↔
        t ∈ joinAt sets.atStart block.succs ∧ slots.get? t = none := by
      simp only [mem_joinAt, shadows.starts]
      constructor
      · rintro ⟨s, edge, member, absent⟩
        exact ⟨⟨s, edge, member⟩, absent⟩
      · rintro ⟨⟨s, edge, member⟩, absent⟩
        exact ⟨s, edge, member, absent⟩
    have lt : t ∈ joinAt sets.atStart block.succs → t < first := by
      intro member
      obtain ⟨s, _, inside⟩ := mem_joinAt.mp member
      obtain ⟨next, there, live⟩ := growing.exact s t inside
      obtain ⟨_, carries⟩ := live.carries there
      exact Nat.lt_of_lt_of_le (carries.lt wf) low
    have before : t ∈ liveRow block.instrs (joinAt sets.atStart block.succs) ↔ _ := mem_liveRow
    simp only [place]
    rw [before, mem_liveRow, Spill.mem_liveRow_instrsCode_iff low (wf.block_temps_lt found), joined,
      or_and_right]
    refine or_congr_right ?_
    constructor
    · rintro ⟨⟨member, absent⟩, kept⟩
      exact ⟨⟨member, (Spill.dest?_instrsCode (lt member) absent).mp kept⟩, absent⟩
    · rintro ⟨⟨member, kept⟩, absent⟩
      exact ⟨⟨member, absent⟩, (Spill.dest?_instrsCode (lt member) absent).mpr kept⟩

theorem shadows_visit (spills : f.Spills temps slots g) (wf : f.WellFormed)
    (growing : f.Growing sets) (other : g.Growing shadow) (shadows : Shadows slots sets shadow)
    (b : BlockId) :
    Shadows slots (visitBlock (f.blocks.map Block.transfer) sets b)
      (visitBlock (g.blocks.map Block.transfer) shadow b) := by
  rw [growing.visitBlock_eq, other.visitBlock_eq]
  refine ⟨fun c t => ?_, fun same => ?_⟩
  · rw [getD_set, getD_set, growing.starts, other.starts, spills.length]
    split
    · exact spills.mem_flowIn wf growing shadows
    · exact shadows.starts c t
  · simp only [ne_eq, decide_not, Bool.or_eq_false_iff, Bool.not_eq_false',
      decide_eq_true_eq] at same ⊢
    refine ⟨shadows.quiet same.1, ?_⟩
    ext t
    rw [shadows.starts, spills.mem_flowIn wf growing shadows, same.2]

theorem shadows_visits (spills : f.Spills temps slots g) (wf : f.WellFormed)
    (growing : f.Growing sets) (other : g.Growing shadow) (shadows : Shadows slots sets shadow)
    (order : List BlockId) :
    Shadows slots (order.foldl (visitBlock (f.blocks.map Block.transfer)) sets)
      (order.foldl (visitBlock (g.blocks.map Block.transfer)) shadow) := by
  induction order generalizing sets shadow with
  | nil => exact shadows
  | cons b rest ih =>
    exact ih (growing.visit b) (other.visit b) (spills.shadows_visit wf growing other shadows b)

theorem shadows_start (spills : f.Spills temps slots g) :
    Shadows slots (.start f.blocks.length) (.start g.blocks.length) := by
  refine ⟨fun b t => ?_, fun _ => rfl⟩
  rw [spills.length]
  refine ⟨fun member => ?_, And.left⟩
  rw [FlowSets.start, List.getD_eq_getElem?_getD, List.getElem?_replicate] at member
  split at member
  · exact absurd member (IndexSet.not_mem_empty t)
  · exact absurd member (IndexSet.not_mem_empty t)

/-- The analysis of spill code settles within the same bound. -/
theorem analyze_ok (spills : f.Spills temps slots g) (wf : f.WellFormed) {bound : Nat}
    {l : Liveness} (run : Liveness.analyze bound f = .ok l) :
    ∃ m, Liveness.analyze bound g = .ok m ∧ m.passes ≤ l.passes := by
  have order : g.postorder = f.postorder := postorder_congr spills.length spills.succs_eq
  obtain ⟨sets, count, settled, rfl⟩ := Liveness.analyze_eq_ok.mp run
  obtain ⟨result, k, again, few⟩ := settle_of_related
    (sweep (g.blocks.map Block.transfer) f.postorder)
    (fun s t => f.Growing s ∧ g.Growing t ∧ Shadows slots s t)
    (fun s t related => ⟨related.1.sweep _, related.2.1.sweep _, by
      rw [sweep_def, sweep_def]
      exact spills.shadows_visits wf related.1.restart related.2.1.restart
        ⟨related.2.2.starts, fun _ => rfl⟩ f.postorder⟩)
    (fun s t related => related.2.2.quiet)
    ⟨f.growing_start, g.growing_start, spills.shadows_start⟩ settled
  rw [← order] at again
  exact ⟨_, Liveness.analyze_of_some again, few⟩

end Spills

end Func

end RegisterColoring
