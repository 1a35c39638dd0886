import RegisterColoring.Proofs.Clusters
import RegisterColoring.Proofs.Completeness
import RegisterColoring.Proofs.Trails

namespace RegisterColoring

/-- An entry of two lists in a row stands in the first or in the second. -/
theorem append_eq_split {α : Type} {first second pre rest : List α} {x : α}
    (same : first ++ second = pre ++ x :: rest) :
    (∃ back, first = pre ++ x :: back ∧ rest = back ++ second) ∨
      ∃ front, pre = first ++ front ∧ second = front ++ x :: rest := by
  rcases List.append_eq_append_iff.mp same with ⟨front, early, late⟩ | ⟨back, early, late⟩
  · exact Or.inr ⟨front, early, late⟩
  · cases back with
    | nil =>
      rw [List.append_nil] at early
      exact Or.inr ⟨[], by rw [early, List.append_nil], late.symm⟩
    | cons y back =>
      obtain ⟨rfl, tail⟩ := List.cons.inj late
      exact Or.inl ⟨back, early, tail⟩

variable {temps : IndexSet} {front rest : List Instr} {t u : Temp}

theorem mem_liveRow_append : t ∈ liveRow (front ++ rest) ∅ ↔
    t ∈ liveRow front ∅ ∨ t ∈ liveRow rest ∅ ∧ ∀ i ∈ front, i.dest? ≠ some t := by
  unfold liveRow
  rw [List.foldr_append]
  exact mem_liveRow

theorem used_of_liveRow (live : t ∈ liveRow rest ∅) : ∃ i ∈ rest, t ∈ i.uses := by
  induction rest with
  | nil => exact absurd live (IndexSet.not_mem_empty t)
  | cons i rest ih =>
    rcases mem_liveRow_cons.mp live with used | ⟨_, later⟩
    · exact ⟨i, List.mem_cons_self, used⟩
    · obtain ⟨j, inside, used⟩ := ih later
      exact ⟨j, List.mem_cons_of_mem _ inside, used⟩

theorem not_mem_liveRow_of_unnamed (unnamed : ∀ i ∈ rest, t ∉ i.temps) : t ∉ liveRow rest ∅ := by
  intro live
  obtain ⟨i, inside, used⟩ := used_of_liveRow live
  exact unnamed i inside (Instr.mem_temps.mpr (Or.inr used))

/-- A row that does not name a temp changes nothing for it. -/
theorem mem_liveRow_unnamed (unnamed : ∀ i ∈ front, t ∉ i.temps) :
    t ∈ liveRow (front ++ rest) ∅ ↔ t ∈ liveRow rest ∅ := by
  rw [mem_liveRow_append, or_iff_right (not_mem_liveRow_of_unnamed unnamed)]
  exact and_iff_left fun i inside writes => unnamed i inside (Instr.mem_temps.mpr (Or.inl writes))

/-- Reloads read nothing. -/
theorem Instr.IsReload.uses {i : Instr} (reload : i.IsReload temps) : i.uses = [] := by
  obtain ⟨d, _, slot, rfl⟩ := reload
  rfl

theorem liveRow_of_reloads (loads : ∀ i ∈ front, i.IsReload temps)
    (live : t ∈ liveRow (front ++ rest) ∅) : t ∈ liveRow rest ∅ := by
  rcases mem_liveRow_append.mp live with early | ⟨late, _⟩
  · obtain ⟨i, inside, used⟩ := used_of_liveRow early
    rw [(loads i inside).uses] at used
    exact absurd used List.not_mem_nil
  · exact late

/-- `t` is live in block `b` in front of `rest`, or its address is taken. -/
def Func.Alive (f : Func) (l : Liveness) (t : Temp) (b : BlockId) (rest : List Instr) : Prop :=
  f.LiveAt t b rest ∨ t ∈ l.addressTaken

theorem Func.Alive.of_reloads {f : Func} {l : Liveness} {b : BlockId}
    (loads : ∀ i ∈ front, i.IsReload temps) (alive : f.Alive l t b (front ++ rest)) :
    f.Alive l t b rest := by
  refine alive.imp_left fun live => ?_
  induction front with
  | nil => exact live
  | cons i front ih =>
    have none := (loads i List.mem_cons_self).uses
    cases live with
    | read used =>
      rw [none] at used
      exact absurd used List.not_mem_nil
    | pass _ later =>
      exact ih (fun j inside => loads j (List.mem_cons_of_mem _ inside)) (Or.inl later) later

/-- Behind some instruction that can be reached `u` is live, and `t` is read further down in its
block. -/
def Func.Beside (f : Func) (l : Liveness) (t u : Temp) : Prop :=
  ∃ (c : BlockId) (block : Block) (before : List Instr) (i : Instr) (behind : List Instr),
    c ∈ f.reachable ∧ f.blocks[c]? = some block ∧ block.instrs = before ++ i :: behind ∧
      t ∈ liveRow behind ∅ ∧ f.Alive l u c behind

/-- What does not write `t` is the last instruction of a core. -/
theorem Core.split {back : List Instr} {i : Instr} (shape : Core t (front ++ i :: back)) :
    i.dest? ≠ some t ∧ back = [] ∨
      ∃ slot, front = [] ∧ i.dest? = some t ∧ back = [.spillStore slot t] := by
  generalize whole : front ++ i :: back = row at shape
  cases shape with
  | gone => exact absurd whole (by simp)
  | plain other =>
    cases front with
    | nil =>
      obtain ⟨rfl, rfl⟩ := List.cons.inj whole
      exact Or.inl ⟨other, rfl⟩
    | cons j front => exact absurd (List.cons.inj whole).2 (by simp)
  | @stored j slot writes =>
    cases front with
    | nil =>
      obtain ⟨rfl, rfl⟩ := List.cons.inj whole
      exact Or.inr ⟨slot, rfl, writes, rfl⟩
    | cons k front =>
      have tail := (List.cons.inj whole).2
      cases front with
      | nil =>
        obtain ⟨rfl, rfl⟩ := List.cons.inj tail
        exact Or.inl ⟨nofun, rfl⟩
      | cons m front => exact absurd (List.cons.inj tail).2 (by simp)

namespace Func.Cluster

variable {f : Func} {l : Liveness} {b c : BlockId} {block : Block}
  {pre loads core post before behind : List Instr} {i : Instr}

/-- What names the temp, or has it live behind itself, belongs to the loads or to the core. -/
theorem place (cluster : f.Cluster t b pre loads core post) (found : f.blocks[c]? = some block)
    (split : block.instrs = before ++ i :: behind) (inside : t ∉ liveRow block.instrs ∅)
    (near : t ∈ i.temps ∨ t ∈ liveRow behind ∅) :
    c = b ∧ ((∃ front back, loads = front ++ i :: back ∧ behind = back ++ (core ++ post)) ∨
      ∃ front back, core = front ++ i :: back ∧ behind = back ++ post) := by
  have named : ∀ row : List Instr, (∀ j ∈ i :: behind, j ∈ row) → ¬ ∀ j ∈ row, t ∉ j.temps := by
    intro row subset unnamed
    rcases near with here | live
    · exact unnamed i (subset i List.mem_cons_self) here
    · exact not_mem_liveRow_of_unnamed
        (fun j later => unnamed j (subset j (List.mem_cons_of_mem _ later))) live
  have same : c = b := by
    by_contra other
    refine named block.instrs (fun j member => ?_) (cluster.elsewhere c other block found)
    rw [split]
    exact List.mem_append_right _ member
  subst same
  obtain ⟨_, again, whole⟩ := cluster.found
  cases Option.some.inj (found.symm.trans again)
  refine ⟨rfl, ?_⟩
  rcases append_eq_split (whole.symm.trans split) with ⟨back, early, late⟩ | ⟨front, _, split⟩
  -- In front of the cluster it could only be live if it were live where the block starts.
  · have unnamed := cluster.before
    rw [early] at unnamed
    refine absurd ?_ inside
    rw [whole, mem_liveRow_unnamed cluster.before]
    rcases near with here | live
    · exact absurd here (unnamed i (List.mem_append_right _ List.mem_cons_self))
    · rw [late] at live
      exact (mem_liveRow_unnamed fun j member => unnamed j
        (List.mem_append_right _ (List.mem_cons_of_mem _ member))).mp live
  · rcases append_eq_split split with ⟨back, early, late⟩ | ⟨front, _, split⟩
    · exact Or.inl ⟨front, back, early, late⟩
    · rcases append_eq_split split with ⟨back, early, late⟩ | ⟨front, _, split⟩
      · exact Or.inr ⟨front, back, early, late⟩
      · refine absurd cluster.behind (named post fun j member => ?_)
        rw [split]
        exact List.mem_append_right _ member

/-- A temp of spill code is live behind a load of its cluster, or between the instruction that
writes it and the store. -/
theorem live_cases (cluster : f.Cluster t b pre loads core post) (found : f.blocks[c]? = some block)
    (split : block.instrs = before ++ i :: behind) (inside : t ∉ liveRow block.instrs ∅)
    (live : t ∈ liveRow behind ∅) :
    c = b ∧ ((∃ front back, loads = front ++ i :: back ∧ behind = back ++ (core ++ post)) ∨
      ∃ slot, core = [i, .spillStore slot t] ∧ i.dest? = some t ∧
        behind = .spillStore slot t :: post) := by
  obtain ⟨same, load | ⟨front, back, early, late⟩⟩ := cluster.place found split inside (Or.inr live)
  · exact ⟨same, Or.inl load⟩
  · refine ⟨same, Or.inr ?_⟩
    have shape := cluster.core
    rw [early] at shape ⊢
    rcases shape.split with ⟨_, rfl⟩ | ⟨slot, rfl, writes, rfl⟩
    · rw [late] at live
      exact absurd live (not_mem_liveRow_of_unnamed cluster.behind)
    · exact ⟨slot, rfl, writes, late⟩

/-- Every load of a cluster is read. -/
theorem live_of_load (cluster : f.Cluster t b pre loads core post) (served : f.Served)
    (found : f.blocks[c]? = some block) (split : block.instrs = before ++ i :: behind)
    (load : i ∈ loads) (writes : i.dest? = some u) : u ∈ liveRow behind ∅ := by
  have read := served block (List.mem_of_getElem? found)
  rw [split] at read
  obtain ⟨d, spill, slot, rfl⟩ := cluster.loads i load
  cases writes
  exact read.split u spill slot rfl

/-- Behind every instruction that writes it a temp of spill code is live. -/
theorem live_of_write (cluster : f.Cluster t b pre loads core post) (served : f.Served)
    (found : f.blocks[c]? = some block) (split : block.instrs = before ++ i :: behind)
    (inside : t ∉ liveRow block.instrs ∅) (writes : i.dest? = some t) : t ∈ liveRow behind ∅ := by
  obtain ⟨_, ⟨front, back, early, _⟩ | ⟨front, back, early, late⟩⟩ :=
    cluster.place found split inside (Or.inl (Instr.mem_temps.mpr (Or.inl writes)))
  · refine cluster.live_of_load served found split ?_ writes
    rw [early]
    exact List.mem_append_right _ List.mem_cons_self
  · have shape := cluster.core
    rw [early] at shape
    rcases shape.split with ⟨other, _⟩ | ⟨slot, _, _, rfl⟩
    · exact absurd writes other
    · rw [late]
      exact mem_liveRow_spillStore.mpr (Or.inl rfl)

section

variable {graph : Interference} {bound colors : Nat}
  (cluster : f.Cluster t b pre loads core post) (roomy : f.Roomy colors) (served : f.Served)
  (wf : f.WellFormed) (run : Liveness.analyze bound f = .ok l) (spill : t ∈ f.spillTemps)
include cluster roomy served wf run spill

/-- Where a temp of spill code is written while another is live, it is live too. -/
theorem beside_of_meets (notParam : t ∉ f.params) (meets : Interference.Meets f l t u) :
    f.Beside l t u := by
  rcases meets with ⟨param | early, _⟩ | ⟨⟨i, after⟩, point, writes, live, _⟩
  · exact absurd (List.mem_of_mem_filter param) notParam
  · exact absurd early (roomy.not_mem_liveIn wf run spill)
  · obtain ⟨c, block, before, behind, reach, found, split, rfl⟩ := Liveness.mem_points.mp point
    rw [Liveness.reachable_of_analyze run] at reach
    have inside := roomy.inside block (List.mem_of_getElem? found) t spill
    have alive := (Liveness.mem_liveAfter wf.edgesInside run reach found split).mp live
    exact ⟨c, block, before, i, behind, reach, found, split,
      cluster.live_of_write served found split inside writes, alive⟩

/-- What is written while a temp of spill code is live is a load of its cluster. -/
theorem beside_of_met (other : t ≠ u) (meets : Interference.Meets f l u t) : f.Beside l t u := by
  rcases meets with ⟨_, early⟩ | ⟨⟨i, after⟩, point, writes, live, _⟩
  · exact absurd early (roomy.not_mem_liveIn wf run spill)
  · obtain ⟨c, block, before, behind, reach, found, split, rfl⟩ := Liveness.mem_points.mp point
    rw [Liveness.reachable_of_analyze run] at reach
    have inside := roomy.inside block (List.mem_of_getElem? found) t spill
    have later := roomy.liveRow_of_liveAfter wf run reach found split spill live
    refine ⟨c, block, before, i, behind, reach, found, split, later, Or.inl (.of_liveRow ?_)⟩
    obtain ⟨_, ⟨front, back, early, _⟩ | ⟨slot, _, same, _⟩⟩ :=
      cluster.live_cases found split inside later
    · refine cluster.live_of_load served found split ?_ writes
      rw [early]
      exact List.mem_append_right _ List.mem_cons_self
    · exact absurd (Option.some.inj (same.symm.trans writes)) other

variable (represents : graph.Represents f l) (notParam : t ∉ f.params)
include represents notParam

/-- A neighbor is live in front of the core together with the temp, or between the instruction that
writes the temp and the store. -/
theorem neighbor (edge : graph.interferes t u = true) :
    u ≠ t ∧ b ∈ f.reachable ∧
      (t ∈ liveRow (core ++ post) ∅ ∧ f.Alive l u b (core ++ post) ∨
        ∃ i slot, core = [i, .spillStore slot t] ∧ i.dest? = some t ∧
          f.Alive l u b (.spillStore slot t :: post)) := by
  obtain ⟨other, meets⟩ := (represents.edges t u).mp edge
  obtain ⟨c, block, before, i, behind, reach, found, split, live, alive⟩ : f.Beside l t u :=
    meets.elim (cluster.beside_of_meets roomy served wf run spill notParam)
      (cluster.beside_of_met roomy served wf run spill other)
  have inside := roomy.inside block (List.mem_of_getElem? found) t spill
  obtain ⟨rfl, ⟨front, back, early, rfl⟩ | ⟨slot, shape, writes, rfl⟩⟩ :=
    cluster.live_cases found split inside live
  · have reloads : ∀ j ∈ back, j.IsReload f.spillTemps := by
      intro j member
      refine cluster.loads j ?_
      rw [early]
      exact List.mem_append_right _ (List.mem_cons_of_mem _ member)
    exact ⟨other.symm, reach, Or.inl ⟨liveRow_of_reloads reloads live, alive.of_reloads reloads⟩⟩
  · exact ⟨other.symm, reach, Or.inr ⟨i, slot, shape, writes, alive⟩⟩

/-- There is one point at which a temp of spill code and all its neighbors are live. -/
theorem together {v : Temp} (first : graph.interferes t v = true) :
    b ∈ f.reachable ∧ ∃ k i, f.instrAt b k = some i ∧ t ∈ l.liveAfter b k ∧
      ∀ u, graph.interferes t u = true → u ∈ l.liveAfter b k := by
  obtain ⟨block, found, whole⟩ := cluster.found
  have near := fun u edge =>
    cluster.neighbor (u := u) roomy served wf run spill represents notParam edge
  obtain ⟨_, reach, sides⟩ := near v first
  have liveAfter : ∀ {before behind : List Instr} {i : Instr} {u : Temp},
      block.instrs = before ++ i :: behind → f.Alive l u b behind → u ∈ l.liveAfter b before.length :=
    fun split alive => (Liveness.mem_liveAfter wf.edgesInside run reach found split).mpr alive
  have instrAt : ∀ {before behind : List Instr} {i : Instr},
      block.instrs = before ++ i :: behind → f.instrAt b before.length = some i := by
    intro before behind i split
    rw [instrAt_of_found found, split]
    simp
  refine ⟨reach, ?_⟩
  by_cases exposed : t ∈ liveRow (core ++ post) ∅
  -- The temp is read by the core, so the point is in front of it.
  · have nonempty : pre ++ loads ≠ [] := by
      intro none
      refine roomy.inside block (List.mem_of_getElem? found) t spill ?_
      rw [whole, ← List.append_assoc, none]
      exact exposed
    obtain ⟨init, last, ends⟩ := (List.eq_nil_or_concat' (pre ++ loads)).resolve_left nonempty
    have split : block.instrs = init ++ last :: (core ++ post) := by
      rw [whole, ← List.append_assoc, ends, List.append_assoc]
      rfl
    refine ⟨init.length, last, instrAt split, liveAfter split (Or.inl (.of_liveRow exposed)),
      fun u edge => liveAfter split ?_⟩
    obtain ⟨other, _, ⟨_, alive⟩ | ⟨i, slot, shape, writes, alive⟩⟩ := near u edge
    · exact alive
    · rw [shape]
      refine alive.imp_left (.pass fun same => other ?_)
      exact Option.some.inj (same.symm.trans writes)
  -- The core writes it without reading it, so the point is behind the instruction.
  · rcases sides with ⟨live, _⟩ | ⟨i, slot, shape, writes, _⟩
    · exact absurd live exposed
    · have split : block.instrs = (pre ++ loads) ++ i :: (.spillStore slot t :: post) := by
        rw [whole, shape, List.append_assoc]
        rfl
      have stored : f.Alive l t b (.spillStore slot t :: post) :=
        Or.inl (.read (List.mem_singleton_self t))
      refine ⟨(pre ++ loads).length, i, instrAt split, liveAfter split stored,
        fun u edge => liveAfter split ?_⟩
      obtain ⟨_, _, ⟨live, _⟩ | ⟨j, other, again, _, alive⟩⟩ := near u edge
      · exact absurd live exposed
      · cases shape.symm.trans again
        exact alive

end

end Func.Cluster

end RegisterColoring
