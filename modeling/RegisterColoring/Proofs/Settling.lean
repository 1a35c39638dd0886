import RegisterColoring.Proofs.InterferenceGraph

namespace RegisterColoring

/-- What a change of one entry does to the length of all rows together. -/
theorem length_flatMap_set {α β : Type} (row : α → List β) {l : List α} {n : Nat} {x : α}
    (found : l[n]? = some x) (y : α) :
    ((l.set n y).flatMap row).length + (row x).length =
      (l.flatMap row).length + (row y).length := by
  induction l generalizing n with
  | nil => cases found
  | cons first rest ih =>
    cases n with
    | zero =>
      obtain rfl : first = x := Option.some.inj found
      simp only [List.set_cons_zero, List.flatMap_cons, List.length_append]
      omega
    | succ n =>
      have later := ih found
      simp only [List.set_cons_succ, List.flatMap_cons, List.length_append]
      omega

/-- The number of temps in the sets at the starts of the blocks. -/
def FlowSets.total (sets : FlowSets) : Nat := (sets.atStart.flatMap (·.toList)).length

namespace Func

variable {f : Func} {sets : FlowSets}

/-- A visit does not make the sets smaller, and it makes them larger if it records a change. -/
theorem Growing.total_visit (growing : f.Growing sets) (b : BlockId) :
    sets.total ≤ (visitBlock (f.blocks.map Block.transfer) sets b).total ∧
      ((visitBlock (f.blocks.map Block.transfer) sets b).changed = true → sets.changed = true ∨
        sets.total < (visitBlock (f.blocks.map Block.transfer) sets b).total) := by
  rw [growing.visitBlock_eq b]
  have more := IndexSet.size_le_size (growing.below b)
  by_cases inside : b < sets.atStart.length
  · have found : sets.atStart[b]? = some (sets.atStart.getD b ∅) := by
      rw [List.getD_eq_getElem?_getD, List.getElem?_eq_getElem inside, Option.getD_some]
    have count := length_flatMap_set (·.toList) found (f.flowIn sets.atStart b)
    simp only [IndexSet.size] at more
    simp only [FlowSets.total]
    refine ⟨by omega, fun changed => ?_⟩
    rcases Bool.or_eq_true_iff.mp changed with before | differs
    · exact .inl before
    · have larger : (sets.atStart.getD b ∅).size ≠ (f.flowIn sets.atStart b).size := fun same =>
        of_decide_eq_true differs (IndexSet.eq_of_size_eq (growing.below b) same.symm)
      simp only [IndexSet.size] at larger
      exact .inr (by omega)
  · have outside : f.blocks[b]? = none := by
      rw [List.getElem?_eq_none_iff, ← growing.starts]
      exact Nat.not_lt.mp inside
    have same : sets.atStart.getD b ∅ = f.flowIn sets.atStart b := by
      rw [List.getD_eq_getElem?_getD, List.getElem?_eq_none (Nat.not_lt.mp inside)]
      simp only [flowIn, outside, Option.getD_none]
    simp only [← same, set_getD_self, ne_eq, not_true_eq_false, decide_false, Bool.or_false]
    exact ⟨Nat.le_refl _, .inl⟩

theorem Growing.total_visits (growing : f.Growing sets) (order : List BlockId) :
    sets.total ≤ (order.foldl (visitBlock (f.blocks.map Block.transfer)) sets).total ∧
      ((order.foldl (visitBlock (f.blocks.map Block.transfer)) sets).changed = true →
        sets.changed = true ∨
          sets.total < (order.foldl (visitBlock (f.blocks.map Block.transfer)) sets).total) := by
  induction order generalizing sets with
  | nil => exact ⟨Nat.le_refl _, .inl⟩
  | cons b rest ih =>
    obtain ⟨most, grows⟩ := growing.total_visit b
    obtain ⟨later, growsLater⟩ := ih (growing.visit b)
    rw [List.foldl_cons]
    refine ⟨Nat.le_trans most later, fun changed => ?_⟩
    rcases growsLater changed with here | above
    · exact (grows here).imp_right fun above => Nat.lt_of_lt_of_le above later
    · exact .inr (Nat.lt_of_le_of_lt most above)

/-- A sweep that changes something makes the sets larger. -/
theorem Growing.total_sweep (growing : f.Growing sets) {order : List BlockId}
    (changed : (RegisterColoring.sweep (f.blocks.map Block.transfer) order sets).changed = true) :
    sets.total < (RegisterColoring.sweep (f.blocks.map Block.transfer) order sets).total := by
  rw [sweep_def] at changed ⊢
  exact ((growing.restart.total_visits order).2 changed).resolve_left Bool.false_ne_true

/-- The sets hold only temps of the function. -/
theorem Growing.total_le (growing : f.Growing sets) :
    sets.total ≤ f.blocks.length * f.allTemps.size := by
  have rows : ∀ live : List IndexSet, (∀ s ∈ live, s.size ≤ f.allTemps.size) →
      (live.flatMap (·.toList)).length ≤ live.length * f.allTemps.size := by
    intro live
    induction live with
    | nil => exact fun _ => Nat.zero_le _
    | cons s rest ih =>
      intro small
      obtain ⟨here, later⟩ := List.forall_mem_cons.mp small
      have most := ih later
      rw [List.flatMap_cons, List.length_append, List.length_cons, Nat.succ_mul]
      simp only [IndexSet.size] at here most ⊢
      omega
  rw [← growing.starts]
  refine rows _ fun s member => IndexSet.size_le_size fun t inside => ?_
  obtain ⟨b, place⟩ := List.mem_iff_getElem?.mp member
  obtain ⟨block, found, live⟩ := growing.exact b t (by
    rw [List.getD_eq_getElem?_getD, place, Option.getD_some]
    exact inside)
  obtain ⟨i, named, used⟩ := live.used fun i here => mem_instrs.mpr ⟨b, block, found, here⟩
  exact mem_allTemps.mpr (.inr (.inr ⟨i, named, Instr.mem_temps.mpr (.inr used)⟩))

end Func

/-- Steps that enlarge something bounded for every change come to an end. -/
theorem settle_isSome {step : FlowSets → FlowSets} {P : FlowSets → Prop} (size : FlowSets → Nat)
    {most : Nat} (preserved : ∀ sets, P sets → P (step sets))
    (grows : ∀ sets, P sets → (step sets).changed = true → size sets < size (step sets))
    (bounded : ∀ sets, P sets → size sets ≤ most) {bound : Nat} (passes : Nat) {start : FlowSets}
    (first : P start) (room : most < size start + bound) :
    ∃ result, settle step bound passes start = some result := by
  induction bound generalizing passes start with
  | zero => exact absurd room (Nat.not_lt.mpr (bounded start first))
  | succ bound ih =>
    rw [settle_succ]
    split
    · rename_i changed
      have larger := grows start first changed
      exact ih _ (preserved start first) (by omega)
    · exact ⟨_, rfl⟩

/-- With more sweeps than there are pairs of a block and a temp, liveness has a result. -/
theorem Liveness.analyze_isOk {f : Func} {bound : Nat}
    (room : f.blocks.length * f.allTemps.size < bound) : ∃ l, analyze bound f = .ok l := by
  obtain ⟨result, run⟩ := settle_isSome (P := f.Growing) FlowSets.total
    (fun sets growing => growing.sweep f.postorder)
    (fun sets growing changed => growing.total_sweep changed)
    (fun sets growing => growing.total_le) 0 f.growing_start
    (Nat.lt_of_lt_of_le room (Nat.le_add_left bound _))
  exact ⟨_, analyze_of_some run⟩

end RegisterColoring
