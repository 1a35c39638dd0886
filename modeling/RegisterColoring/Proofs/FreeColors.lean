import Mathlib.Order.Bounds.Defs
import RegisterColoring.Coloring
import RegisterColoring.Proofs.InterferenceGraph

namespace RegisterColoring

namespace Heap

theorem mem_push {h : Heap} {x y : Nat} : y ∈ (h.push x).toList ↔ y = x ∨ y ∈ h.toList :=
  mem_insertSorted

theorem mem_ofList {l : List Nat} {x : Nat} : x ∈ (ofList l).toList ↔ x ∈ l := by
  have pushed : ∀ (l : List Nat) (h : Heap), x ∈ (l.foldl push h).toList ↔ x ∈ l ∨ x ∈ h.toList := by
    intro l
    induction l with
    | nil => simp
    | cons y rest ih =>
      intro h
      rw [List.foldl_cons, ih, mem_push, List.mem_cons]
      tauto
  rw [ofList, pushed]
  simp [empty]

theorem absentFrom_spec {l : List Nat} (sorted : l.Pairwise (· ≤ ·)) (i : Nat) :
    i ≤ (absentFrom i l).1 ∧ (absentFrom i l).1 ∉ l ∧
      ∀ k, i ≤ k → k < (absentFrom i l).1 → k ∈ l := by
  induction l generalizing i with
  | nil => exact ⟨Nat.le_refl i, List.not_mem_nil, fun k low high => absurd low (Nat.not_le.mpr high)⟩
  | cons x rest ih =>
    obtain ⟨above, tail⟩ := List.pairwise_cons.mp sorted
    unfold absentFrom
    split
    · rename_i below
      obtain ⟨low, absent, held⟩ := ih tail i
      refine ⟨low, fun member => ?_, fun k atLeast less => ?_⟩
      · rcases List.mem_cons.mp member with same | later
        · omega
        · exact absent later
      · exact List.mem_cons_of_mem _ (held k atLeast less)
    · split
      · rename_i same
        subst same
        obtain ⟨low, absent, held⟩ := ih tail (x + 1)
        refine ⟨by omega, fun member => ?_, fun k atLeast less => ?_⟩
        · rcases List.mem_cons.mp member with same | later
          · omega
          · exact absent later
        · rcases Nat.eq_or_lt_of_le atLeast with same | more
          · exact List.mem_cons.mpr (Or.inl same.symm)
          · exact List.mem_cons_of_mem _ (held k more less)
      · refine ⟨Nat.le_refl i, fun member => ?_, fun k low high => absurd low (Nat.not_le.mpr high)⟩
        rcases List.mem_cons.mp member with same | later
        · omega
        · have bound := above i later
          omega

end Heap

namespace Coloring

/-- The color tried for a temp is the smallest that none of its neighbors has. -/
theorem freeColor_isLeast {g : Interference} (valid : g.graph.Valid) {t : Temp} {id : Nat}
    (found : g.graph.id? t = some id) (colors : IndexMap Color) :
    IsLeast {k | ∀ u, g.interferes t u = true → colors.get? u ≠ some k} (freeColor g colors id) := by
  obtain ⟨l, _, stored, _, _, members⟩ := Graph.neighbors?_eq valid found
  have value : freeColor g colors id =
      (Heap.absentFrom 0 (Heap.ofList (l.filterMap colors.get?)).toList).1 := by
    rw [stored, freeColor_def, Graph.neighborsAt_def]
    rfl
  obtain ⟨_, absent, held⟩ := Heap.absentFrom_spec (Heap.ofList (l.filterMap colors.get?)).sorted 0
  rw [← value] at absent held
  constructor
  · intro u edge colored
    exact absent (Heap.mem_ofList.mpr (List.mem_filterMap.mpr ⟨u, (members u).mpr edge, colored⟩))
  · intro k free
    by_contra above
    have inside := Heap.mem_ofList.mp (held k (Nat.zero_le k) (Nat.not_le.mp above))
    obtain ⟨u, neighbor, colored⟩ := List.mem_filterMap.mp inside
    exact free u ((members u).mp neighbor) colored

/-- All smaller colors are those of neighbors. -/
theorem exists_colored_of_lt {g : Interference} (valid : g.graph.Valid) {t : Temp} {id : Nat}
    (found : g.graph.id? t = some id) {colors : IndexMap Color} {k : Color}
    (below : k < freeColor g colors id) :
    ∃ u, g.interferes t u = true ∧ colors.get? u = some k := by
  by_contra none
  refine Nat.not_le.mpr below ((freeColor_isLeast valid found colors).2 fun u edge colored => ?_)
  exact none ⟨u, edge, colored⟩

/-- The color tried for a temp is at most the number of its colored neighbors. -/
theorem freeColor_le {g : Interference} (valid : g.graph.Valid) {t : Temp} {id : Nat}
    (found : g.graph.id? t = some id) (colors : IndexMap Color) :
    freeColor g colors id ≤ ((g.neighbors t).filter fun u => colors.contains u).size := by
  have covered : List.range (freeColor g colors id) ⊆
      (g.neighbors t).toList.filterMap colors.get? := by
    intro k below
    obtain ⟨u, edge, colored⟩ := exists_colored_of_lt valid found (List.mem_range.mp below)
    exact List.mem_filterMap.mpr ⟨u, (Interference.mem_neighbors valid).mpr edge, colored⟩
  have count := (List.subperm_of_subset List.nodup_range covered).length_le
  rwa [List.length_range, List.length_filterMap_eq_countP, List.countP_eq_length_filter] at count

end Coloring

end RegisterColoring
