import Mathlib.Data.List.Flatten
import Mathlib.Logic.Relation
import RegisterColoring.Flow
import RegisterColoring.Proofs.Basics

namespace RegisterColoring

/-- A path of edges leads from the first node to the second. -/
abbrev Path (next : Nat → List Nat) : Nat → Nat → Prop :=
  Relation.ReflTransGen fun x y => y ∈ next x

/-- The nodes below `n` that a traversal has not met. -/
def unmet (n : Nat) (met : IndexSet) : List Nat := (List.range n).filter (· ∉ met)

/-- What a traversal has still to do: each node that it has not met counts with its edges. -/
def room (next : Nat → List Nat) (n : Nat) (met : IndexSet) : Nat :=
  (unmet n met).length + ((unmet n met).flatMap next).length

theorem room_insert (next : Nat → List Nat) {n x : Nat} {met : IndexSet} (bound : x < n)
    (new : x ∉ met) : room next n met = room next n (met.insert x) + (next x).length + 1 := by
  have nodup : (unmet n met).Nodup := List.nodup_range.filter _
  have member : x ∈ unmet n met := by simp [unmet, bound, new]
  have rest : unmet n (met.insert x) = (unmet n met).erase x := by
    rw [nodup.erase_eq_filter]
    simp only [unmet, List.filter_filter, IndexSet.mem_insert, not_or]
    congr
    funext y
    rw [Bool.eq_iff_iff]
    simp
  have perm := List.perm_cons_erase member
  have lengths := perm.length_eq
  have edges := (perm.flatMap_right next).length_eq
  rw [← rest] at lengths edges
  simp only [List.length_cons, List.flatMap_cons, List.length_append] at lengths edges
  simp only [room]
  omega

theorem room_mono (next : Nat → List Nat) (n : Nat) {met more : IndexSet}
    (grown : ∀ x ∈ met, x ∈ more) : room next n more ≤ room next n met := by
  have sublist : (unmet n more).Sublist (unmet n met) := by
    refine List.monotone_filter_right _ fun x absent => ?_
    simp only [decide_eq_true_eq] at absent ⊢
    exact fun member => absent (grown x member)
  have edges := (sublist.flatMap next).length_le
  have nodes := sublist.length_le
  simp only [room]
  omega

namespace Discipline

theorem mem_add {d : Discipline} {waiting new : List Nat} {x : Nat} :
    x ∈ d.add waiting new ↔ x ∈ waiting ∨ x ∈ new := by
  cases d with
  | queue => exact List.mem_append
  | stack => rw [add, List.mem_append, List.mem_reverse, or_comm]

theorem length_add (d : Discipline) (waiting new : List Nat) :
    (d.add waiting new).length = waiting.length + new.length := by
  cases d with
  | queue => exact List.length_append
  | stack => rw [add, List.length_append, List.length_reverse, Nat.add_comm]

end Discipline

section Search

variable {next : Nat → List Nat} {d : Discipline} {n steps x : Nat} {waiting : List Nat}
  {start met : IndexSet}

theorem search_nil : search next d steps [] met = met := by
  cases steps <;> rfl

theorem search_cons_of_mem (old : x ∈ met) :
    search next d (steps + 1) (x :: waiting) met = search next d steps waiting met := if_pos old

theorem search_cons_of_not_mem (new : x ∉ met) :
    search next d (steps + 1) (x :: waiting) met =
      search next d steps (d.add waiting (next x)) (met.insert x) := if_neg new

theorem subset_search (member : x ∈ met) : x ∈ search next d steps waiting met := by
  induction steps generalizing waiting met with
  | zero => exact member
  | succ steps ih =>
    cases waiting with
    | nil => exact member
    | cons y waiting =>
      by_cases old : y ∈ met
      · rw [search_cons_of_mem old]
        exact ih member
      · rw [search_cons_of_not_mem old]
        exact ih (IndexSet.mem_insert.mpr (.inr member))

/-- The edges that lead on from nodes other than those met at the start. -/
def beyond (next : Nat → List Nat) (start : IndexSet) (x : Nat) : List Nat :=
  if x ∈ start then [] else next x

theorem beyond_of_not_mem (next : Nat → List Nat) (new : x ∉ start) :
    beyond next start x = next x := if_neg new

theorem beyond_empty (next : Nat → List Nat) : beyond next ∅ = next := by
  funext x
  exact beyond_of_not_mem next (IndexSet.not_mem_empty x)

/-- A search meets only nodes to which paths lead. -/
theorem search_sound (started : ∀ y ∈ start, y ∈ met)
    (member : x ∈ search next d steps waiting met) :
    x ∈ met ∨ ∃ y ∈ waiting, Path (beyond next start) y x := by
  induction steps generalizing waiting met with
  | zero => exact .inl member
  | succ steps ih =>
    cases waiting with
    | nil => exact .inl member
    | cons z waiting =>
      have later : (∃ y ∈ waiting, Path (beyond next start) y x) →
          ∃ y ∈ z :: waiting, Path (beyond next start) y x :=
        fun ⟨y, rest, path⟩ => ⟨y, List.mem_cons_of_mem z rest, path⟩
      by_cases old : z ∈ met
      · rw [search_cons_of_mem old] at member
        exact (ih started member).imp_right later
      · rw [search_cons_of_not_mem old] at member
        have grown : ∀ y ∈ start, y ∈ met.insert z := fun y first =>
          IndexSet.mem_insert.mpr (.inr (started y first))
        rcases ih grown member with found | ⟨y, added, path⟩
        · rcases IndexSet.mem_insert.mp found with same | early
          · rw [same]
            exact .inr ⟨z, List.mem_cons_self, .refl⟩
          · exact .inl early
        · rcases Discipline.mem_add.mp added with rest | edge
          · exact .inr (later ⟨y, rest, path⟩)
          · rw [← beyond_of_not_mem next fun first => old (started z first)] at edge
            exact .inr ⟨z, List.mem_cons_self, path.head edge⟩

/-- What has been met when a search ends: all that waited, and what lies behind all but the start. -/
structure Searched (next : Nat → List Nat) (start met : IndexSet) (waiting : List Nat)
    (result : IndexSet) : Prop where
  met : ∀ x ∈ met, x ∈ result
  waiting : ∀ x ∈ waiting, x ∈ result
  closed : ∀ x ∈ result, x ∈ start ∨ ∀ y ∈ next x, y ∈ result

theorem Searched.nil (closed : ∀ x ∈ met, x ∈ start ∨ ∀ y ∈ next x, y ∈ met ∨ y ∈ []) :
    Searched next start met [] met where
  met _ member := member
  waiting _ member := absurd member List.not_mem_nil
  closed x member := (closed x member).imp_right fun edges y edge =>
    (edges y edge).resolve_right List.not_mem_nil

/-- Every step takes one of the nodes that wait, and a node lets others wait only once. -/
theorem search_searched (inside : ∀ x < n, ∀ y ∈ next x, y < n) (bounded : ∀ x ∈ waiting, x < n)
    (closed : ∀ x ∈ met, x ∈ start ∨ ∀ y ∈ next x, y ∈ met ∨ y ∈ waiting)
    (enough : waiting.length + room next n met ≤ steps) :
    Searched next start met waiting (search next d steps waiting met) := by
  induction steps generalizing waiting met with
  | zero =>
    obtain rfl : waiting = [] := List.eq_nil_of_length_eq_zero (by omega)
    exact .nil closed
  | succ steps ih =>
    cases waiting with
    | nil =>
      rw [search_nil]
      exact .nil closed
    | cons z waiting =>
      have bound := bounded z List.mem_cons_self
      have restBounded : ∀ x ∈ waiting, x < n := fun x member =>
        bounded x (List.mem_cons_of_mem z member)
      rw [List.length_cons] at enough
      by_cases old : z ∈ met
      · rw [search_cons_of_mem old]
        have done := @ih waiting met restBounded
          (fun x member => (closed x member).imp_right fun edges y edge => by
            rcases edges y edge with found | waits
            · exact .inl found
            · rcases List.mem_cons.mp waits with rfl | rest
              · exact .inl old
              · exact .inr rest) (by omega)
        refine ⟨done.met, fun x member => ?_, done.closed⟩
        rcases List.mem_cons.mp member with rfl | rest
        · exact done.met x old
        · exact done.waiting x rest
      · rw [search_cons_of_not_mem old]
        have spent := room_insert next bound old
        have done := @ih (d.add waiting (next z)) (met.insert z)
          (fun x member => (Discipline.mem_add.mp member).elim (restBounded x) (inside z bound x))
          (fun x member => by
            rcases IndexSet.mem_insert.mp member with rfl | early
            · exact .inr fun y edge => .inr (Discipline.mem_add.mpr (.inr edge))
            · refine (closed x early).imp_right fun edges y edge => ?_
              rcases edges y edge with found | waits
              · exact .inl (IndexSet.mem_insert.mpr (.inr found))
              · rcases List.mem_cons.mp waits with rfl | rest
                · exact .inl (IndexSet.mem_insert.mpr (.inl rfl))
                · exact .inr (Discipline.mem_add.mpr (.inl rest)))
          (by rw [d.length_add]; omega)
        refine ⟨fun x member => done.met x (IndexSet.mem_insert.mpr (.inr member)),
          fun x member => ?_, done.closed⟩
        rcases List.mem_cons.mp member with rfl | rest
        · exact done.met x (IndexSet.mem_insert.mpr (.inl rfl))
        · exact done.waiting x (Discipline.mem_add.mpr (.inl rest))

/-- A search meets exactly the nodes to which paths lead that do not go on from its start. -/
theorem mem_search (inside : ∀ x < n, ∀ y ∈ next x, y < n) (bounded : ∀ x ∈ waiting, x < n)
    (enough : waiting.length + room next n start ≤ steps) :
    x ∈ search next d steps waiting start ↔
      x ∈ start ∨ ∃ y ∈ waiting, Path (beyond next start) y x := by
  have done : Searched next start start waiting (search next d steps waiting start) :=
    search_searched inside bounded (fun x first => .inl first) enough
  constructor
  · exact search_sound fun y first => first
  · rintro (first | ⟨y, waits, path⟩)
    · exact done.met x first
    · induction path with
      | refl => exact done.waiting y waits
      | @tail z x _ edge ih =>
        unfold beyond at edge
        split at edge
        · exact absurd edge List.not_mem_nil
        · rename_i new
          exact (done.closed z ih).resolve_left new x edge

end Search

end RegisterColoring
