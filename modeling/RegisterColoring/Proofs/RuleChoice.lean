import Mathlib.Data.List.Induction
import RegisterColoring.Lexeme

namespace RegisterColoring

namespace Rule

theorem best_append (rules : List Rule) (rule : Rule) (cs : List Char) :
    best (rules ++ [rule]) cs = best.pick (best rules cs) rule (rule.longest cs) := by
  rw [best, List.foldl_append]
  rfl

theorem best_congr {rules : List Rule} {cs ds : List Char}
    (same : ∀ rule ∈ rules, rule.longest cs = rule.longest ds) : best rules cs = best rules ds := by
  induction rules using List.reverseRecOn with
  | nil => rfl
  | append_singleton rules rule ih =>
    rw [best_append, best_append, same rule (by simp),
      ih fun other member => same other (List.mem_append_left _ member)]

/-- The rule is the first in the list with the longest match, of `n` characters. -/
structure First (rules : List Rule) (cs : List Char) (rule : Rule) (n : Nat) : Prop where
  pos : 0 < n
  length : rule.longest cs = n
  order : ∃ before after, rules = before ++ rule :: after ∧
    (∀ other ∈ before, other.longest cs < n) ∧ ∀ other ∈ after, other.longest cs ≤ n

theorem best_eq_none {rules : List Rule} {cs : List Char} :
    best rules cs = none ↔ ∀ rule ∈ rules, rule.longest cs = 0 := by
  induction rules using List.reverseRecOn with
  | nil => simp [best]
  | append_singleton rules rule ih =>
    rw [best_append]
    cases found : best rules cs with
    | none =>
      have zeros := ih.mp found
      by_cases zero : rule.longest cs = 0
      · have all : ∀ other ∈ rules ++ [rule], other.longest cs = 0 := by
          intro other member
          rcases List.mem_append.mp member with old | new
          · exact zeros other old
          · rw [List.mem_singleton.mp new]
            exact zero
        simpa [best.pick, zero] using all
      · simp [best.pick, zero]
    | some pair =>
      have least : ¬ ∀ rule ∈ rules, rule.longest cs = 0 := by
        intro zeros
        rw [ih.mpr zeros] at found
        cases found
      constructor
      · intro impossible
        simp only [best.pick] at impossible
        split at impossible <;> cases impossible
      · intro zeros
        exact absurd (fun other member => zeros other (List.mem_append_left _ member)) least

theorem First.of_best {rules : List Rule} {cs : List Char} {rule : Rule} {n : Nat}
    (found : best rules cs = some (rule, n)) : First rules cs rule n := by
  induction rules using List.reverseRecOn generalizing rule n with
  | nil => cases found
  | append_singleton rules last ih =>
    rw [best_append] at found
    cases earlier : best rules cs with
    | none =>
      have zeros := best_eq_none.mp earlier
      rw [earlier] at found
      simp only [best.pick] at found
      split at found
      next => cases found
      next some =>
        cases found
        refine ⟨Nat.pos_of_ne_zero some, rfl, rules, [], rfl, fun other member => ?_, by simp⟩
        rw [zeros other member]
        exact Nat.pos_of_ne_zero some
    | some pair =>
      obtain ⟨first, m⟩ := pair
      obtain ⟨pos, length, before, after, split, shorter, longest⟩ := ih earlier
      rw [earlier] at found
      simp only [best.pick] at found
      split at found
      next longer =>
        cases found
        refine ⟨Nat.zero_lt_of_lt longer, rfl, rules, [], rfl, fun other member => ?_, by simp⟩
        rw [split, List.mem_append, List.mem_cons] at member
        rcases member with front | rfl | back
        · have bound := shorter other front
          omega
        · omega
        · have bound := longest other back
          omega
      next short =>
        cases found
        refine ⟨pos, length, before, after ++ [last], by rw [split]; simp, shorter, ?_⟩
        intro other member
        rcases List.mem_append.mp member with old | new
        · exact longest other old
        · rw [List.mem_singleton.mp new]
          omega

theorem First.best {rules : List Rule} {cs : List Char} {rule : Rule} {n : Nat}
    (first : First rules cs rule n) : Rule.best rules cs = some (rule, n) := by
  obtain ⟨pos, length, before, after, rfl, shorter, longest⟩ := first
  induction after using List.reverseRecOn with
  | nil =>
    rw [best_append, length]
    cases earlier : Rule.best before cs with
    | none => simp [best.pick, Nat.ne_of_gt pos]
    | some pair =>
      obtain ⟨old, m⟩ := pair
      obtain ⟨_, oldLength, front, back, split, _, _⟩ := First.of_best earlier
      have bound := shorter old (by rw [split]; simp)
      rw [oldLength] at bound
      simp [best.pick, bound]
  | append_singleton after last ih =>
    have bound := longest last (by simp)
    have earlier := ih fun other member => longest other (List.mem_append_left _ member)
    rw [← List.cons_append, ← List.append_assoc, best_append, earlier]
    simp [best.pick, Nat.not_lt.mpr bound]

theorem best_eq_some {rules : List Rule} {cs : List Char} {rule : Rule} {n : Nat} :
    best rules cs = some (rule, n) ↔ First rules cs rule n :=
  ⟨First.of_best, First.best⟩

end Rule

end RegisterColoring
