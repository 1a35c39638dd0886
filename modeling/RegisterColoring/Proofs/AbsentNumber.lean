import Mathlib.Data.Finset.Card
import Mathlib.Data.Multiset.Filter
import RegisterColoring.Proofs.Selection

namespace RegisterColoring.Heap

/-- The numbers that a heap holds, with their repetitions. -/
def contents (h : Heap) : Multiset Nat := h.toList

/-- A way to change a heap, or to start a new one. -/
inductive Operation
  | push (x : Nat)
  | pop
  | collect (l : List Nat)

def Operation.apply (h : Heap) : Operation → Heap
  | push x => h.push x
  | pop => h.pop.2
  | collect l => ofList l

/-- The heap after some operations on the empty one. -/
def ofOperations (ops : List Operation) : Heap := ops.foldl Operation.apply empty

/-- What an operation makes of a multiset. -/
inductive Operation.Changes : Multiset Nat → Operation → Multiset Nat → Prop
  | push (x : Nat) (m : Multiset Nat) : Changes m (.push x) (x ::ₘ m)
  | pop {x : Nat} {m : Multiset Nat} (least : ∀ y ∈ m, x ≤ y) : Changes (x ::ₘ m) .pop m
  | popNone : Changes 0 .pop 0
  | collect (l : List Nat) (m : Multiset Nat) : Changes m (.collect l) l

/-- The multiset that operations lead to, starting from nothing. -/
inductive Operation.Collects : List Operation → Multiset Nat → Prop
  | none : Collects [] 0
  | more {ops : List Operation} {op : Operation} {m n : Multiset Nat} :
      Collects ops m → op.Changes m n → Collects (ops ++ [op]) n

theorem insertSorted_perm (x : Nat) (l : List Nat) : (insertSorted x l).Perm (x :: l) := by
  induction l with
  | nil => exact List.Perm.refl _
  | cons y rest ih =>
    unfold insertSorted
    split
    · exact List.Perm.refl _
    · exact (ih.cons y).trans (List.Perm.swap x y rest)

theorem contents_push (h : Heap) (x : Nat) : (h.push x).contents = x ::ₘ h.contents :=
  Multiset.coe_eq_coe.mpr (insertSorted_perm x h.toList)

theorem contents_foldl_push (l : List Nat) (h : Heap) :
    (l.foldl push h).contents = l + h.contents := by
  induction l generalizing h with
  | nil => rw [List.foldl_nil, Multiset.coe_nil, Multiset.zero_add]
  | cons x rest ih =>
    rw [List.foldl_cons, ih, contents_push, ← Multiset.cons_coe, Multiset.add_cons,
      Multiset.cons_add]

theorem contents_ofList (l : List Nat) : (ofList l).contents = l := by
  rw [ofList, contents_foldl_push]
  exact Multiset.add_zero _

/-- An operation changes a heap as it changes the multiset. -/
theorem changes_apply (h : Heap) (op : Operation) :
    op.Changes h.contents (op.apply h).contents := by
  cases op with
  | push x =>
    rw [Operation.apply, contents_push]
    exact .push x _
  | pop =>
    obtain ⟨l, sorted⟩ := h
    cases l with
    | nil => exact .popNone
    | cons x rest => exact .pop (x := x) (m := rest) (List.pairwise_cons.mp sorted).1
  | collect l =>
    rw [Operation.apply, contents_ofList]
    exact .collect l _

theorem collects_ofOperations (ops : List Operation) :
    Operation.Collects ops (ofOperations ops).contents := by
  induction ops using List.reverseRecOn with
  | nil => exact .none
  | append_singleton ops op ih =>
    rw [ofOperations, List.foldl_append]
    exact ih.more (changes_apply _ op)

/-- What is left of an ascending list are the greater entries without the first. -/
theorem absentFrom_rest {l : List Nat} (sorted : l.Pairwise (· ≤ ·)) (i : Nat) :
    (absentFrom i l).2 = (l.filter fun x => (absentFrom i l).1 < x).tail := by
  induction l generalizing i with
  | nil => rfl
  | cons x rest ih =>
    obtain ⟨above, tail⟩ := List.pairwise_cons.mp sorted
    unfold absentFrom
    split
    next below =>
      have low := (absentFrom_spec tail i).1
      rw [List.filter_cons_of_neg (by simp only [decide_eq_true_eq]; omega)]
      exact ih tail i
    next =>
      split
      next same =>
        have low := (absentFrom_spec tail (i + 1)).1
        rw [List.filter_cons_of_neg (by simp only [decide_eq_true_eq]; omega)]
        exact ih tail (i + 1)
      next =>
        -- the first entry above `i` ends the search, and all behind it are above `i` too
        have whole : ∀ y ∈ rest, decide (i < y) = true := by
          intro y member
          have bound := above y member
          simp only [decide_eq_true_eq]
          omega
        rw [List.filter_cons_of_pos (by simp only [decide_eq_true_eq]; omega), List.tail_cons,
          List.filter_eq_self.mpr whole]

/-- A search found `n` in a heap and left `rest`: `n` is the least number that the heap does not
hold, and `rest` holds what lies above `n`, less one copy of the smallest if there is any. -/
structure Excludes (h : Heap) (n : Nat) (rest : Heap) : Prop where
  least : IsLeast {k | k ∉ h.contents} n
  distinct : n ≤ h.contents.toFinset.card
  rest : (h.contents.filter (n < ·) = 0 ∧ rest.contents = 0) ∨
    ∃ x, h.contents.filter (n < ·) = x ::ₘ rest.contents ∧ ∀ y ∈ rest.contents, x ≤ y

theorem smallestAbsent_isLeast (h : Heap) : IsLeast {k | k ∉ h.contents} h.smallestAbsent.1 := by
  obtain ⟨_, absent, held⟩ := absentFrom_spec h.sorted 0
  refine ⟨absent, fun k missing => ?_⟩
  by_contra below
  exact missing (held k (Nat.zero_le k) (Nat.not_le.mp below))

theorem card_of_isLeast {m : Multiset Nat} {n : Nat} (least : IsLeast {k | k ∉ m} n) :
    n ≤ m.toFinset.card := by
  have below : Finset.range n ⊆ m.toFinset := by
    intro k member
    by_contra missing
    have bound := least.2 fun held => missing (Multiset.mem_toFinset.mpr held)
    have small := Finset.mem_range.mp member
    omega
  calc n = (Finset.range n).card := (Finset.card_range n).symm
    _ ≤ m.toFinset.card := Finset.card_le_card below

theorem smallestAbsent_excludes (h : Heap) :
    h.Excludes h.smallestAbsent.1 h.smallestAbsent.2 := by
  have least := h.smallestAbsent_isLeast
  refine ⟨least, card_of_isLeast least, ?_⟩
  have left : h.smallestAbsent.2.toList = (h.toList.filter fun x => h.smallestAbsent.1 < x).tail :=
    absentFrom_rest h.sorted 0
  have sorted := h.sorted.filter fun x => h.smallestAbsent.1 < x
  unfold contents
  rw [left, Multiset.filter_coe]
  cases above : h.toList.filter fun x => h.smallestAbsent.1 < x with
  | nil => exact Or.inl ⟨rfl, rfl⟩
  | cons x rest =>
    rw [above] at sorted
    exact Or.inr ⟨x, rfl, (List.pairwise_cons.mp sorted).1⟩

/-- Whatever operations have built a heap, it holds the multiset that they lead to, and the search
finds the least number outside of it. -/
theorem ofOperations_excludes (ops : List Operation) :
    Operation.Collects ops (ofOperations ops).contents ∧
      (ofOperations ops).Excludes (ofOperations ops).smallestAbsent.1
        (ofOperations ops).smallestAbsent.2 :=
  ⟨collects_ofOperations ops, smallestAbsent_excludes _⟩

example : (ofList [3, 1, 0, 5, 1, 3, 0]).smallestAbsent = (2, ofList [5, 3]) := by decide

end RegisterColoring.Heap
