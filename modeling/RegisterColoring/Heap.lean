namespace RegisterColoring

/-- Put `x` into a list in ascending order, before the first entry that is not smaller. -/
def insertSorted (x : Nat) : List Nat → List Nat
  | [] => [x]
  | y :: rest => if x ≤ y then x :: y :: rest else y :: insertSorted x rest

theorem mem_insertSorted {x y : Nat} {l : List Nat} : y ∈ insertSorted x l ↔ y = x ∨ y ∈ l := by
  induction l with
  | nil => simp [insertSorted]
  | cons z rest ih =>
    unfold insertSorted
    split
    · simp
    · simp only [List.mem_cons, ih]
      exact or_left_comm

theorem insertSorted_pairwise {x : Nat} {l : List Nat} (sorted : l.Pairwise (· ≤ ·)) :
    (insertSorted x l).Pairwise (· ≤ ·) := by
  induction l with
  | nil => simp [insertSorted]
  | cons y rest ih =>
    obtain ⟨above, tail⟩ := List.pairwise_cons.mp sorted
    unfold insertSorted
    split
    · rename_i below
      refine List.pairwise_cons.mpr ⟨fun z member => ?_, sorted⟩
      rcases List.mem_cons.mp member with rfl | member
      · exact below
      · exact Nat.le_trans below (above z member)
    · refine List.pairwise_cons.mpr ⟨fun z member => ?_, ih tail⟩
      rcases mem_insertSorted.mp member with rfl | member
      · omega
      · exact above z member

/-- A collection of numbers, as its list in ascending order. -/
structure Heap where
  toList : List Nat
  sorted : toList.Pairwise (· ≤ ·)
deriving DecidableEq

namespace Heap

def empty : Heap := ⟨[], .nil⟩

def push (h : Heap) (x : Nat) : Heap := ⟨insertSorted x h.toList, insertSorted_pairwise h.sorted⟩

def ofList (l : List Nat) : Heap := l.foldl push empty

/-- The smallest number, and the heap without one occurrence of it. -/
def pop : Heap → Option Nat × Heap
  | ⟨[], sorted⟩ => (none, ⟨[], sorted⟩)
  | ⟨x :: rest, sorted⟩ => (some x, ⟨rest, (List.pairwise_cons.mp sorted).2⟩)

/-- The smallest number from `i` on that an ascending list does not hold, and the rest of the list
behind the entry that showed it. -/
def absentFrom (i : Nat) : List Nat → Nat × List Nat
  | [] => (i, [])
  | x :: rest => if x < i then absentFrom i rest else if x = i then absentFrom (i + 1) rest else (i, rest)

theorem absentFrom_suffix (i : Nat) (l : List Nat) : (absentFrom i l).2 <:+ l := by
  induction l generalizing i with
  | nil => simp [absentFrom]
  | cons x rest ih =>
    unfold absentFrom
    split
    · exact (ih i).trans (List.suffix_cons x rest)
    · split
      · exact (ih (i + 1)).trans (List.suffix_cons x rest)
      · exact List.suffix_cons x rest

/-- The smallest number that the heap does not hold, and the heap after the numbers taken to find
it. -/
def smallestAbsent (h : Heap) : Nat × Heap :=
  ((absentFrom 0 h.toList).1,
    ⟨(absentFrom 0 h.toList).2, h.sorted.sublist (absentFrom_suffix 0 h.toList).sublist⟩)

end Heap

end RegisterColoring
