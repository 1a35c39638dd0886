namespace RegisterColoring

/-- Put `x` into an ascending list, which stays ascending. A member is not repeated. -/
def insertAscending (x : Nat) : List Nat → List Nat
  | [] => [x]
  | y :: rest =>
    if x < y then x :: y :: rest
    else if x = y then y :: rest
    else y :: insertAscending x rest

theorem mem_insertAscending {x y : Nat} {l : List Nat} :
    y ∈ insertAscending x l ↔ y = x ∨ y ∈ l := by
  induction l with
  | nil => simp [insertAscending]
  | cons z rest ih =>
    unfold insertAscending
    split
    · simp
    · split
      · rename_i equal
        subst equal
        simp
      · simp only [List.mem_cons, ih]
        constructor
        · rintro (h | h | h)
          · exact Or.inr (Or.inl h)
          · exact Or.inl h
          · exact Or.inr (Or.inr h)
        · rintro (h | h | h)
          · exact Or.inr (Or.inl h)
          · exact Or.inl h
          · exact Or.inr (Or.inr h)

theorem insertAscending_pairwise {x : Nat} {l : List Nat} (ascending : l.Pairwise (· < ·)) :
    (insertAscending x l).Pairwise (· < ·) := by
  induction l with
  | nil => simp [insertAscending]
  | cons y rest ih =>
    obtain ⟨above, tail⟩ := List.pairwise_cons.mp ascending
    unfold insertAscending
    split
    · rename_i below
      refine List.pairwise_cons.mpr ⟨fun z member => ?_, ascending⟩
      rcases List.mem_cons.mp member with rfl | member
      · exact below
      · exact Nat.lt_trans below (above z member)
    · split
      · exact ascending
      · refine List.pairwise_cons.mpr ⟨fun z member => ?_, ih tail⟩
        rcases mem_insertAscending.mp member with rfl | member
        · omega
        · exact above z member

/-- An ascending list is determined by its members. -/
theorem ascending_eq {l m : List Nat} (hl : l.Pairwise (· < ·)) (hm : m.Pairwise (· < ·))
    (same : ∀ x, x ∈ l ↔ x ∈ m) : l = m := by
  induction l generalizing m with
  | nil =>
    cases m with
    | nil => rfl
    | cons y rest => exact absurd ((same y).mpr (by simp)) (by simp)
  | cons x rest ih =>
    cases m with
    | nil => exact absurd ((same x).mp (by simp)) (by simp)
    | cons y others =>
      obtain ⟨aboveX, tailX⟩ := List.pairwise_cons.mp hl
      obtain ⟨aboveY, tailY⟩ := List.pairwise_cons.mp hm
      have heads : x = y := by
        rcases List.mem_cons.mp ((same x).mp (by simp)) with equal | inOthers
        · exact equal
        · rcases List.mem_cons.mp ((same y).mpr (by simp)) with equal | inRest
          · exact equal.symm
          · have := aboveY x inOthers
            have := aboveX y inRest
            omega
      subst heads
      congr 1
      refine ih tailX tailY fun z => ⟨fun member => ?_, fun member => ?_⟩
      · rcases List.mem_cons.mp ((same z).mp (by simp [member])) with equal | found
        · have := aboveX z member
          omega
        · exact found
      · rcases List.mem_cons.mp ((same z).mpr (by simp [member])) with equal | found
        · have := aboveY z member
          omega
        · exact found

/-- A finite set of indices, as the ascending list of its members. -/
structure IndexSet where
  toList : List Nat
  ascending : toList.Pairwise (· < ·)
deriving DecidableEq

namespace IndexSet

instance : Membership Nat IndexSet := ⟨fun s x => x ∈ s.toList⟩

instance (x : Nat) (s : IndexSet) : Decidable (x ∈ s) :=
  inferInstanceAs (Decidable (x ∈ s.toList))

instance : EmptyCollection IndexSet := ⟨⟨[], .nil⟩⟩

instance : Inhabited IndexSet := ⟨∅⟩

theorem mem_toList {x : Nat} {s : IndexSet} : x ∈ s.toList ↔ x ∈ s := Iff.rfl

@[simp] theorem not_mem_empty (x : Nat) : ¬ x ∈ (∅ : IndexSet) := List.not_mem_nil

@[ext] theorem ext {s t : IndexSet} (same : ∀ x, x ∈ s ↔ x ∈ t) : s = t := by
  cases s
  cases t
  congr 1
  exact ascending_eq ‹_› ‹_› same

def size (s : IndexSet) : Nat := s.toList.length

def isEmpty (s : IndexSet) : Bool := s.toList.isEmpty

/-- The set with `x` added. -/
def insert (s : IndexSet) (x : Nat) : IndexSet :=
  ⟨insertAscending x s.toList, insertAscending_pairwise s.ascending⟩

@[simp] theorem mem_insert {s : IndexSet} {x y : Nat} : y ∈ s.insert x ↔ y = x ∨ y ∈ s :=
  mem_insertAscending

/-- The members of `s` that satisfy `p`. -/
def filter (s : IndexSet) (p : Nat → Bool) : IndexSet :=
  ⟨s.toList.filter p, s.ascending.filter p⟩

@[simp] theorem mem_filter {s : IndexSet} {p : Nat → Bool} {x : Nat} :
    x ∈ s.filter p ↔ x ∈ s ∧ p x = true := List.mem_filter

/-- The set without `x`. -/
def erase (s : IndexSet) (x : Nat) : IndexSet := s.filter (· ≠ x)

@[simp] theorem mem_erase {s : IndexSet} {x y : Nat} : y ∈ s.erase x ↔ y ∈ s ∧ y ≠ x := by
  simp [erase]

/-- The members of `s` that are not in `t`. -/
def diff (s t : IndexSet) : IndexSet := s.filter (· ∉ t)

@[simp] theorem mem_diff {s t : IndexSet} {x : Nat} : x ∈ s.diff t ↔ x ∈ s ∧ x ∉ t := by
  simp [diff]

/-- The set `s` with every entry of a list added. -/
def insertAll (s : IndexSet) (l : List Nat) : IndexSet := l.foldl insert s

@[simp] theorem mem_insertAll {s : IndexSet} {l : List Nat} {x : Nat} :
    x ∈ s.insertAll l ↔ x ∈ l ∨ x ∈ s := by
  unfold insertAll
  induction l generalizing s with
  | nil => simp
  | cons y rest ih =>
    simp only [List.foldl_cons, ih, mem_insert, List.mem_cons]
    constructor
    · rintro (h | h | h)
      · exact Or.inl (Or.inr h)
      · exact Or.inl (Or.inl h)
      · exact Or.inr h
    · rintro ((h | h) | h)
      · exact Or.inr (Or.inl h)
      · exact Or.inl h
      · exact Or.inr (Or.inr h)

/-- The set of the entries of a list. -/
def ofList (l : List Nat) : IndexSet := (∅ : IndexSet).insertAll l

@[simp] theorem mem_ofList {l : List Nat} {x : Nat} : x ∈ ofList l ↔ x ∈ l := by
  simp [ofList]

def union (s t : IndexSet) : IndexSet := s.insertAll t.toList

instance : Union IndexSet := ⟨union⟩

@[simp] theorem mem_union {s t : IndexSet} {x : Nat} : x ∈ s ∪ t ↔ x ∈ s ∨ x ∈ t := by
  change x ∈ s.insertAll t.toList ↔ _
  rw [mem_insertAll, mem_toList, or_comm]

/-- The union of a list of sets. -/
def unions (sets : List IndexSet) : IndexSet := sets.foldl (· ∪ ·) ∅

theorem mem_foldl_union {sets : List IndexSet} {s : IndexSet} {x : Nat} :
    x ∈ sets.foldl (· ∪ ·) s ↔ x ∈ s ∨ ∃ t ∈ sets, x ∈ t := by
  induction sets generalizing s with
  | nil => simp
  | cons t rest ih => simp [ih, or_assoc]

@[simp] theorem mem_unions {sets : List IndexSet} {x : Nat} :
    x ∈ unions sets ↔ ∃ t ∈ sets, x ∈ t := by
  simp [unions, mem_foldl_union]

end IndexSet

end RegisterColoring
