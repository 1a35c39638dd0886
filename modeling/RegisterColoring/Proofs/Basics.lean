import Mathlib.Data.List.Perm.Subperm
import RegisterColoring.IndexMap

namespace RegisterColoring

/-- A step of a plain run. -/
theorem bind_id {α β : Type} (x : Id α) (next : α → Id β) : x >>= next = next x := rfl

theorem nodup_of_ascending {l : List Nat} (ascending : l.Pairwise (· < ·)) : l.Nodup :=
  ascending.imp fun below => Nat.ne_of_lt below

/-- A list has no entry of some kind, or a last one. -/
theorem none_or_last {α : Type} (kind : α → Prop) (l : List α) :
    (∀ x ∈ l, ¬ kind x) ∨
      ∃ before x after, l = before ++ x :: after ∧ kind x ∧ ∀ y ∈ after, ¬ kind y := by
  induction l with
  | nil => exact Or.inl fun x member => absurd member List.not_mem_nil
  | cons head rest ih =>
    rcases ih with none | ⟨before, x, after, split, here, later⟩
    · by_cases first : kind head
      · exact Or.inr ⟨[], head, rest, rfl, first, none⟩
      · refine Or.inl fun x member => ?_
        rcases List.mem_cons.mp member with same | inside
        · rw [same]
          exact first
        · exact none x inside
    · exact Or.inr ⟨head :: before, x, after, by rw [split]; rfl, here, later⟩

namespace IndexSet

theorem nodup_toList (s : IndexSet) : s.toList.Nodup := nodup_of_ascending s.ascending

theorem size_le_length {s : IndexSet} {l : List Nat} (inside : ∀ x ∈ s, x ∈ l) :
    s.size ≤ l.length :=
  (List.subperm_of_subset s.nodup_toList inside).length_le

theorem size_le_size {s t : IndexSet} (inside : ∀ x ∈ s, x ∈ t) : s.size ≤ t.size :=
  size_le_length inside

theorem length_le_size {s : IndexSet} {l : List Nat} (nodup : l.Nodup) (inside : ∀ x ∈ l, x ∈ s) :
    l.length ≤ s.size :=
  (List.subperm_of_subset nodup inside).length_le

theorem size_lt_size {s t : IndexSet} (inside : ∀ x ∈ s, x ∈ t) {x : Nat} (old : x ∉ s)
    (new : x ∈ t) : s.size < t.size := by
  have nodup : (x :: s.toList).Nodup := List.nodup_cons.mpr ⟨old, s.nodup_toList⟩
  have bound : (x :: s.toList).length ≤ t.size := by
    refine length_le_size nodup fun y member => ?_
    rcases List.mem_cons.mp member with rfl | member
    · exact new
    · exact inside y member
  rw [List.length_cons] at bound
  exact bound

/-- A set that has grown without gaining in size is the same set. -/
theorem eq_of_size_eq {s t : IndexSet} (inside : ∀ x ∈ s, x ∈ t) (same : t.size = s.size) :
    s = t := by
  ext x
  refine ⟨inside x, fun new => ?_⟩
  by_contra old
  have grown := size_lt_size inside old new
  omega

/-- Removing one member from what a filter keeps lowers the size by one. -/
theorem size_filter_erase {s : IndexSet} {p q : Nat → Bool} {x : Nat} (member : x ∈ s)
    (kept : p x = true) (gone : q x = false) (same : ∀ y ∈ s, y ≠ x → p y = q y) :
    (s.filter p).size = (s.filter q).size + 1 := by
  have inserted : s.filter p = (s.filter q).insert x := by
    ext y
    rw [mem_filter, mem_insert, mem_filter]
    by_cases equal : y = x
    · subst equal
      simp [member, kept]
    · constructor
      · rintro ⟨inS, holds⟩
        exact Or.inr ⟨inS, by rw [← same y inS equal]; exact holds⟩
      · rintro (isX | ⟨inS, holds⟩)
        · exact absurd isX equal
        · exact ⟨inS, by rw [same y inS equal]; exact holds⟩
  have absent : x ∉ s.filter q := by simp [gone]
  have lower : (s.filter q).size < ((s.filter q).insert x).size :=
    size_lt_size (fun y inside => mem_insert.mpr (Or.inr inside)) absent (by simp)
  have upper : ((s.filter q).insert x).size ≤ (x :: (s.filter q).toList).length := by
    refine size_le_length fun y inside => ?_
    rcases mem_insert.mp inside with rfl | inside
    · exact List.mem_cons_self
    · exact List.mem_cons_of_mem _ inside
  rw [inserted]
  simp only [List.length_cons, size] at upper lower ⊢
  omega

theorem filter_congr {s : IndexSet} {p q : Nat → Bool} (same : ∀ x ∈ s, p x = q x) :
    s.filter p = s.filter q := by
  ext x
  rw [mem_filter, mem_filter]
  constructor
  · rintro ⟨member, holds⟩
    exact ⟨member, by rw [← same x member]; exact holds⟩
  · rintro ⟨member, holds⟩
    exact ⟨member, by rw [same x member]; exact holds⟩

end IndexSet

namespace IndexMap

variable {β : Type}

theorem lookupEntry_eq_some {l : List (Nat × β)} (ascending : l.Pairwise (·.1 < ·.1)) {k : Nat}
    {v : β} : lookupEntry k l = some v ↔ (k, v) ∈ l := by
  induction l with
  | nil => simp [lookupEntry]
  | cons head rest ih =>
    obtain ⟨above, tail⟩ := List.pairwise_cons.mp ascending
    obtain ⟨k', v'⟩ := head
    by_cases same : k = k'
    · subst same
      have absent : (k, v) ∉ rest := fun member => Nat.lt_irrefl k (above (k, v) member)
      simp only [lookupEntry, if_true, List.mem_cons, Prod.mk.injEq, true_and, absent, or_false,
        Option.some.injEq]
      exact eq_comm
    · simp [lookupEntry, same, ih tail]

theorem get?_eq_some {m : IndexMap β} {k : Nat} {v : β} :
    m.get? k = some v ↔ (k, v) ∈ m.entries := lookupEntry_eq_some m.ascending

theorem contains_iff {m : IndexMap β} {k : Nat} : m.contains k = true ↔ ∃ v, m.get? k = some v := by
  rw [contains, Option.isSome_iff_exists]

theorem contains_eq_false {m : IndexMap β} {k : Nat} : m.contains k = false ↔ m.get? k = none := by
  rw [contains, Option.isSome_eq_false_iff, Option.isNone_iff_eq_none]

theorem get?_insertAll_of_not_mem {m : IndexMap β} {l : List (Nat × β)} {k : Nat}
    (absent : ∀ e ∈ l, e.1 ≠ k) : (m.insertAll l).get? k = m.get? k := by
  unfold insertAll
  induction l generalizing m with
  | nil => rfl
  | cons e rest ih =>
    have other : k ≠ e.1 := fun equal => absent e List.mem_cons_self equal.symm
    rw [List.foldl_cons, ih fun e' member => absent e' (List.mem_cons_of_mem _ member)]
    simp [other]

theorem get?_insertAll_of_mem {m : IndexMap β} {l : List (Nat × β)} {k : Nat} {v : β}
    (nodup : (l.map (·.1)).Nodup) (member : (k, v) ∈ l) : (m.insertAll l).get? k = some v := by
  unfold insertAll
  induction l generalizing m with
  | nil => exact absurd member List.not_mem_nil
  | cons e rest ih =>
    rw [List.map_cons, List.nodup_cons] at nodup
    rw [List.foldl_cons]
    rcases List.mem_cons.mp member with equal | member
    · subst equal
      have absent : ∀ e ∈ rest, e.1 ≠ k := fun e inRest equal =>
        nodup.1 (List.mem_map.mpr ⟨e, inRest, equal⟩)
      have kept := get?_insertAll_of_not_mem (m := m.insert k v) absent
      unfold insertAll at kept
      rw [kept]
      simp
    · exact ih nodup.2 member

theorem contains_insertAll {m : IndexMap β} {l : List (Nat × β)} {k : Nat} :
    (m.insertAll l).contains k = true ↔ (∃ v, (k, v) ∈ l) ∨ m.contains k = true := by
  unfold insertAll
  induction l generalizing m with
  | nil => simp
  | cons e rest ih =>
    have first : (m.insert e.1 e.2).contains k = true ↔ k = e.1 ∨ m.contains k = true := by
      unfold contains
      rw [get?_insert]
      split
      · rename_i same
        simp [same]
      · rename_i other
        simp [other]
    rw [List.foldl_cons, ih, first]
    constructor
    · rintro (⟨v, later⟩ | rfl | old)
      · exact Or.inl ⟨v, List.mem_cons_of_mem _ later⟩
      · exact Or.inl ⟨e.2, List.mem_cons_self⟩
      · exact Or.inr old
    · rintro (⟨v, member⟩ | old)
      · rcases List.mem_cons.mp member with same | later
        · exact Or.inr (Or.inl (congrArg Prod.fst same))
        · exact Or.inl ⟨v, later⟩
      · exact Or.inr (Or.inr old)

theorem nodup_keys (m : IndexMap β) : (m.entries.map (·.1)).Nodup :=
  nodup_of_ascending (List.pairwise_map.mpr m.ascending)

/-- Entries of a second map win over those of the first. -/
theorem get?_insertAll_entries {m n : IndexMap β} {k : Nat} :
    (m.insertAll n.entries).get? k = (n.get? k).or (m.get? k) := by
  cases found : n.get? k with
  | some v => exact get?_insertAll_of_mem n.nodup_keys (get?_eq_some.mp found)
  | none =>
    refine get?_insertAll_of_not_mem fun e member equal => ?_
    have present : n.get? e.1 = some e.2 := get?_eq_some.mpr member
    rw [equal, found] at present
    exact nomatch present

theorem get?_ofList_of_mem {l : List (Nat × β)} {k : Nat} {v : β} (nodup : (l.map (·.1)).Nodup)
    (member : (k, v) ∈ l) : (ofList l).get? k = some v := get?_insertAll_of_mem nodup member

/-- What a map of a list holds is in the list. -/
theorem mem_of_get?_insertAll {m : IndexMap β} {l : List (Nat × β)} {k : Nat} {v : β}
    (found : (m.insertAll l).get? k = some v) : (k, v) ∈ l ∨ m.get? k = some v := by
  unfold insertAll at found
  induction l generalizing m with
  | nil => exact Or.inr found
  | cons e rest ih =>
    rw [List.foldl_cons] at found
    rcases ih found with later | earlier
    · exact Or.inl (List.mem_cons_of_mem _ later)
    · rw [get?_insert] at earlier
      by_cases same : k = e.1
      · rw [if_pos same] at earlier
        have entry : (k, v) = e := Prod.ext same (Option.some.inj earlier).symm
        rw [entry]
        exact Or.inl List.mem_cons_self
      · rw [if_neg same] at earlier
        exact Or.inr earlier

theorem mem_of_get?_ofList {l : List (Nat × β)} {k : Nat} {v : β}
    (found : (ofList l).get? k = some v) : (k, v) ∈ l := by
  rcases mem_of_get?_insertAll found with member | none
  · exact member
  · exact nomatch none

theorem get?_ofKeys {s : IndexSet} {f : Nat → β} {k : Nat} :
    (ofKeys s f).get? k = if k ∈ s then some (f k) else none := by
  split
  · rename_i member
    exact get?_eq_some.mpr (List.mem_map.mpr ⟨k, member, rfl⟩)
  · rename_i absent
    refine Option.eq_none_iff_forall_ne_some.mpr fun v found => absent ?_
    obtain ⟨k', member, equal⟩ := List.mem_map.mp (get?_eq_some.mp found)
    cases equal
    exact member

theorem isEmpty_iff {m : IndexMap β} : m.isEmpty = true ↔ ∀ k, m.get? k = none := by
  unfold isEmpty
  rw [List.isEmpty_iff, List.eq_nil_iff_forall_not_mem]
  constructor
  · intro none k
    exact Option.eq_none_iff_forall_ne_some.mpr fun v found => none (k, v) (get?_eq_some.mp found)
  · intro none e member
    have present : m.get? e.1 = some e.2 := get?_eq_some.mpr member
    rw [none e.1] at present
    exact nomatch present

end IndexMap

theorem bind_eq_ok {ε α γ : Type} {x : Except ε α} {f : α → Except ε γ} {r : γ} :
    x.bind f = .ok r ↔ ∃ a, x = .ok a ∧ f a = .ok r := by
  cases x <;> simp [Except.bind]

theorem bind_eq_error {ε α γ : Type} {x : Except ε α} {f : α → Except ε γ} {e : ε} :
    x.bind f = .error e ↔ x = .error e ∨ ∃ a, x = .ok a ∧ f a = .error e := by
  cases x <;> simp [Except.bind]

theorem map_eq_ok {ε α γ : Type} {x : Except ε α} {f : α → γ} {r : γ} :
    x.map f = .ok r ↔ ∃ a, x = .ok a ∧ f a = r := by
  cases x <;> simp [Except.map]

theorem map_eq_error {ε α γ : Type} {x : Except ε α} {f : α → γ} {e : ε} :
    x.map f = .error e ↔ x = .error e := by
  cases x <;> simp [Except.map]

end RegisterColoring
