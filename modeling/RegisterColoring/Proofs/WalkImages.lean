import Mathlib.Data.List.Nodup
import RegisterColoring.Proofs.LoopBodies

namespace RegisterColoring

namespace Walk

/-- The same walk with other names for the nodes. -/
def image (r : Nat → Nat) (w : Walk) : Walk :=
  ⟨.ofList (w.seen.toList.map r), w.left.map r, w.back.map fun e => (r e.1, r e.2)⟩

theorem image_addBack (r : Nat → Nat) (w : Walk) (path : List Nat) (x : Nat) :
    { w.image r with back := (w.image r).back ++ [((path.map r).headD (r x), r x)] } =
      image r { w with back := w.back ++ [(path.headD x, x)] } := by
  have head : (path.map r).headD (r x) = r (path.headD x) := by cases path <;> rfl
  simp only [image, head, List.map_append, List.map_cons, List.map_nil]

theorem image_enter (r : Nat → Nat) (w : Walk) (x : Nat) :
    { w.image r with seen := (w.image r).seen.insert (r x) } =
      image r { w with seen := w.seen.insert x } := by
  have seen : (w.image r).seen.insert (r x) = .ofList ((w.seen.insert x).toList.map r) := by
    ext y
    simp only [image, IndexSet.mem_insert, IndexSet.mem_ofList, List.mem_map, IndexSet.mem_toList]
    constructor
    · rintro (same | ⟨z, member, same⟩)
      · exact ⟨x, Or.inl rfl, same.symm⟩
      · exact ⟨z, Or.inr member, same⟩
    · rintro ⟨z, new | member, same⟩
      · rw [← same, new]
        exact Or.inl rfl
      · exact Or.inr ⟨z, member, same⟩
  simp only [seen]
  rfl

theorem image_leave (r : Nat → Nat) (w : Walk) (x : Nat) :
    { w.image r with left := (w.image r).left ++ [r x] } =
      image r { w with left := w.left ++ [x] } := by
  simp only [image, List.map_append, List.map_cons, List.map_nil]

/-- The nodes of the walk lie in a set. -/
structure Within (kept : IndexSet) (w : Walk) : Prop where
  seen : ∀ x ∈ w.seen, x ∈ kept
  back : ∀ e ∈ w.back, e.1 ∈ kept ∧ e.2 ∈ kept

variable {next : Nat → List Nat} {kept : IndexSet}

theorem Within.addBack {w : Walk} (within : w.Within kept) {path : List Nat} {x : Nat}
    (opened : ∀ y ∈ path, y ∈ kept) (onPath : x ∈ path) :
    Within kept { w with back := w.back ++ [(path.headD x, x)] } := by
  refine ⟨within.seen, fun e member => ?_⟩
  rcases List.mem_append.mp member with old | new
  · exact within.back e old
  · rw [List.mem_singleton.mp new]
    cases path with
    | nil => exact absurd onPath List.not_mem_nil
    | cons head rest => exact ⟨opened head List.mem_cons_self, opened x onPath⟩

theorem Within.enter {w : Walk} (within : w.Within kept) {x : Nat} (member : x ∈ kept) :
    Within kept { w with seen := w.seen.insert x } := by
  refine ⟨fun y inside => ?_, within.back⟩
  rcases IndexSet.mem_insert.mp inside with same | old
  · rw [same]
    exact member
  · exact within.seen y old

theorem Within.leave {w : Walk} (within : w.Within kept) (x : Nat) :
    Within kept { w with left := w.left ++ [x] } :=
  ⟨within.seen, within.back⟩

theorem Within.follow (closed : ∀ x ∈ kept, ∀ y ∈ next x, y ∈ kept) {depth : Nat}
    {path todo : List Nat} {w : Walk} (within : w.Within kept) (opened : ∀ x ∈ path, x ∈ kept)
    (ahead : ∀ x ∈ todo, x ∈ kept) : (Walk.follow next depth path todo w).Within kept := by
  induction depth generalizing path todo w with
  | zero => exact within
  | succ depth ih =>
    cases todo with
    | nil => exact within
    | cons x todo =>
      have member := ahead x List.mem_cons_self
      have later : ∀ y ∈ todo, y ∈ kept := fun y inside => ahead y (List.mem_cons_of_mem x inside)
      unfold Walk.follow
      split
      next onPath => exact ih (within.addBack opened onPath) opened later
      next =>
        split
        next => exact ih within opened later
        next =>
          have inner := ih (within.enter member) (List.forall_mem_cons.mpr ⟨member, opened⟩)
            (closed x member)
          exact ih (inner.leave x) opened later

/-- A walk over renamed edges makes the same steps. -/
theorem follow_image {images : Nat → List Nat} {r : Nat → Nat}
    (injective : ∀ x ∈ kept, ∀ y ∈ kept, r x = r y → x = y)
    (edges : ∀ x ∈ kept, images (r x) = (next x).map r)
    (closed : ∀ x ∈ kept, ∀ y ∈ next x, y ∈ kept) {depth : Nat} {path todo : List Nat} {w : Walk}
    (within : w.Within kept) (opened : ∀ x ∈ path, x ∈ kept) (ahead : ∀ x ∈ todo, x ∈ kept) :
    follow images depth (path.map r) (todo.map r) (w.image r) =
      (follow next depth path todo w).image r := by
  induction depth generalizing path todo w with
  | zero => rfl
  | succ depth ih =>
    cases todo with
    | nil => rfl
    | cons x todo =>
      have member := ahead x List.mem_cons_self
      have later : ∀ y ∈ todo, y ∈ kept := fun y inside => ahead y (List.mem_cons_of_mem x inside)
      have onPath : r x ∈ path.map r ↔ x ∈ path := by
        rw [List.mem_map]
        constructor
        · rintro ⟨y, inside, same⟩
          rw [← injective y (opened y inside) x member same]
          exact inside
        · exact fun inside => ⟨x, inside, rfl⟩
      have entered : r x ∈ (w.image r).seen ↔ x ∈ w.seen := by
        simp only [image, IndexSet.mem_ofList, List.mem_map, IndexSet.mem_toList]
        constructor
        · rintro ⟨y, inside, same⟩
          rw [← injective y (within.seen y inside) x member same]
          exact inside
        · exact fun inside => ⟨x, inside, rfl⟩
      rw [List.map_cons]
      unfold follow
      by_cases onStack : x ∈ path
      · rw [if_pos onStack, if_pos (onPath.mpr onStack), image_addBack,
          ih (within.addBack opened onStack) opened later]
      · rw [if_neg onStack, if_neg fun stacked => onStack (onPath.mp stacked)]
        by_cases known : x ∈ w.seen
        · rw [if_pos known, if_pos (entered.mpr known), ih within opened later]
        · have stack : ∀ y ∈ x :: path, y ∈ kept := List.forall_mem_cons.mpr ⟨member, opened⟩
          have inner : (follow next depth (x :: path) (next x)
              { w with seen := w.seen.insert x }).Within kept :=
            (within.enter member).follow closed stack (closed x member)
          rw [if_neg known, if_neg fun seen => known (entered.mp seen), edges x member, image_enter,
            ← List.map_cons, ih (within.enter member) stack (closed x member)]
          simp only
          rw [image_leave]
          exact ih (inner.leave x) opened later

/-- How deep a walk may nest does not matter, if that is deep enough. -/
theorem follow_depth {n depth depth' : Nat} {path todo : List Nat} {w : Walk}
    (inside : ∀ x < n, ∀ y ∈ next x, y < n) (bounded : ∀ x ∈ todo, x < n)
    (opened : ∀ x ∈ path, x ∈ w.seen) (deep : todo.length + room next n w.seen ≤ depth)
    (deep' : todo.length + room next n w.seen ≤ depth') :
    follow next depth path todo w = follow next depth' path todo w := by
  induction depth generalizing depth' path todo w with
  | zero =>
    have none : todo = [] := List.eq_nil_of_length_eq_zero (by omega)
    subst none
    cases depth' <;> rfl
  | succ depth ih =>
    cases todo with
    | nil => cases depth' <;> rfl
    | cons x todo =>
      rw [List.length_cons] at deep deep'
      obtain ⟨other, rfl⟩ : ∃ other, depth' = other + 1 := ⟨depth' - 1, by omega⟩
      have bound := bounded x List.mem_cons_self
      have later : ∀ y ∈ todo, y < n := fun y member => bounded y (List.mem_cons_of_mem _ member)
      unfold follow
      split
      · exact ih later opened (by simp only; omega) (by simp only; omega)
      · split
        · exact ih later opened (by omega) (by omega)
        · rename_i new
          have spent := room_insert next bound new
          have stack : ∀ y ∈ x :: path, y ∈ w.seen.insert x := by
            intro y member
            rcases List.mem_cons.mp member with same | old
            · exact IndexSet.mem_insert.mpr (Or.inl same)
            · exact IndexSet.mem_insert.mpr (Or.inr (opened y old))
          have inner : follow next depth (x :: path) (next x) { w with seen := w.seen.insert x } =
              follow next other (x :: path) (next x) { w with seen := w.seen.insert x } :=
            ih (inside x bound) stack (by simp only; omega) (by simp only; omega)
          have explored : Explores next (next x) { w with seen := w.seen.insert x }
              (follow next depth (x :: path) (next x) { w with seen := w.seen.insert x }) :=
            follow_explores inside (inside x bound) stack (by simp only; omega)
          have kept : ∀ y ∈ w.seen, y ∈ (follow next depth (x :: path) (next x)
              { w with seen := w.seen.insert x }).seen := fun y member =>
            explored.seen y (IndexSet.mem_insert.mpr (Or.inr member))
          have shrunk := room_mono next n kept
          simp only
          rw [← inner]
          exact ih later (fun y member => kept y (opened y member)) (by simp only; omega)
            (by simp only; omega)

end Walk

end RegisterColoring
