import RegisterColoring.Proofs.Searches

namespace RegisterColoring

/-- What a depth-first walk has recorded. -/
structure Walk where
  /-- The nodes entered. -/
  seen : IndexSet
  /-- The nodes left, in the order of leaving. -/
  left : List Nat
  /-- Edges from a node to one of its ancestors, as pairs of tail and header. -/
  back : List (Nat × Nat)
deriving DecidableEq

namespace Walk

def start : Walk := ⟨∅, [], []⟩

/-- Follow the edges from the head of `path` to the nodes `todo`; the rest of `path` is open too.
`depth` bounds how deep the walk may nest. -/
def follow (next : Nat → List Nat) : Nat → List Nat → List Nat → Walk → Walk
  | 0, _, _, w => w
  | _ + 1, _, [], w => w
  | depth + 1, path, x :: todo, w =>
    if x ∈ path then
      follow next depth path todo { w with back := w.back ++ [(path.headD x, x)] }
    else if x ∈ w.seen then follow next depth path todo w
    else
      let inner := follow next depth (x :: path) (next x) { w with seen := w.seen.insert x }
      follow next depth path todo { inner with left := inner.left ++ [x] }

theorem follow_nil (next : Nat → List Nat) (depth : Nat) (path : List Nat) (w : Walk) :
    follow next depth path [] w = w := by
  cases depth <;> rfl

/-- What following a list of edges achieves, from the walk before to the walk after. -/
structure Explores (next : Nat → List Nat) (todo : List Nat) (before after : Walk) : Prop where
  seen : ∀ x ∈ before.seen, x ∈ after.seen
  left : ∀ x ∈ before.left, x ∈ after.left
  todo : ∀ x ∈ todo, x ∈ after.seen
  /-- A node entered on the way is left again, after all its edges. -/
  closed : ∀ x ∈ after.seen, x ∈ before.seen ∨ x ∈ after.left ∧ ∀ y ∈ next x, y ∈ after.seen

theorem Explores.cons {next : Nat → List Nat} {x : Nat} {todo : List Nat}
    {before after : Walk} (rest : Explores next todo before after) (entered : x ∈ before.seen) :
    Explores next (x :: todo) before after where
  seen := rest.seen
  left := rest.left
  todo := by
    intro y member
    rcases List.mem_cons.mp member with rfl | member
    · exact rest.seen y entered
    · exact rest.todo y member
  closed := rest.closed

theorem Explores.refl (next : Nat → List Nat) (w : Walk) : Explores next [] w w where
  seen _ member := member
  left _ member := member
  todo _ member := absurd member List.not_mem_nil
  closed _ member := Or.inl member

/-- A node is entered, its edges are followed, it is left, and the rest is followed. -/
theorem Explores.enter {next : Nat → List Nat} {x : Nat} {todo : List Nat} {w middle after : Walk}
    (inner : Explores next (next x) { w with seen := w.seen.insert x } middle)
    (outer : Explores next todo { middle with left := middle.left ++ [x] } after) :
    Explores next (x :: todo) w after where
  seen y member := outer.seen y (inner.seen y (IndexSet.mem_insert.mpr (Or.inr member)))
  left y member := outer.left y (List.mem_append_left _ (inner.left y member))
  todo y member := by
    rcases List.mem_cons.mp member with rfl | member
    · exact outer.seen y (inner.seen y (IndexSet.mem_insert.mpr (Or.inl rfl)))
    · exact outer.todo y member
  closed y member := by
    rcases outer.closed y member with early | late
    · rcases inner.closed y early with first | ⟨gone, edges⟩
      · rcases IndexSet.mem_insert.mp first with rfl | old
        · exact Or.inr ⟨outer.left y (by simp), fun z edge => outer.seen z (inner.todo z edge)⟩
        · exact Or.inl old
      · exact Or.inr ⟨outer.left y (List.mem_append_left _ gone),
          fun z edge => outer.seen z (edges z edge)⟩
    · exact Or.inr late

theorem follow_explores {next : Nat → List Nat} {n depth : Nat} {path todo : List Nat} {w : Walk}
    (inside : ∀ x < n, ∀ y ∈ next x, y < n) (bounded : ∀ x ∈ todo, x < n)
    (opened : ∀ x ∈ path, x ∈ w.seen) (deep : todo.length + room next n w.seen ≤ depth) :
    Explores next todo w (follow next depth path todo w) := by
  induction depth generalizing path todo w with
  | zero =>
    have none : todo = [] := List.eq_nil_of_length_eq_zero (by omega)
    subst none
    exact .refl next w
  | succ depth ih =>
    cases todo with
    | nil => exact .refl next w
    | cons x todo =>
      have bound := bounded x List.mem_cons_self
      have restBounded : ∀ y ∈ todo, y < n := fun y member =>
        bounded y (List.mem_cons_of_mem _ member)
      rw [List.length_cons] at deep
      unfold follow
      split
      · rename_i onPath
        have rest := ih (w := { w with back := w.back ++ [(path.headD x, x)] }) restBounded opened
          (by simp only; omega)
        exact Explores.cons ⟨rest.seen, rest.left, rest.todo, rest.closed⟩ (opened x onPath)
      · split
        · rename_i entered
          exact (ih restBounded opened (by omega)).cons entered
        · rename_i new
          -- The room that entering `x` takes is what its edges and the rest need.
          have spent := room_insert next bound new
          have inner : Explores next (next x) { w with seen := w.seen.insert x }
              (follow next depth (x :: path) (next x) { w with seen := w.seen.insert x }) := by
            refine ih (inside x bound) ?_ (by simp only; omega)
            intro y member
            rcases List.mem_cons.mp member with rfl | member
            · exact IndexSet.mem_insert.mpr (Or.inl rfl)
            · exact IndexSet.mem_insert.mpr (Or.inr (opened y member))
          have kept : ∀ y ∈ w.seen, y ∈ (follow next depth (x :: path) (next x)
              { w with seen := w.seen.insert x }).seen := fun y member =>
            inner.seen y (IndexSet.mem_insert.mpr (Or.inr member))
          have shrunk := room_mono next n kept
          exact inner.enter
            (ih restBounded (fun y member => kept y (opened y member)) (by simp only; omega))

/-- A walk leaves only nodes to which its edges lead. -/
theorem follow_left {next : Nat → List Nat} {depth x : Nat} {path todo : List Nat} {w : Walk}
    (gone : x ∈ (follow next depth path todo w).left) :
    x ∈ w.left ∨ ∃ y ∈ todo, Path next y x := by
  induction depth generalizing path todo w with
  | zero => exact Or.inl gone
  | succ depth ih =>
    cases todo with
    | nil => exact Or.inl gone
    | cons y todo =>
      have later : (∃ z ∈ todo, Path next z x) → ∃ z ∈ y :: todo, Path next z x :=
        fun ⟨z, member, leads⟩ => ⟨z, List.mem_cons_of_mem y member, leads⟩
      unfold follow at gone
      split at gone
      · have rest := ih gone
        exact rest.imp_right later
      · split at gone
        · have rest := ih gone
          exact rest.imp_right later
        · rcases ih gone with before | rest
          · rcases List.mem_append.mp before with inner | last
            · rcases ih inner with old | ⟨z, edge, leads⟩
              · exact Or.inl old
              · exact Or.inr ⟨y, List.mem_cons_self, leads.head edge⟩
            · have same := List.mem_singleton.mp last
              exact Or.inr ⟨y, List.mem_cons_self, by rw [same]⟩
          · exact Or.inr (later rest)

variable {next : Nat → List Nat} {n depth : Nat} {path todo : List Nat} {w : Walk}

/-- What holds of a walk that has room enough, if it holds of one without edges to follow and every
step preserves it: an edge to an open node, one to a node that was entered before, and one to a new
node, whose own edges are followed before the rest. -/
theorem follow_induction {P : List Nat → List Nat → Walk → Walk → Prop}
    (inside : ∀ x < n, ∀ y ∈ next x, y < n) (done : ∀ path w, P path [] w w)
    (back : ∀ path x todo w after, x ∈ path → x ∈ w.seen →
      P path todo { w with back := w.back ++ [(path.headD x, x)] } after → P path (x :: todo) w after)
    (old : ∀ path x todo w after, x ∉ path → x ∈ w.seen → P path todo w after →
      P path (x :: todo) w after)
    (enter : ∀ path x todo w inner after, x < n → x ∉ path → x ∉ w.seen →
      Explores next (next x) { w with seen := w.seen.insert x } inner →
      P (x :: path) (next x) { w with seen := w.seen.insert x } inner →
      P path todo { inner with left := inner.left ++ [x] } after → P path (x :: todo) w after)
    (bounded : ∀ x ∈ todo, x < n) (opened : ∀ x ∈ path, x ∈ w.seen)
    (deep : todo.length + room next n w.seen ≤ depth) :
    P path todo w (follow next depth path todo w) := by
  induction depth generalizing path todo w with
  | zero =>
    obtain rfl : todo = [] := List.eq_nil_of_length_eq_zero (by omega)
    exact done path w
  | succ depth ih =>
    cases todo with
    | nil => exact done path w
    | cons x todo =>
      have bound := bounded x List.mem_cons_self
      have restBounded : ∀ y ∈ todo, y < n := fun y member =>
        bounded y (List.mem_cons_of_mem _ member)
      rw [List.length_cons] at deep
      unfold follow
      split
      · rename_i onPath
        refine back path x todo w _ onPath (opened x onPath) (ih restBounded opened ?_)
        simp only
        omega
      · rename_i offPath
        split
        · rename_i entered
          exact old path x todo w _ offPath entered (ih restBounded opened (by omega))
        · rename_i new
          have spent := room_insert next bound new
          have openedInner : ∀ y ∈ x :: path, y ∈ w.seen.insert x := by
            intro y member
            rcases List.mem_cons.mp member with rfl | later
            · exact IndexSet.mem_insert.mpr (.inl rfl)
            · exact IndexSet.mem_insert.mpr (.inr (opened y later))
          have deepInner : (next x).length + room next n (w.seen.insert x) ≤ depth := by omega
          have explores := follow_explores (w := { w with seen := w.seen.insert x }) inside
            (inside x bound) openedInner deepInner
          have kept : ∀ y ∈ w.seen, y ∈ (follow next depth (x :: path) (next x)
              { w with seen := w.seen.insert x }).seen := fun y member =>
            explores.seen y (IndexSet.mem_insert.mpr (.inr member))
          have shrunk := room_mono next n kept
          refine enter path x todo w _ _ bound offPath new explores
            (ih (inside x bound) openedInner deepInner)
            (ih restBounded (fun y member => kept y (opened y member)) ?_)
          simp only
          omega

end Walk

end RegisterColoring
