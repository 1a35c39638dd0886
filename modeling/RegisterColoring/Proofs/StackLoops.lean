import RegisterColoring.Proofs.Walks

namespace RegisterColoring

variable {α : Type} {next : Nat → List Nat} {n depth steps x y k : Nat} {stack : List (Nat × Nat)}

/-- The nodes of the frames on a stack. -/
abbrev openNodes (stack : List (Nat × Nat)) : List Nat := stack.map Prod.fst

/-- Each turn of a loop over a stack makes one step of a walk, and the loop ends with the stack. -/
structure StackLoop (next : Nat → List Nat) (run : Nat → List (Nat × Nat) → Walk → α)
    (result : Walk → α) : Prop where
  back : ∀ {steps x k y stack w}, (next x)[k]? = some y → y ∈ openNodes ((x, k) :: stack) →
    y ∈ w.seen → run (steps + 1) ((x, k) :: stack) w =
      run steps ((x, k + 1) :: stack) { w with back := w.back ++ [(x, y)] }
  old : ∀ {steps x k y stack w}, (next x)[k]? = some y → y ∉ openNodes ((x, k) :: stack) →
    y ∈ w.seen → run (steps + 1) ((x, k) :: stack) w = run steps ((x, k + 1) :: stack) w
  enter : ∀ {steps x k y stack w}, (next x)[k]? = some y → y ∉ openNodes ((x, k) :: stack) →
    y ∉ w.seen → run (steps + 1) ((x, k) :: stack) w =
      run steps ((y, 0) :: (x, k + 1) :: stack) { w with seen := w.seen.insert y }
  leave : ∀ {steps x k stack w}, (next x)[k]? = none → x ∉ openNodes stack →
    run (steps + 1) ((x, k) :: stack) w = run steps stack { w with left := w.left ++ [x] }
  done : ∀ {steps w}, run steps [] w = result w

namespace StackLoop

variable {run : Nat → List (Nat × Nat) → Walk → α} {result : Walk → α}

/-- From the first edge to follow, the loop takes `used` turns until all edges of the frame on top
have been followed. -/
def Follows (next : Nat → List Nat) (n : Nat) (run : Nat → List (Nat × Nat) → Walk → α)
    (path todo : List Nat) (before after : Walk) : Prop :=
  ∀ x k stack, path = openNodes ((x, k) :: stack) → todo = (next x).drop k →
    k ≤ (next x).length →
    ∃ used, used + room next n after.seen = todo.length + room next n before.seen ∧
      ∀ steps, run (used + steps) ((x, k) :: stack) before =
        run steps ((x, (next x).length) :: stack) after

/-- A turn that only moves on to the next edge. -/
theorem Follows.turn {path todo : List Nat} {before middle after : Walk}
    (seen : middle.seen = before.seen)
    (turn : ∀ x k stack steps, path = openNodes ((x, k) :: stack) → (next x)[k]? = some y →
      run (steps + 1) ((x, k) :: stack) before = run steps ((x, k + 1) :: stack) middle)
    (rest : Follows next n run path todo middle after) :
    Follows next n run path (y :: todo) before after := by
  intro x k stack opened ahead bound
  have edge : (next x)[k]? = some y := by
    rw [← List.head?_drop, ← ahead, List.head?_cons]
  have later : todo = (next x).drop (k + 1) := by
    rw [← List.tail_drop, ← ahead, List.tail_cons]
  have below := (List.getElem?_eq_some_iff.mp edge).1
  obtain ⟨used, spent, runs⟩ := rest x (k + 1) stack opened later below
  rw [seen] at spent
  refine ⟨used + 1, by rw [List.length_cons]; omega, fun steps => ?_⟩
  rw [Nat.add_right_comm, turn x k stack _ opened edge]
  exact runs steps

theorem follows (loop : StackLoop next run result) (inside : ∀ x < n, ∀ y ∈ next x, y < n)
    {path todo : List Nat} {w : Walk} (bounded : ∀ x ∈ todo, x < n)
    (opened : ∀ x ∈ path, x ∈ w.seen) (deep : todo.length + room next n w.seen ≤ depth) :
    Follows next n run path todo w (Walk.follow next depth path todo w) := by
  refine Walk.follow_induction (P := Follows next n run) inside ?done ?back ?old ?enter bounded
    opened deep
  case done =>
    intro path w x k stack _ ahead bound
    have last : k = (next x).length := Nat.le_antisymm bound (List.drop_eq_nil_iff.mp ahead.symm)
    subst last
    exact ⟨0, rfl, fun steps => by rw [Nat.zero_add]⟩
  case back =>
    intro path y todo w after onPath seen rest
    have seenSame : { w with back := w.back ++ [(path.headD y, y)] }.seen = w.seen := rfl
    refine Follows.turn seenSame (fun x k stack steps opened edge => ?_) rest
    subst opened
    exact loop.back edge onPath seen
  case old =>
    intro path y todo w after offPath seen rest
    refine Follows.turn rfl (fun x k stack steps opened edge => ?_) rest
    subst opened
    exact loop.old edge offPath seen
  case enter =>
    intro path y todo w inner after bound offPath new _ visit rest x k stack opened ahead _
    subst opened
    have edge : (next x)[k]? = some y := by
      rw [← List.head?_drop, ← ahead, List.head?_cons]
    have later : todo = (next x).drop (k + 1) := by
      rw [← List.tail_drop, ← ahead, List.tail_cons]
    have below := (List.getElem?_eq_some_iff.mp edge).1
    obtain ⟨first, spent, runs⟩ := visit y 0 ((x, k + 1) :: stack) rfl rfl (Nat.zero_le _)
    obtain ⟨second, spentRest, runsRest⟩ := rest x (k + 1) stack rfl later below
    have total := room_insert next bound new
    simp only at spent spentRest
    -- One turn enters the node and one leaves it, between them its edges are followed.
    refine ⟨first + second + 2, by rw [List.length_cons]; omega, fun steps => ?_⟩
    have leaves : (next y)[(next y).length]? = none := List.getElem?_eq_none (Nat.le_refl _)
    calc run (first + second + 2 + steps) ((x, k) :: stack) w
        = run (first + (second + 1 + steps)) ((y, 0) :: (x, k + 1) :: stack)
            { w with seen := w.seen.insert y } := by
          rw [show first + second + 2 + steps = first + (second + 1 + steps) + 1 by omega]
          exact loop.enter edge offPath new
      _ = run (second + 1 + steps) ((y, (next y).length) :: (x, k + 1) :: stack) inner := runs _
      _ = run (second + steps) ((x, k + 1) :: stack) { inner with left := inner.left ++ [y] } := by
          rw [Nat.add_right_comm]
          exact loop.leave leaves offPath
      _ = run steps ((x, (next x).length) :: stack) after := runsRest steps

/-- The loop ends with what the walk records. -/
theorem run_eq (loop : StackLoop next run result) (inside : ∀ x < n, ∀ y ∈ next x, y < n)
    (bound : x < n) (enough : room next n ∅ ≤ steps) (deep : room next n ∅ < depth) :
    run steps [(x, 0)] ⟨IndexSet.insert ∅ x, [], []⟩ =
      result (Walk.follow next depth [] [x] .start) := by
  obtain ⟨depth, rfl⟩ : ∃ d, depth = d + 1 := ⟨depth - 1, by omega⟩
  have total := room_insert next bound (IndexSet.not_mem_empty x)
  have opened : ∀ y ∈ [x], y ∈ IndexSet.insert ∅ x := fun y member =>
    IndexSet.mem_insert.mpr (.inl (List.mem_singleton.mp member))
  have deepEnough : (next x).length + room next n (IndexSet.insert ∅ x) ≤ depth := by omega
  have followed : Follows next n run [x] (next x) ⟨IndexSet.insert ∅ x, [], []⟩
      (Walk.follow next depth [x] (next x) ⟨IndexSet.insert ∅ x, [], []⟩) :=
    loop.follows inside (inside x bound) opened deepEnough
  obtain ⟨used, spent, runs⟩ := followed x 0 [] rfl rfl (Nat.zero_le _)
  simp only at spent
  have leaves : (next x)[(next x).length]? = none := List.getElem?_eq_none (Nat.le_refl _)
  obtain ⟨rest, rfl⟩ : ∃ rest, steps = used + (rest + 1) := ⟨steps - used - 1, by omega⟩
  rw [runs, loop.leave leaves List.not_mem_nil, loop.done]
  simp only [Walk.follow, List.not_mem_nil, if_false, Walk.start, IndexSet.not_mem_empty,
    Walk.follow_nil]

end StackLoop

theorem stackLoop_leaving (next : Nat → List Nat) : StackLoop next (fun steps stack w =>
    Id.run (leavingM next steps stack w.seen w.left)) Walk.left where
  back edge _ seen := by
    simp only [leavingM, bind_id, edge, if_pos seen]
  old edge _ seen := by
    simp only [leavingM, bind_id, edge, if_pos seen]
  enter edge _ new := by
    simp only [leavingM, bind_id, edge, if_neg new]
  leave last _ := by
    simp only [leavingM, bind_id, last]
  done {steps _} := by
    cases steps <;> rfl

/-- What a walk collects from the edges that lead back. -/
def collected (loop : Nat → Nat → IndexSet) (back : List (Nat × Nat)) : IndexMap IndexSet :=
  back.foldl (fun bodies e => bodies.insert e.2 (bodies.getD e.2 ∅ ∪ loop e.2 e.1)) ∅

theorem collected_append (loop : Nat → Nat → IndexSet) (back : List (Nat × Nat)) (x y : Nat) :
    collected loop (back ++ [(x, y)]) =
      (collected loop back).insert y ((collected loop back).getD y ∅ ∪ loop y x) := by
  rw [collected, List.foldl_append]
  rfl

theorem ofList_cons (x : Nat) (l : List Nat) :
    (IndexSet.ofList l).insert x = .ofList (x :: l) := by
  ext y
  simp

theorem ofList_cons_erase {l : List Nat} (once : x ∉ l) :
    (IndexSet.ofList (x :: l)).erase x = .ofList l := by
  ext y
  simp only [IndexSet.mem_erase, IndexSet.mem_ofList, List.mem_cons]
  constructor
  · rintro ⟨same | member, other⟩
    · exact absurd same other
    · exact member
  · exact fun member => ⟨.inr member, fun same => once (same ▸ member)⟩

/-- The open nodes are those on the stack. -/
theorem stackLoop_collecting (next : Nat → List Nat) (loop : Nat → Nat → IndexSet) :
    StackLoop next (fun steps stack w => Id.run (collectingM next loop steps stack w.seen
      (.ofList (openNodes stack)) (collected loop w.back))) fun w => collected loop w.back where
  back edge onPath _ := by
    simp only [collectingM, bind_id, edge, if_pos (IndexSet.mem_ofList.mpr onPath),
      collected_append]
    rfl
  old edge offPath seen := by
    simp only [collectingM, bind_id, edge, if_pos seen,
      if_neg fun member => offPath (IndexSet.mem_ofList.mp member)]
    rfl
  enter edge offPath new := by
    simp only [collectingM, bind_id, edge, if_neg new,
      if_neg fun member => offPath (IndexSet.mem_ofList.mp member), ofList_cons]
    rfl
  leave last once := by
    simp only [collectingM, bind_id, last]
    rw [openNodes, List.map_cons, ofList_cons_erase once]
  done {steps _} := by
    cases steps <;> rfl

end RegisterColoring
