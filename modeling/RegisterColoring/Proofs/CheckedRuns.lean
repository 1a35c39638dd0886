import RegisterColoring.Proofs.Searches

namespace RegisterColoring.Checked

/-- Why a checked run halts. -/
inductive Halt
  /-- It looks for something that does not exist. -/
  | missing
  /-- It asks for a fresh temp, with the counter at the given value. -/
  | freshTemp (counter : Nat)
  /-- It asks for a slot, with the counter at the given value. -/
  | allocSlot (counter : Nat)
  /-- The operation itself reports a failure. -/
  | failed (reason : Failure)
deriving DecidableEq

/-- The outcome of an operation, as the one of a checked run. -/
def lift {α : Type} : Except Failure α → Except Halt α
  | .ok a => .ok a
  | .error e => .error (.failed e)

/-- A checked run halts where nothing is found. -/
instance : Lookup (Except Halt) where
  orElse found _ := found.elim (.error .missing) .ok

instance : Pass Halt (Except Halt) where
  look outcome := outcome
  lift := lift
  noTemp := .freshTemp
  noSlot := .allocSlot

variable {α β σ : Type}

/-- A checked run does not halt, and it finds what the plain run finds. -/
def Finds (checked : Except Halt α) (plain : Id α) : Prop := checked = .ok plain.run

namespace Finds

theorem pure (a : α) : Finds (pure a) (pure a) := rfl

theorem bind {checked : Except Halt α} {plain : Id α} {next : α → Except Halt β}
    {after : α → Id β} (first : Finds checked plain)
    (later : Finds (next plain.run) (after plain.run)) :
    Finds (checked >>= next) (plain >>= after) := by
  rw [Finds, first]
  exact later

theorem orElse {found : Option α} {x : α} (known : found = some x) (other : α) :
    Finds (Lookup.orElse found other) (Lookup.orElse found other) := by
  subst known
  rfl

/-- A run goes on with what is found. -/
theorem orElse_bind {found : Option α} {x other : α} {next : α → Except Halt β} {after : α → Id β}
    (known : found = some x) (later : Finds (next x) (after x)) :
    Finds (Lookup.orElse found other >>= next) (Lookup.orElse found other >>= after) := by
  subst known
  exact later

/-- A position inside a list has an entry. -/
theorem entry {l : List α} {n : Nat} (bound : n < l.length) (other : α) :
    Finds (Lookup.orElse l[n]? other) (Lookup.orElse l[n]? other) :=
  orElse (List.getElem?_eq_getElem bound) other

theorem mapM {check : α → Except Halt β} {value : α → Id β} {l : List α}
    (each : ∀ x ∈ l, Finds (check x) (value x)) : Finds (l.mapM check) (l.mapM value) := by
  induction l with
  | nil => rfl
  | cons x rest ih =>
    rw [List.mapM_cons, List.mapM_cons]
    refine (each x List.mem_cons_self).bind (.bind (ih fun y member => ?_) (.pure _))
    exact each y (List.mem_cons_of_mem x member)

/-- Steps that succeed as long as an invariant holds make a loop that succeeds. -/
theorem foldlM {check : σ → α → Except Halt σ} {step : σ → α → Id σ} {P : σ → Prop} {l : List α}
    (each : ∀ x ∈ l, ∀ s, P s → Finds (check s x) (step s x) ∧ P (step s x).run) {s : σ}
    (start : P s) : Finds (l.foldlM check s) (l.foldlM step s) ∧ P (l.foldlM step s).run := by
  induction l generalizing s with
  | nil => exact ⟨rfl, start⟩
  | cons x rest ih =>
    obtain ⟨first, next⟩ := each x List.mem_cons_self s start
    obtain ⟨later, last⟩ := ih (fun y member => each y (List.mem_cons_of_mem x member)) next
    rw [List.foldlM_cons, List.foldlM_cons]
    exact ⟨first.bind later, last⟩

theorem findSomeM? {check : α → Except Halt (Option β)} {value : α → Id (Option β)} {l : List α}
    (each : ∀ x ∈ l, Finds (check x) (value x)) :
    Finds (l.findSomeM? check) (l.findSomeM? value) := by
  induction l with
  | nil => rfl
  | cons x rest ih =>
    unfold List.findSomeM?
    refine (each x List.mem_cons_self).bind ?_
    cases (value x).run with
    | some b => exact .pure _
    | none => exact ih fun y member => each y (List.mem_cons_of_mem x member)

section Traversals

variable {check : Nat → Except Halt (List Nat)} {next : Nat → Id (List Nat)} {n steps : Nat}
  {stack : List (Nat × Nat)} (each : ∀ x < n, Finds (check x) (next x))
  (inside : ∀ x < n, ∀ y ∈ (next x).run, y < n)
include each inside

theorem searchM {d : Discipline} {waiting : List Nat} {met : IndexSet}
    (bounded : ∀ x ∈ waiting, x < n) :
    Finds (searchM check d steps waiting met) (searchM next d steps waiting met) := by
  induction steps generalizing waiting met with
  | zero => rfl
  | succ steps ih =>
    cases waiting with
    | nil => rfl
    | cons x waiting =>
      have bound := bounded x List.mem_cons_self
      have later : ∀ y ∈ waiting, y < n := fun y member =>
        bounded y (List.mem_cons_of_mem x member)
      unfold RegisterColoring.searchM
      split
      · exact ih later
      · exact (each x bound).bind (ih fun y member =>
          (Discipline.mem_add.mp member).elim (later y) (inside x bound y))

theorem leavingM {entered : IndexSet} {left : List Nat} (bounded : ∀ e ∈ stack, e.1 < n) :
    Finds (leavingM check steps stack entered left) (leavingM next steps stack entered left) := by
  induction steps generalizing stack entered left with
  | zero => rfl
  | succ steps ih =>
    cases stack with
    | nil => rfl
    | cons frame stack =>
      obtain ⟨x, k⟩ := frame
      obtain ⟨bound, later⟩ := List.forall_mem_cons.mp bounded
      unfold RegisterColoring.leavingM
      refine (each x bound).bind ?_
      have top : ∀ e ∈ (x, k + 1) :: stack, e.1 < n := List.forall_mem_cons.mpr ⟨bound, later⟩
      cases edge : (next x).run[k]? with
      | none => exact ih later
      | some y =>
        simp only
        split
        · exact ih top
        · exact ih (List.forall_mem_cons.mpr ⟨inside x bound y (List.mem_of_getElem? edge), top⟩)

theorem collectingM {checkLoop : Nat → Nat → Except Halt IndexSet}
    {loop : Nat → Nat → Id IndexSet}
    (loops : ∀ x < n, ∀ y < n, Finds (checkLoop x y) (loop x y)) {entered opened : IndexSet}
    {bodies : IndexMap IndexSet} (bounded : ∀ e ∈ stack, e.1 < n) :
    Finds (collectingM check checkLoop steps stack entered opened bodies)
      (collectingM next loop steps stack entered opened bodies) := by
  induction steps generalizing stack entered opened bodies with
  | zero => rfl
  | succ steps ih =>
    cases stack with
    | nil => rfl
    | cons frame stack =>
      obtain ⟨x, k⟩ := frame
      obtain ⟨bound, later⟩ := List.forall_mem_cons.mp bounded
      unfold RegisterColoring.collectingM
      refine (each x bound).bind ?_
      have top : ∀ e ∈ (x, k + 1) :: stack, e.1 < n := List.forall_mem_cons.mpr ⟨bound, later⟩
      cases edge : (next x).run[k]? with
      | none => exact ih later
      | some y =>
        have yBound := inside x bound y (List.mem_of_getElem? edge)
        simp only
        split
        · exact (loops y yBound x bound).bind (ih top)
        · split
          · exact ih top
          · exact ih (List.forall_mem_cons.mpr ⟨yBound, top⟩)

end Traversals

end Finds

/-- A checked run ends as the operation does, without a halt of its own. -/
def Lifts (checked : Except Halt α) (outcome : Except Failure α) : Prop := checked = lift outcome

namespace Lifts

theorem ok (a : α) : Lifts (.ok a) (.ok a) := rfl

theorem lift (outcome : Except Failure α) : Lifts (Pass.lift outcome) (Pass.lift outcome) := rfl

theorem bind {checked : Except Halt α} {outcome : Except Failure α} {next : α → Except Halt β}
    {after : α → Except Failure β} (first : Lifts checked outcome)
    (later : ∀ a, outcome = .ok a → Lifts (next a) (after a)) :
    Lifts (checked.bind next) (outcome.bind after) := by
  rw [Lifts, first]
  cases outcome with
  | error e => rfl
  | ok a => exact later a rfl

theorem map {checked : Except Halt α} {outcome : Except Failure α} (first : Lifts checked outcome)
    (change : α → β) : Lifts (checked.map change) (outcome.map change) := by
  rw [Lifts, first]
  cases outcome <;> rfl

theorem look {checked : Except Halt α} {plain : Id α} (finds : Finds checked plain) :
    Lifts (Pass.look checked) (Pass.look plain) := finds

/-- An operation goes on with what its look-ups find. -/
theorem look_bind {checked : Except Halt α} {plain : Id α} {next : α → Except Halt β}
    {after : α → Except Failure β} (first : Finds checked plain)
    (later : Lifts (next plain.run) (after plain.run)) :
    Lifts ((Pass.look checked).bind next) ((Pass.look plain).bind after) := by
  subst first
  exact later

end Lifts

end RegisterColoring.Checked
