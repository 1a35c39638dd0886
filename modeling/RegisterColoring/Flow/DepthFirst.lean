import RegisterColoring.IndexMap
import RegisterColoring.Lookup

namespace RegisterColoring

variable {m : Type → Type} [Monad m]

/-- The order in which a depth-first walk of at most `steps` steps leaves the nodes. The stack holds
the nodes that were entered and not yet left, each with the position of the edge to follow next. -/
def leavingM (next : Nat → m (List Nat)) :
    Nat → List (Nat × Nat) → IndexSet → List Nat → m (List Nat)
  | 0, _, _, left => pure left
  | _ + 1, [], _, left => pure left
  | steps + 1, (x, k) :: stack, entered, left => do
    let edges ← next x
    match edges[k]? with
    | some y =>
      if y ∈ entered then leavingM next steps ((x, k + 1) :: stack) entered left
      else leavingM next steps ((y, 0) :: (x, k + 1) :: stack) (entered.insert y) left
    | none => leavingM next steps stack entered (left ++ [x])

/-- What such a walk collects for the nodes to which an edge leads back while they are open. Of an
edge from `x` back to `y` it collects `loop y x`. -/
def collectingM (next : Nat → m (List Nat)) (loop : Nat → Nat → m IndexSet) :
    Nat → List (Nat × Nat) → IndexSet → IndexSet → IndexMap IndexSet → m (IndexMap IndexSet)
  | 0, _, _, _, bodies => pure bodies
  | _ + 1, [], _, _, bodies => pure bodies
  | steps + 1, (x, k) :: stack, entered, opened, bodies => do
    let edges ← next x
    match edges[k]? with
    | some y =>
      if y ∈ opened then do
        let body ← loop y x
        collectingM next loop steps ((x, k + 1) :: stack) entered opened
          (bodies.insert y (bodies.getD y ∅ ∪ body))
      else if y ∈ entered then
        collectingM next loop steps ((x, k + 1) :: stack) entered opened bodies
      else
        collectingM next loop steps ((y, 0) :: (x, k + 1) :: stack) (entered.insert y)
          (opened.insert y) bodies
    | none => collectingM next loop steps stack entered (opened.erase x) bodies

end RegisterColoring
