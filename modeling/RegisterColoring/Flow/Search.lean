import RegisterColoring.IndexSet
import RegisterColoring.Lookup

namespace RegisterColoring

/-- Which of the nodes that wait is taken next: the first one to come, or the last one. -/
inductive Discipline
  | queue
  | stack

/-- The nodes that wait, with new ones among them. The next one to be taken stands first. -/
def Discipline.add : Discipline → List Nat → List Nat → List Nat
  | queue, waiting, new => waiting ++ new
  | stack, waiting, new => new.reverse ++ waiting

/-- The nodes met by a search that takes at most `steps` of the nodes that wait. A node that was not
met before lets those behind it wait. -/
def searchM {m : Type → Type} [Monad m] (next : Nat → m (List Nat)) (d : Discipline) :
    Nat → List Nat → IndexSet → m IndexSet
  | 0, _, met => pure met
  | _ + 1, [], met => pure met
  | steps + 1, x :: waiting, met =>
    if x ∈ met then searchM next d steps waiting met
    else do
      let new ← next x
      searchM next d steps (d.add waiting new) (met.insert x)

def search (next : Nat → List Nat) (d : Discipline) (steps : Nat) (waiting : List Nat)
    (met : IndexSet) : IndexSet :=
  Id.run (searchM next d steps waiting met)

end RegisterColoring
