import RegisterColoring.Failure

namespace RegisterColoring

/-- A way to run what looks things up. -/
class Lookup (m : Type → Type) extends Monad m where
  /-- Go on with what was found. Where nothing was, the run may take the other value for it, or end. -/
  orElse {α : Type} (found : Option α) (other : α) : m α

/-- A plain run takes the other value. -/
instance : Lookup Id where
  orElse found other := found.getD other

/-- A way to run what may also fail: its errors, and how it makes the look-ups of `m`. -/
class Pass (ε : Type) (m : outParam (Type → Type)) where
  look {α : Type} : m α → Except ε α
  lift {α : Type} : Except Failure α → Except ε α
  /-- The error for a counter of temps at its end. -/
  noTemp (counter : Nat) : ε
  /-- The error for a counter of slots at its end. -/
  noSlot (counter : Nat) : ε

instance : Pass Failure Id where
  look := .ok
  lift outcome := outcome
  noTemp _ := .fault .counterExhausted
  noSlot _ := .fault .counterExhausted

theorem Pass.look_id {α : Type} (x : Id α) : (look x : Except Failure α) = .ok x := rfl

theorem Pass.lift_failure {α : Type} (outcome : Except Failure α) :
    (lift outcome : Except Failure α) = outcome := rfl

end RegisterColoring
