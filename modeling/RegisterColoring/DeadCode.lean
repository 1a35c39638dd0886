import RegisterColoring.Liveness

namespace RegisterColoring

/-- A definition without an effect, of a temp that nobody reads. -/
def Instr.isDead (i : Instr) (live : IndexSet) : Bool :=
  match i.dest? with
  | some d => !i.hasEffect && d ∉ live
  | none => false

/-- An instruction that was removed, and the block from which. -/
structure Eliminated where
  block : BlockId
  instr : Instr
deriving DecidableEq

/-- The instructions of a block that are not dead. -/
def liveInstrs (points : List (Instr × IndexSet)) : List Instr :=
  (points.filter fun p => !p.1.isDead p.2).map (·.1)

/-- The dead instructions of a block. -/
def deadInstrs (points : List (Instr × IndexSet)) : List Instr :=
  (points.filter fun p => p.1.isDead p.2).map (·.1)

namespace Func

section Runs

variable {m : Type → Type} [Lookup m]

/-- The function without the instructions that are dead in blocks that can be reached. -/
def withoutDeadM (f : Func) (l : Liveness) : m Func := do
  let blocks ← l.onBlocksM f
    (fun _ block points => { block with instrs := liveInstrs points }) fun block => block
  return { f with blocks }

/-- The instructions that are dead in blocks that can be reached. -/
def deadCodeM (f : Func) (l : Liveness) : m (List Eliminated) := do
  let rows ← l.onBlocksM f
    (fun b _ points => (deadInstrs points).map (Eliminated.mk b)) fun _ => []
  return rows.flatten

end Runs

def withoutDead (f : Func) (l : Liveness) : Func := Id.run (f.withoutDeadM l)

def deadCode (f : Func) (l : Liveness) : List Eliminated := Id.run (f.deadCodeM l)

theorem withoutDead_def (f : Func) (l : Liveness) : f.withoutDead l =
    { f with
      blocks := f.blocks.mapIdx fun b block =>
        if b ∈ l.reachable then { block with instrs := liveInstrs (l.pairs b block) } else block } :=
  congrArg (fun blocks => { f with blocks }) (l.onBlocks_def f _ _)

theorem deadCode_def (f : Func) (l : Liveness) : f.deadCode l =
    (f.blocks.mapIdx fun b block =>
      if b ∈ l.reachable then (deadInstrs (l.pairs b block)).map (Eliminated.mk b)
      else []).flatten :=
  congrArg List.flatten (l.onBlocks_def f _ _)

end Func

/-- What an elimination has found. -/
structure DeadCode where
  /-- Liveness of the function that is left. -/
  liveness : Liveness
  /-- The instructions removed, in the order of removal. -/
  eliminated : List Eliminated
  /-- The number of rounds, with the last one that removed nothing. -/
  rounds : Nat
deriving DecidableEq

namespace DeadCode

/-- Remove dead code in at most `left` more rounds; `rounds` rounds have removed `gone`. -/
def eliminateFromM {ε : Type} {m : Type → Type} [Lookup m] [Pass ε m] (bound : Nat) :
    Nat → Nat → List Eliminated → Func → Func × Except ε DeadCode
  | 0, _, _, f => (f, Pass.lift (.error (.internal f.name (.deadCodeUnsettled bound) none)))
  | left + 1, rounds, gone, f =>
    match Liveness.analyzeM bound f with
    | .error e => (f, .error e)
    | .ok l =>
      match Pass.look (f.deadCodeM l) with
      | .error e => (f, .error e)
      | .ok dead =>
        if dead.isEmpty then (f, .ok ⟨l, gone, rounds + 1⟩)
        else
          match Pass.look (f.withoutDeadM l) with
          | .error e => (f, .error e)
          | .ok g => eliminateFromM bound left (rounds + 1) (gone ++ dead) g

/-- Remove dead code until none is left. `bound` limits both the rounds and the sweeps of each
liveness analysis. The function is part of the result also of a failure, as earlier rounds have
changed it. -/
def eliminateM {ε : Type} {m : Type → Type} [Lookup m] [Pass ε m] (bound : Nat) (f : Func) :
    Func × Except ε DeadCode :=
  eliminateFromM bound bound 0 [] f

def eliminateFrom (bound left rounds : Nat) (gone : List Eliminated) (f : Func) :
    Func × Except Failure DeadCode :=
  eliminateFromM bound left rounds gone f

def eliminate (bound : Nat) (f : Func) : Func × Except Failure DeadCode :=
  eliminateM bound f

section Rounds

variable {bound left rounds : Nat} {gone : List Eliminated} {f : Func}

theorem eliminateFrom_of_error {e : Failure} (failed : Liveness.analyze bound f = .error e) :
    eliminateFrom bound (left + 1) rounds gone f = (f, .error e) := by
  have run : (Liveness.analyzeM bound f : Except Failure Liveness) = .error e := failed
  simp only [eliminateFrom, eliminateFromM, run]

theorem eliminateFrom_of_ok {l : Liveness} (run : Liveness.analyze bound f = .ok l) :
    eliminateFrom bound (left + 1) rounds gone f =
      if (f.deadCode l).isEmpty then (f, .ok ⟨l, gone, rounds + 1⟩)
      else eliminateFrom bound left (rounds + 1) (gone ++ f.deadCode l) (f.withoutDead l) := by
  have ok : (Liveness.analyzeM bound f : Except Failure Liveness) = .ok l := run
  simp only [eliminateFrom, eliminateFromM, ok]
  rfl

end Rounds

end DeadCode

end RegisterColoring
