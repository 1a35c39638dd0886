import RegisterColoring.Source.Tables
import RegisterColoring.Lexeme

namespace RegisterColoring.Source

/-- The states after a production: those of its pieces go, and what is below leads to the next. -/
def reduceStates (p : Production) (states : List Nat) : Option (List Nat) :=
  match states.drop p.body.length with
  | [] => none
  | below :: rest => some (goto below p.makes :: below :: rest)

/-- The states after one reduction. If the token ahead calls for none, whether it can be shifted or
the end of the text be accepted. -/
def acceptsStep (ahead : Option Terminal) (states : List Nat) : Option (List Nat ⊕ Bool) :=
  match states with
  | [] => none
  | top :: _ =>
    match action top ahead with
    | .refuse => some (.inr false)
    | .shift _ => some (.inr true)
    | .accept => some (.inr true)
    | .reduce p => (reduceStates p states).map .inl

/-- Whether the states lead to the shift of a terminal, or accept the end of the text. -/
def accepts (ahead : Option Terminal) (states : List Nat) : Option Bool :=
  repeatM (acceptsStep ahead) states

/-- Those of some terminals that the states lead to the shift of, in the same order. -/
def acceptedOf (states : List Nat) : List Terminal → Option (List Terminal)
  | [] => some []
  | a :: others =>
    match accepts (some a) states, acceptedOf states others with
    | some true, some more => some (a :: more)
    | some false, some more => some more
    | _, _ => none

/-- The reader: its states, and the values of what has been read, the last first. There is a state
below all values. -/
structure Machine where
  states : List Nat
  values : List Value

namespace Machine

def start : Machine := ⟨[0], []⟩

/-- Put the values of a production's pieces together. -/
def reduce (m : Machine) (p : Production) : Option Machine :=
  match p.value? (m.values.take p.body.length).reverse, reduceStates p m.states with
  | some value, some states => some ⟨states, value :: m.values.drop p.body.length⟩
  | _, _ => none

/-- The program that has been read. -/
def program? (m : Machine) : Option Program :=
  match m.values with
  | .program p :: _ => some p
  | _ => none

/-- How the reader stands to the token ahead once it has made all reductions. -/
inductive Settled
  | shift (state : Nat) (m : Machine)
  | accept (program : Program)
  | refuse (m : Machine)

instance : Nonempty Settled := ⟨.refuse start⟩

/-- Make one reduction, or find that the token ahead calls for none. -/
def settleStep (ahead : Option Terminal) (m : Machine) : Option (Machine ⊕ Settled) :=
  match m.states with
  | [] => none
  | top :: _ =>
    match action top ahead with
    | .shift state => some (.inr (.shift state m))
    | .accept => m.program?.map fun program => .inr (.accept program)
    | .refuse => some (.inr (.refuse m))
    | .reduce p => (m.reduce p).map .inl

/-- Make the reductions that the token ahead calls for. -/
def settle (ahead : Option Terminal) (m : Machine) : Option Settled := repeatM (settleStep ahead) m

end Machine

/-- The first token that cannot stand where it does, or the end of the text if that is too early. -/
structure Mismatch where
  place : Nat
  found : Option Lexeme
  expected : List Terminal
deriving DecidableEq

namespace Machine

/-- The reader stops, and lists what its states lead to. -/
def mismatch (m : Machine) (place : Nat) (found : Option Lexeme) :
    Option (Except Mismatch Program) :=
  (acceptedOf m.states Terminal.all).map fun expected => .error ⟨place, found, expected⟩

/-- Read the rest of a program; `place` is where the text read so far ends. The reader has no result
if a value is not of the kind that its state stands for, or a reduction has no state below it. -/
def run (m : Machine) (place : Nat) : List Lexeme → Option (Except Mismatch Program)
  | [] =>
    match settle none m with
    | none => none
    | some (.accept program) => some (.ok program)
    | some (.refuse stuck) | some (.shift _ stuck) => stuck.mismatch place none
  | x :: rest =>
    match x.token.terminal? with
    | none => m.mismatch x.start (some x)
    | some a =>
      match settle (some a) m with
      | some (.shift state m) => run ⟨state :: m.states, .token x.token :: m.values⟩ x.stop rest
      | some (.refuse stuck) => stuck.mismatch x.start (some x)
      -- only the end of the text is accepted
      | some (.accept _) | none => none

end Machine

end RegisterColoring.Source
