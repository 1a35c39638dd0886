namespace RegisterColoring

/-- The price of spilling a temp. Temps of spill code have no finite one. -/
inductive Cost
  | finite (n : Nat)
  | infinite
deriving DecidableEq

def Cost.text : Cost → String
  | finite n => toString n
  | infinite => "inf"

/-- The quotient rounded to the nearest integer, a tie to the even one. -/
def roundDiv (n d : Nat) : Nat :=
  let q := n / d
  let r := n % d
  if 2 * r < d then q
  else if d < 2 * r then q + 1
  else q + q % 2

/-- A weight: `mantissa` over the power of two with exponent `scale`, or infinite. -/
inductive Weight
  | finite (mantissa : Nat) (scale : Int)
  | infinite
deriving DecidableEq

namespace Weight

/-- The number of binary digits of a mantissa. -/
def precision : Nat := 53

/-- The exponent of the largest power of two that is not above `n / d`. -/
def exponentOf (n d : Nat) : Int :=
  let e : Int := (Nat.log2 n : Int) - (Nat.log2 d : Int)
  if n <<< Nat.log2 d < d <<< Nat.log2 n then e - 1 else e

/-- The quotient of two positive numbers to the nearest mantissa of full precision. -/
def ofQuotient (n d : Nat) : Weight :=
  let scale : Int := (precision : Int) - 1 - exponentOf n d
  finite (roundDiv (n <<< scale.toNat) (d <<< (-scale).toNat)) scale

/-- The weight of a temp of the given cost and degree. -/
def ofCost (c : Cost) (degree : Nat) : Weight :=
  match c with
  | .infinite => infinite
  | .finite n =>
    if degree = 0 then infinite
    else if n = 0 then finite 0 0
    else ofQuotient n degree

/-- Whether the first weight is smaller. -/
def lt : Weight → Weight → Bool
  | finite m s, finite n t => m <<< (t - s).toNat < n <<< (s - t).toNat
  | finite .., infinite => true
  | infinite, _ => false

/-- The weight with two places. -/
def text : Weight → String
  | infinite => "inf"
  | finite m s =>
    let hundredths := roundDiv ((m * 100) <<< (-s).toNat) (1 <<< s.toNat)
    let fraction := hundredths % 100
    toString (hundredths / 100) ++ "." ++ (if fraction < 10 then "0" else "") ++ toString fraction

end Weight

end RegisterColoring
