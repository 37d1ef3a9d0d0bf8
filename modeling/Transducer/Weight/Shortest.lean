import Transducer.Weight.Arithmetic
/-!
The shortest decimal of a weight. A unit is 5¹⁰⁷⁴ steps of 10⁻¹⁰⁷⁴, so every finite weight is a
whole number of such steps; the decimals with a given number of digits around it are that number
cut after so many digits, and the one above.
-/

namespace Transducer

/-- `digits · 10 ^ exponent`. -/
structure Decimal where
  digits : Nat
  exponent : Int
  deriving DecidableEq, Repr

/-- Which of two equally close decimals stands for a weight. -/
inductive Tie where
  | up
  | even
  deriving DecidableEq, Repr

namespace Decimal

/-- Steps of 10⁻¹⁰⁷⁴ in one unit of 2⁻¹⁰⁷⁴. -/
def stepsPerUnit : Nat := Nat.pow 5 1074

def finestExponent : Int := -1074

/-- The magnitude closest to a number of steps. -/
def magnitudeOfSteps (steps : Nat) : Nat := Weight.nearest steps stepsPerUnit

/-- The closer of two neighbouring numbers of digits, by what is left over above the lower one. -/
def closer (tie : Tie) (low rest scale : Nat) : Nat :=
  match compare (2 * rest) scale, tie with
  | .lt, _ => low
  | .gt, _ => low + 1
  | .eq, .up => low + 1
  | .eq, .even => low + low % 2

/-- Cuts `steps` to its leading digits by dropping `drop` of them, or takes the number above:
whichever reads back as `magnitude`, the closer one if both do. -/
def cut? (tie : Tie) (magnitude steps drop : Nat) : Option Decimal :=
  let scale := Nat.pow 10 drop
  let low := steps / scale
  let readsBack (digits : Nat) : Bool := magnitudeOfSteps (digits * scale) = magnitude
  let decimal (digits : Nat) : Decimal := ⟨digits, finestExponent + drop⟩
  if readsBack low then
    if readsBack (low + 1) then some (decimal (closer tie low (steps % scale) scale))
    else some (decimal low)
  else if readsBack (low + 1) then some (decimal (low + 1))
  else none

/-- The first power of ten from `guess` on that is larger than `n`; at most `count` are tried. -/
def lengthFrom (n : Nat) : (count guess : Nat) → Nat
  | 0, guess => guess
  | count + 1, guess => if n < Nat.pow 10 guess then guess else lengthFrom n count (guess + 1)

/-- How many decimal digits a number has. The guess is below that: a binary digit is worth more
than 0.301 decimal ones. -/
def length (n : Nat) : Nat := lengthFrom n (n.log2 + 2) (n.log2 * 301 / 1000)

/-- Moves trailing zeros from the digits into the exponent, at most `count` of them. -/
def trimZeros : (count : Nat) → Decimal → Decimal
  | 0, d => d
  | count + 1, d =>
    if d.digits % 10 = 0 then trimZeros count ⟨d.digits / 10, d.exponent + 1⟩ else d

/-- A decimal of at most seventeen digits that reads back as the magnitude, with as few digits
as that takes; the exact value if there were none. -/
def shortest (tie : Tie) (magnitude : Nat) : Decimal :=
  let steps := Weight.unitsOf magnitude * stepsPerUnit
  let length := length steps
  ((List.range 17).findSome? fun i => cut? tie magnitude steps (length - (i + 1))).getD
    ⟨steps, finestExponent⟩

end Decimal

end Transducer
