import Transducer.Json.Basic
/-!
What JSON numbers mean. A number is read as a 64-bit significand and a power of ten: digits that do
not fit are dropped, those before the point raising the power. The significand is rounded to a
weight, which is then multiplied or divided by a rounded power of ten; two roundings, so the result
need not be the closest weight.
-/

namespace Transducer.Numeral

/-- The largest significand. -/
def maxSignificand : Nat := UInt64.size - 1

def digitValue (c : Char) : Nat := c.toNat - '0'.toNat

/-- Takes digits while they fit into the significand; the digits that are left. -/
def fill (significand : Nat) : List Char → Nat × List Char
  | [] => (significand, [])
  | c :: rest =>
    let next := significand * 10 + digitValue c
    if next ≤ maxSignificand then fill next rest else (significand, c :: rest)

/-- The significand of the digits, and the power of ten that they leave. -/
def significand (n : Numeral) : Nat × Int :=
  let (m, dropped) := fill 0 n.whole
  let (m, unread) := fill m n.fraction
  (m, (dropped.length : Int) - (n.fraction.length - unread.length : Nat))

/-- The power of ten that is written. -/
def writtenPower (n : Numeral) : Int :=
  match n.power with
  | none => 0
  | some (below, digits) =>
    let value := (digits.foldl (fun m c => m * 10 + digitValue c) 0 : Nat)
    if below then -(value : Int) else value

/-- The last power of ten that is a weight. -/
def lastPower : Nat := 308

/-- The weight closest to a power of ten. -/
def tenTo (power : Nat) : Weight := .ofNat (Nat.pow 10 power)

/-- Scales a weight by a power of ten; nothing if the result is infinite. Low powers are divided
out 308 at a time until nothing is left. -/
def scale (w : Weight) (power : Int) : Option Weight :=
  if 0 ≤ power then
    if power ≤ lastPower then
      let product := w * tenTo power.toNat
      if product.isInfinite then none else some product
    else if w.isZero then some w
    else none
  else if -lastPower ≤ power then some (w / tenTo power.natAbs)
  else if w.isZero then some w
  else scale (w / tenTo lastPower) (power + lastPower)
termination_by power.natAbs
decreasing_by simp only [lastPower] at *; omega

/-- The weight that a number means; nothing if it is too large. -/
def weight? (n : Numeral) : Option Weight :=
  let (m, power) := n.significand
  (scale (.ofNat m) (power + n.writtenPower)).map fun w =>
    Weight.ofParts n.negative w.magnitude

/-- The whole number that a numeral writes without sign, point or power, if it is small enough. -/
def nat? (n : Numeral) (limit : Nat) : Option Nat :=
  if n.negative || !n.fraction.isEmpty || n.power.isSome then none
  else
    match fill 0 n.whole with
    | (m, []) => if m ≤ limit then some m else none
    | _ => none

end Transducer.Numeral
