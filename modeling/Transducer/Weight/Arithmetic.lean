import Transducer.Weight.Basic
/-!
Rounded arithmetic on weights. A finite weight is a whole number of units of 2⁻¹⁰⁷⁴, so sums,
products and quotients are computed exactly on natural numbers and rounded once, by `nearest`.
-/

namespace Transducer.Weight

/-- One as a number of units, 2¹⁰⁷⁴. -/
def unitsPerOne : Nat := 1 <<< 1074

/-- The leading bit of a significand, which the magnitudes from here on leave out. What they have
above their fraction counts the places by which the significand is shifted. -/
def leadingBit : Nat := 0x10000000000000

/-- The absolute value of a finite magnitude in units of 2⁻¹⁰⁷⁴. -/
def unitsOf (magnitude : Nat) : Nat :=
  if magnitude < leadingBit then magnitude
  else (magnitude % leadingBit + leadingBit) <<< (magnitude / leadingBit - 1)

def units (w : Weight) : Nat := unitsOf w.magnitude

/-- The whole number closest to `num / den`, the even one of two. -/
def roundHalfEven (num den : Nat) : Nat :=
  let low := num / den
  match compare (2 * (num % den)) den with
  | .lt => low
  | .eq => low + low % 2
  | .gt => low + 1

/-- The magnitude of the double closest to `num / den` units, ties to the even one; what lies
past the largest double is infinite. -/
def nearest (num den : Nat) : Nat :=
  let exponent := (num / den).log2 - 52
  min infinityMagnitude (exponent * leadingBit + roundHalfEven num (den <<< exponent))

/-- The NaN of an operation that has no value. -/
def invalid : Weight := ⟨0xFFF8000000000000⟩

/-- A NaN operand as a result: its bits with the quiet bit set. -/
def quieted (w : Weight) : Weight := ⟨w.bits ||| 0x0008000000000000⟩

/-- The result that the special operands of a binary operation force, if any is a NaN. -/
def carriedNaN? (w v : Weight) : Option Weight :=
  if w.isNaN then some w.quieted else if v.isNaN then some v.quieted else none

def add (w v : Weight) : Weight :=
  match carriedNaN? w v with
  | some n => n
  | none =>
    if w.isInfinite then
      if v.isInfinite && w.negative != v.negative then invalid else w
    else if v.isInfinite then v
    else if w.negative = v.negative then ofParts w.negative (nearest (w.units + v.units) 1)
    else match compare w.units v.units with
      | .eq => zero
      | .gt => ofParts w.negative (nearest (w.units - v.units) 1)
      | .lt => ofParts v.negative (nearest (v.units - w.units) 1)

def mul (w v : Weight) : Weight :=
  match carriedNaN? w v with
  | some n => n
  | none =>
    let sign := w.negative != v.negative
    if w.isInfinite || v.isInfinite then
      if w.isZero || v.isZero then invalid else ofParts sign infinityMagnitude
    else ofParts sign (nearest (w.units * v.units) unitsPerOne)

def div (w v : Weight) : Weight :=
  match carriedNaN? w v with
  | some n => n
  | none =>
    let sign := w.negative != v.negative
    if w.isInfinite then
      if v.isInfinite then invalid else ofParts sign infinityMagnitude
    else if v.isInfinite then ofParts sign 0
    else if v.isZero then
      if w.isZero then invalid else ofParts sign infinityMagnitude
    else ofParts sign (nearest (w.units * unitsPerOne) v.units)

instance : Add Weight := ⟨add⟩
instance : Mul Weight := ⟨mul⟩
instance : Div Weight := ⟨div⟩

/-- The weight closest to a whole number. -/
def ofNat (n : Nat) : Weight := ofParts false (nearest (n * unitsPerOne) 1)

end Transducer.Weight
