import Transducer.Weight.Shortest
/-!
Written numbers: sign, digits before and after the point, and a power of ten. A `Style` says how a
weight is written; `Weight.text` is the form that the tables and listings use.
-/

namespace Transducer

/-- A written number. An empty `fraction` has no point before it. -/
structure Numeral where
  negative : Bool
  whole : List Char
  fraction : List Char
  /-- The sign and the digits after an `e`. -/
  power : Option (Bool × List Char)
  deriving DecidableEq, Repr

namespace Numeral

def chars (n : Numeral) : List Char :=
  (if n.negative then ['-'] else []) ++ n.whole ++
    (if n.fraction.isEmpty then [] else '.' :: n.fraction) ++
    match n.power with
    | none => []
    | some (below, digits) => 'e' :: (if below then '-' else '+') :: digits

def text (n : Numeral) : String := String.ofList n.chars

/-- How weights are written. The point position of a number in [10ᵖ⁻¹, 10ᵖ) is `p`. -/
structure Style where
  tie : Tie
  /-- The point positions outside which a power of ten is written, if one ever is. -/
  positional : Option (Int × Int)
  /-- The last point position at which a whole number gets `.0`. -/
  pointUpTo : Int

namespace Style

def isPositional (style : Style) (point : Int) : Bool :=
  match style.positional with
  | none => true
  | some (first, last) => first ≤ point && point ≤ last

/-- Never a power of ten; a point for whole numbers below 10¹⁶. -/
def plain : Style := ⟨.up, none, 16⟩

/-- Powers of ten below 10⁻⁵ and from 10¹⁶ on. -/
def json : Style := ⟨.even, some (-4, 16), 16⟩

end Style

/-- Writes a decimal with its point in place. -/
def positional (style : Style) (negative : Bool) (digits : List Char) (point : Int) : Numeral :=
  let zeros (n : Int) : List Char := List.replicate n.toNat '0'
  if point ≤ 0 then ⟨negative, ['0'], zeros (-point) ++ digits, none⟩
  else if point < digits.length then
    ⟨negative, digits.take point.toNat, digits.drop point.toNat, none⟩
  else
    ⟨negative, digits ++ zeros (point - digits.length),
      if point ≤ style.pointUpTo then ['0'] else [], none⟩

/-- Writes a decimal with the point after its first digit. -/
def scientific (negative : Bool) (digits : List Char) (point : Int) : Numeral :=
  let power := point - 1
  ⟨negative, digits.take 1, digits.drop 1, some (power < 0, Nat.toDigits 10 power.natAbs)⟩

/-- The shortest numeral of a finite weight. -/
def ofWeight (style : Style) (w : Weight) : Numeral :=
  if w.isZero then ⟨w.negative, ['0'], ['0'], none⟩
  else
    let decimal := (Decimal.shortest style.tie w.magnitude).trimZeros 17
    let digits := Nat.toDigits 10 decimal.digits
    let point := digits.length + decimal.exponent
    if style.isPositional point then positional style w.negative digits point
    else scientific w.negative digits point

end Numeral

/-- The weight as tables and listings write it; a NaN has no sign. -/
def Weight.text (w : Weight) : String :=
  if w.isNaN then "NaN"
  else if w.isInfinite then if w.negative then "-inf" else "inf"
  else (Numeral.ofWeight .plain w).text

end Transducer
