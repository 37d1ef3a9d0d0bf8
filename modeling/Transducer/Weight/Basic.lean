/-!
Weights are IEEE doubles kept as bits, so that signed zeros and every NaN stay apart. A weight has
a sign and a magnitude; magnitudes order like absolute values, infinity is one of them and the
NaNs lie above it.
-/

namespace Transducer

/-- A cost: the sixty-four bits of an IEEE double. -/
@[ext] structure Weight where
  bits : UInt64
  deriving DecidableEq, Repr

namespace Weight

/-- The bit of the sign. Magnitudes are below it. -/
def signBit : Nat := 0x8000000000000000

/-- The magnitude of infinity; larger magnitudes belong to NaNs. -/
def infinityMagnitude : Nat := 0x7FF0000000000000

def ofParts (negative : Bool) (magnitude : Nat) : Weight :=
  ⟨((if negative then signBit else 0) + magnitude % signBit).toUInt64⟩

def negative (w : Weight) : Bool := signBit ≤ w.bits.toNat

/-- The bits below the sign. -/
def magnitude (w : Weight) : Nat := w.bits.toNat % signBit

def zero : Weight := ⟨0⟩

def infinity : Weight := ⟨0x7FF0000000000000⟩

def negInfinity : Weight := ⟨0xFFF0000000000000⟩

instance : Inhabited Weight := ⟨zero⟩

def isNaN (w : Weight) : Bool := infinityMagnitude < w.magnitude

def isInfinite (w : Weight) : Bool := w.magnitude = infinityMagnitude

def isFinite (w : Weight) : Bool := w.magnitude < infinityMagnitude

/-- Both zeros. -/
def isZero (w : Weight) : Bool := w.magnitude = 0

/-- Numeric equality: the two zeros are equal and a NaN equals nothing. -/
def numEq (w v : Weight) : Bool :=
  !w.isNaN && (w = v || w.isZero && v.isZero)

/-- Numeric order: a NaN is below nothing and above nothing. -/
def numLt (w v : Weight) : Bool :=
  !w.isNaN && !v.isNaN && !(w.isZero && v.isZero) &&
    match w.negative, v.negative with
    | true, false => true
    | false, true => false
    | false, false => w.magnitude < v.magnitude
    | true, true => v.magnitude < w.magnitude

/-- The place of a weight in the total order: negative NaNs, negative numbers, `-0.0`, `0.0`,
positive numbers, positive NaNs. -/
def rank (w : Weight) : Int :=
  if w.negative then -1 - (w.magnitude : Int) else w.magnitude

instance : Ord Weight := ⟨fun w v => compare w.rank v.rank⟩

/-- The smaller weight, the second when neither is smaller; a NaN gives way to the other. -/
def lesser (w v : Weight) : Weight :=
  if v.isNaN || w.numLt v then w else v

theorem numEq_self {w : Weight} (h : w.isNaN = false) : w.numEq w = true := by
  simp [numEq, h]

theorem isFinite_eq_false_iff {w : Weight} :
    w.isFinite = false ↔ w.isNaN = true ∨ w.isInfinite = true := by
  simp only [isFinite, isNaN, isInfinite, decide_eq_true_eq, decide_eq_false_iff_not]
  omega

end Weight

end Transducer
