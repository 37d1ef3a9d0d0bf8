import Transducer.Weight.Basic
/-!
A weight is its sign and its magnitude.
-/

namespace Transducer.Weight

variable {w v : Weight} {m : Nat}

theorem magnitude_lt (w : Weight) : w.magnitude < signBit := Nat.mod_lt _ (by decide)

theorem toNat_bits (w : Weight) :
    w.bits.toNat = (if w.negative then signBit else 0) + w.magnitude := by
  have lt : w.bits.toNat < 2 * signBit := w.bits.toNat_lt
  cases h : w.negative with
  | true =>
    have le : signBit ≤ w.bits.toNat := by simpa [negative] using h
    have e : w.magnitude = w.bits.toNat - signBit := by
      rw [magnitude, Nat.mod_eq_sub_mod le, Nat.mod_eq_of_lt (by omega)]
    simp only [if_true]
    omega
  | false =>
    have less : w.bits.toNat < signBit := by simpa [negative] using h
    simp [magnitude, Nat.mod_eq_of_lt less]

theorem eq_of_parts (hn : w.negative = v.negative) (hm : w.magnitude = v.magnitude) : w = v := by
  have bits : w.bits.toNat = v.bits.toNat := by rw [toNat_bits w, toNat_bits v, hn, hm]
  exact Weight.ext (UInt64.toNat_inj.mp bits)

theorem toNat_bits_ofParts (negative : Bool) (h : m < signBit) :
    (ofParts negative m).bits.toNat = (if negative then signBit else 0) + m := by
  have bound : (if negative then signBit else 0) + m < 2 * signBit := by
    split <;> omega
  rw [ofParts, Nat.mod_eq_of_lt h]
  exact UInt64.toNat_ofNat_of_lt' bound

theorem negative_ofParts (negative : Bool) (h : m < signBit) :
    (ofParts negative m).negative = negative := by
  rw [Weight.negative, toNat_bits_ofParts negative h]
  cases negative with
  | false => simpa using h
  | true => simp

theorem magnitude_ofParts (negative : Bool) (h : m < signBit) :
    (ofParts negative m).magnitude = m := by
  rw [magnitude, toNat_bits_ofParts negative h]
  cases negative <;> simp [Nat.mod_eq_of_lt h]

theorem ofParts_parts (w : Weight) : ofParts w.negative w.magnitude = w :=
  eq_of_parts (negative_ofParts _ w.magnitude_lt) (magnitude_ofParts _ w.magnitude_lt)

end Transducer.Weight
