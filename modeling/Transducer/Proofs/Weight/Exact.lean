import Transducer.Proofs.Weight.Shortest
/-!
Whole numbers that weights hold without rounding. Their products and quotients are rounded once, so
such a result is the weight closest to the exact one; for a power of ten that is the weight whose
decimal it is.
-/

namespace Transducer

namespace Weight

variable {e m n q : Nat}

theorem mul_unitsPerOne (q e : Nat) : q * 2 ^ e * unitsPerOne = q * 2 ^ (e + 1074) := by
  rw [unitsPerOne, Nat.one_shiftLeft, Nat.mul_assoc, Nat.pow_add]

theorem unitsPerOne_pos : 0 < unitsPerOne := one_shiftLeft_pos 1074

/-- The leading bit of a significand counts one place in the magnitude. -/
theorem unitsOf_shifted (lead : leadingBit ≤ q) (fits : q < 2 * leadingBit) (e : Nat) :
    unitsOf (e * leadingBit + q) = q * 2 ^ e := by
  have bit : 0 < leadingBit := by decide
  have parts : e * leadingBit + q = leadingBit * (e + 1) + (q - leadingBit) := by
    rw [Nat.mul_comm leadingBit, Nat.add_mul]
    omega
  have low : q - leadingBit < leadingBit := by omega
  have high : ¬ leadingBit * (e + 1) + (q - leadingBit) < leadingBit := by
    have := Nat.le_mul_of_pos_right leadingBit (Nat.succ_pos e)
    omega
  rw [parts, unitsOf, if_neg high, Nat.mul_add_mod, Nat.mod_eq_of_lt low, Nat.mul_add_div bit,
    Nat.div_eq_of_lt low, Nat.shiftLeft_eq, Nat.sub_add_cancel lead]
  rfl

/-- A significand with zero bits behind it is the number of units of some magnitude. -/
theorem exists_unitsOf (fits : q < 2 * leadingBit) (room : e ≤ 2045) :
    ∃ m < infinityMagnitude, unitsOf m = q * 2 ^ e := by
  have top : infinityMagnitude = 2047 * leadingBit := by decide
  induction e generalizing q with
  | zero =>
    refine ⟨q, by omega, ?_⟩
    by_cases lead : leadingBit ≤ q
    · have value := unitsOf_shifted lead fits 0
      rwa [Nat.zero_mul, Nat.zero_add] at value
    · rw [unitsOf, if_pos (Nat.lt_of_not_le lead), Nat.pow_zero, Nat.mul_one]
  | succ e ih =>
    by_cases lead : leadingBit ≤ q
    · refine ⟨(e + 1) * leadingBit + q, ?_, unitsOf_shifted lead fits (e + 1)⟩
      have := Nat.mul_le_mul_right leadingBit room
      omega
    · have double : 2 * q < 2 * leadingBit := by omega
      obtain ⟨m, small, value⟩ := ih double (by omega)
      refine ⟨m, small, ?_⟩
      rw [value, Nat.pow_succ', Nat.mul_comm 2 q, Nat.mul_assoc]

/-- A whole number that is not rounded. -/
structure Whole (n : Nat) : Prop where
  positive : (ofNat n).negative = false
  finite : (ofNat n).magnitude < infinityMagnitude
  units : (ofNat n).units = n * unitsPerOne

theorem whole_of_fits (fits : q < 2 * leadingBit) (room : e ≤ 971) : Whole (q * 2 ^ e) := by
  obtain ⟨m, small, value⟩ := exists_unitsOf fits (show e + 1074 ≤ 2045 by omega)
  have sign : infinityMagnitude < signBit := by decide
  have same : q * 2 ^ e * unitsPerOne = unitsOf m := by rw [value, mul_unitsPerOne]
  have rounded : ofNat (q * 2 ^ e) = ofParts false m := by
    rw [ofNat, same, nearest_unitsOf (Nat.le_of_lt small)]
  have magnitude : (ofNat (q * 2 ^ e)).magnitude = m := by
    rw [rounded, magnitude_ofParts false (small.trans sign)]
  refine ⟨?_, ?_, ?_⟩
  · rw [rounded, negative_ofParts false (small.trans sign)]
  · rw [magnitude]
    exact small
  · rw [units, magnitude, same]

theorem whole_of_lt (fits : n < 2 * leadingBit) : Whole n := by
  have whole := whole_of_fits fits (Nat.zero_le 971)
  rwa [Nat.pow_zero, Nat.mul_one] at whole

/-- Powers of ten are not rounded while the power of five in them fits. -/
theorem whole_ten_pow {k : Nat} (h : k ≤ 22) : Whole (10 ^ k) := by
  have split : 10 ^ k = 5 ^ k * 2 ^ k := by rw [← Nat.mul_pow]
  rw [split]
  apply whole_of_fits
  · exact (Nat.pow_le_pow_right (by decide) h).trans_lt (by decide)
  · omega

theorem Whole.isNaN (h : Whole n) : (ofNat n).isNaN = false :=
  decide_eq_false (Nat.lt_asymm h.finite)

theorem Whole.isInfinite (h : Whole n) : (ofNat n).isInfinite = false :=
  decide_eq_false (Nat.ne_of_lt h.finite)

theorem Whole.isZero (h : Whole n) (some : 0 < n) : (ofNat n).isZero = false := by
  apply decide_eq_false
  intro zero
  have units := h.units
  rw [Weight.units, zero] at units
  have pos := Nat.mul_pos some unitsPerOne_pos
  rw [← units] at pos
  exact absurd pos (by decide)

theorem mul_ofNat (hn : Whole n) (hm : Whole m) :
    ofNat n * ofNat m = ofParts false (nearest (n * m * unitsPerOne) 1) := by
  have common := nearest_mul_mul (n * m * unitsPerOne) 1 unitsPerOne_pos
  have product : n * unitsPerOne * (m * unitsPerOne) = n * m * unitsPerOne * unitsPerOne := by
    rw [Nat.mul_mul_mul_comm, Nat.mul_assoc (n * m)]
  show mul (ofNat n) (ofNat m) = _
  rw [mul, carriedNaN?, hn.isNaN, hm.isNaN]
  dsimp only [if_false, Bool.false_eq_true]
  rw [hn.isInfinite, hm.isInfinite, hn.positive, hm.positive, hn.units, hm.units, product,
    ← common, Nat.one_mul]
  rfl

theorem div_ofNat (hn : Whole n) (hm : Whole m) (some : 0 < m) :
    ofNat n / ofNat m = ofParts false (nearest (n * unitsPerOne) m) := by
  have common := nearest_mul_mul (n * unitsPerOne) m unitsPerOne_pos
  show div (ofNat n) (ofNat m) = _
  rw [div, carriedNaN?, hn.isNaN, hm.isNaN]
  dsimp only [if_false, Bool.false_eq_true]
  rw [hn.isInfinite, hm.isInfinite, hm.isZero some, hn.positive, hm.positive, hn.units, hm.units,
    common]
  rfl

end Weight

namespace Decimal

open Weight

variable {d : Decimal} {m : Nat}

/-- One is as many steps as it has units and a unit has steps. The exponent is a variable, so that
the power is not computed. -/
theorem mul_ten_pow (n : Nat) {k : Nat} (h : k = 1074) :
    n * 10 ^ k = n * unitsPerOne * stepsPerUnit := by
  unfold stepsPerUnit
  rw [unitsPerOne, ← h, Nat.one_shiftLeft, Nat.pow_eq, Nat.mul_assoc, ← Nat.mul_pow]

theorem Denotes.nearest_mul (h : d.Denotes m) (k : Nat) (up : d.exponent = k) :
    nearest (d.digits * 10 ^ k * unitsPerOne) 1 = m := by
  have finest : finestExponent = -1074 := rfl
  obtain ⟨fine, same⟩ : ∃ fine : Nat, fine = 1074 := ⟨_, rfl⟩
  have places : (d.exponent - finestExponent).toNat = k + fine := by omega
  have common := nearest_mul_mul (d.digits * 10 ^ k * unitsPerOne) 1 stepsPerUnit_pos
  rw [Nat.one_mul, ← mul_ten_pow _ same, Nat.mul_assoc, ← Nat.pow_add, ← places] at common
  exact common.symm.trans h.reads

theorem Denotes.nearest_div (h : d.Denotes m) (k : Nat) (down : d.exponent = -k) :
    nearest (d.digits * unitsPerOne) (10 ^ k) = m := by
  have coarse := h.coarse
  have finest : finestExponent = -1074 := rfl
  have places : (d.exponent - finestExponent).toNat + k = 1074 := by omega
  have ten : 0 < 10 ^ k := Nat.pow_pos (by decide)
  have all : steps d * 10 ^ k = d.digits * unitsPerOne * stepsPerUnit := by
    rw [steps, Nat.mul_assoc, ← Nat.pow_add, mul_ten_pow _ places]
  have reads := h.reads
  rw [magnitudeOfSteps, ← nearest_mul_mul _ _ ten, all, Nat.mul_comm stepsPerUnit,
    nearest_mul_mul _ _ stepsPerUnit_pos] at reads
  exact reads

end Decimal

end Transducer
