import Transducer.Proofs.Weight.Rounding
/-!
Sums that start from zero. Main statements: a zero that is added changes nothing, equal weights have
the same effect, and adding a weight that is not negative gives no smaller sum.
-/

namespace Transducer.Weight

variable {c w v : Weight} {n m : Nat}

/-- What a sum that started from zero can be: never the negative zero, and no NaN but a quiet
one. -/
structure IsSum (w : Weight) : Prop where
  zero : w.isZero = true → w.negative = false
  quiet : w.isNaN = true → w.quieted = w

/-- Zero or above: no NaN and not below zero, so the negative zero counts. -/
def isNonneg (w : Weight) : Bool := !w.isNaN && !w.numLt .zero

/-- A sum of weights that are not negative. -/
structure IsCost (w : Weight) : Prop where
  positive : w.negative = false
  number : w.isNaN = false

theorem isNonneg_iff : w.isNonneg = true ↔
    w.isNaN = false ∧ (w.negative = false ∨ w.isZero = true) := by
  have zero : zero.isNaN = false ∧ zero.isZero = true ∧ zero.negative = false ∧
      zero.magnitude = 0 := by decide
  rw [isNonneg, numLt, zero.1, zero.2.1, zero.2.2.1, zero.2.2.2]
  cases w.isNaN <;> cases w.isZero <;> cases w.negative <;> simp

theorem isNaN_of_isZero (h : w.isZero = true) : w.isNaN = false := by
  have m : w.magnitude = 0 := by simpa [isZero] using h
  simp [isNaN, m]

theorem isInfinite_of_isZero (h : w.isZero = true) : w.isInfinite = false := by
  have m : w.magnitude = 0 := by simpa [isZero] using h
  simp [isInfinite, m, infinityMagnitude]

theorem isZero_of_isInfinite (h : w.isInfinite = true) : w.isZero = false := by
  cases hz : w.isZero with
  | false => rfl
  | true => rw [isInfinite_of_isZero hz] at h; exact absurd h (by decide)

theorem units_eq_zero_iff : w.units = 0 ↔ w.isZero = true := by
  rw [isZero, decide_eq_true_eq]
  constructor
  · intro h
    rw [← roundUnits_unitsOf w.magnitude]
    exact (congrArg roundUnits h).trans (by decide)
  · intro h
    rw [units, h]
    decide

theorem nearest_units (hn : w.isNaN = false) : nearest w.units 1 = w.magnitude := by
  apply nearest_unitsOf
  simpa [isNaN] using hn

theorem nearest_pos (h : 0 < n) : 0 < nearest n 1 := by
  have one : nearest 1 1 = 1 := by decide
  have mono : nearest 1 1 ≤ nearest n 1 := nearest_mono h
  omega

theorem nearest_le (n : Nat) : nearest n 1 ≤ infinityMagnitude := by
  rw [nearest_eq]
  exact Nat.min_le_left ..

theorem nearest_lt (n : Nat) : nearest n 1 < signBit :=
  Nat.lt_of_le_of_lt (nearest_le n) (by decide)

/-- A rounded number of units with a sign. -/
theorem isNaN_rounded (negative : Bool) (n : Nat) :
    (ofParts negative (nearest n 1)).isNaN = false := by
  rw [isNaN, magnitude_ofParts negative (nearest_lt n), decide_eq_false_iff_not, Nat.not_lt]
  exact nearest_le n

theorem isZero_rounded (negative : Bool) (h : 0 < n) :
    (ofParts negative (nearest n 1)).isZero = false := by
  rw [isZero, magnitude_ofParts negative (nearest_lt n), decide_eq_false_iff_not]
  exact Nat.ne_of_gt (nearest_pos h)

theorem isNaN_quieted (h : w.isNaN = true) : w.quieted.isNaN = true := by
  have le : w.magnitude ≤ w.quieted.magnitude := by
    have bits : w.quieted.bits.toNat = w.bits.toNat ||| 0x0008000000000000 := UInt64.toNat_or ..
    have place : signBit = 2 ^ 63 := by decide
    rw [magnitude, magnitude, bits, place, Nat.or_mod_two_pow]
    exact Nat.left_le_or
  simp only [isNaN, decide_eq_true_eq] at h ⊢
  omega

theorem quieted_quieted (w : Weight) : w.quieted.quieted = w.quieted := by
  rw [quieted, quieted, UInt64.or_assoc, UInt64.or_self]

theorem isSum_quieted (h : w.isNaN = true) : w.quieted.IsSum := by
  refine ⟨fun zero => ?_, fun _ => w.quieted_quieted⟩
  have number := isNaN_of_isZero zero
  rw [isNaN_quieted h] at number
  exact absurd number (by decide)

theorem isSum_of_not_isZero (hn : w.isNaN = false) (hz : w.isZero = false) : w.IsSum :=
  ⟨fun h => absurd h (by simp [hz]), fun h => absurd h (by simp [hn])⟩

theorem IsCost.isSum (h : w.IsCost) : w.IsSum :=
  ⟨fun _ => h.positive, fun hn => absurd hn (by simp [h.number])⟩

theorem isCost_zero : IsCost zero := ⟨by decide, by decide⟩

theorem isCost_rounded (n : Nat) : IsCost (ofParts false (nearest n 1)) :=
  ⟨negative_ofParts false (nearest_lt n), isNaN_rounded false n⟩

section Add

variable (hw : w.isNaN = false) (hv : v.isNaN = false)

theorem add_of_isNaN (h : w.isNaN = true) : w + v = w.quieted := by
  change add w v = _
  simp [add, carriedNaN?, h]

include hw in
theorem add_of_isNaN_right (h : v.isNaN = true) : w + v = v.quieted := by
  change add w v = _
  simp [add, carriedNaN?, hw, h]

include hw hv

theorem add_of_isInfinite (h : w.isInfinite = true)
    (same : v.isInfinite = false ∨ w.negative = v.negative) : w + v = w := by
  change add w v = _
  rcases same with same | same <;> simp [add, carriedNaN?, hw, hv, h, same]

theorem add_of_opposite (h : w.isInfinite = true) (h' : v.isInfinite = true)
    (ne : w.negative ≠ v.negative) : w + v = invalid := by
  change add w v = _
  simp [add, carriedNaN?, hw, hv, h, h', ne]

theorem add_of_isInfinite_right (h : w.isInfinite = false) (h' : v.isInfinite = true) :
    w + v = v := by
  change add w v = _
  simp [add, carriedNaN?, hw, hv, h, h']

theorem add_of_finite (h : w.isInfinite = false) (h' : v.isInfinite = false) :
    w + v =
      if w.negative = v.negative then ofParts w.negative (nearest (w.units + v.units) 1)
      else if w.units = v.units then zero
      else if v.units < w.units then ofParts w.negative (nearest (w.units - v.units) 1)
      else ofParts v.negative (nearest (v.units - w.units) 1) := by
  change add w v = _
  simp only [add, carriedNaN?, hw, hv, h, h', Bool.false_eq_true, if_false]
  split
  · rfl
  · split
    · next e => rw [Nat.compare_eq_eq] at e; simp [e]
    · next e => rw [Nat.compare_eq_gt] at e; simp [e, Nat.ne_of_gt e]
    · next e => rw [Nat.compare_eq_lt] at e; simp [Nat.ne_of_lt e, Nat.lt_asymm e]

end Add

theorem IsSum.add (h : w.IsSum) (v : Weight) : (w + v).IsSum := by
  by_cases hw : w.isNaN = true
  · rw [add_of_isNaN hw]
    exact isSum_quieted hw
  rw [Bool.not_eq_true] at hw
  by_cases hv : v.isNaN = true
  · rw [add_of_isNaN_right hw hv]
    exact isSum_quieted hv
  rw [Bool.not_eq_true] at hv
  cases iw : w.isInfinite <;> cases iv : v.isInfinite
  · rw [add_of_finite hw hv iw iv]
    split
    · next same =>
      cases sign : w.negative with
      | false => exact (isCost_rounded _).isSum
      | true =>
        have pos : w.units ≠ 0 := by
          rw [ne_eq, units_eq_zero_iff]
          intro zero
          exact absurd (h.zero zero) (by simp [sign])
        exact isSum_of_not_isZero (isNaN_rounded ..) (isZero_rounded _ (by omega))
    · split
      · exact isCost_zero.isSum
      · split
        · exact isSum_of_not_isZero (isNaN_rounded ..) (isZero_rounded _ (by omega))
        · exact isSum_of_not_isZero (isNaN_rounded ..) (isZero_rounded _ (by omega))
  · rw [add_of_isInfinite_right hw hv iw iv]
    exact isSum_of_not_isZero hv (isZero_of_isInfinite iv)
  · rw [add_of_isInfinite hw hv iw (.inl iv)]
    exact h
  · by_cases same : w.negative = v.negative
    · rw [add_of_isInfinite hw hv iw (.inr same)]
      exact h
    · rw [add_of_opposite hw hv iw iv same]
      exact ⟨by decide, by decide⟩

/-- A zero of either sign that is added changes nothing. -/
theorem IsSum.add_isZero (h : w.IsSum) (hz : v.isZero = true) : w + v = w := by
  have hv := isNaN_of_isZero hz
  have iv := isInfinite_of_isZero hz
  have uv := units_eq_zero_iff.mpr hz
  by_cases hw : w.isNaN = true
  · rw [add_of_isNaN hw, h.quiet hw]
  rw [Bool.not_eq_true] at hw
  cases iw : w.isInfinite with
  | true => exact add_of_isInfinite hw hv iw (.inl iv)
  | false =>
    have whole : ofParts w.negative (nearest w.units 1) = w := by
      rw [nearest_units hw, ofParts_parts]
    rw [add_of_finite hw hv iw iv, uv, Nat.add_zero, Nat.sub_zero, whole]
    split
    · rfl
    · split
      · next none =>
        have zero := units_eq_zero_iff.mp none
        have m : w.magnitude = 0 := by simpa [isZero] using zero
        exact eq_of_parts (h.zero zero).symm m.symm
      · next some => rw [if_pos (Nat.pos_of_ne_zero some)]

theorem zero_add_zero : zero + zero = zero := isCost_zero.isSum.add_isZero (by decide)

/-- Weights that are equal as numbers have the same effect on a sum. -/
theorem IsSum.add_congr (h : c.IsSum) (e : w.numEq v = true) : c + w = c + v := by
  simp only [numEq, Bool.and_eq_true, Bool.or_eq_true, decide_eq_true_eq] at e
  rcases e.2 with rfl | ⟨zw, zv⟩
  · rfl
  · rw [h.add_isZero zw, h.add_isZero zv]

/-- Weights with the same effect on a sum. -/
def Alike (w v : Weight) : Prop := w = v ∨ w.numEq v = true

theorem IsSum.add_alike (h : c.IsSum) (alike : w.Alike v) : c + w = c + v := by
  rcases alike with rfl | equal
  · rfl
  · exact h.add_congr equal

theorem isZero_of_numEq (h : w.numEq v = true) (hv : v.isZero = true) : w.isZero = true := by
  simp only [numEq, Bool.and_eq_true, Bool.or_eq_true, decide_eq_true_eq] at h
  rcases h.2 with same | zeros
  · exact same ▸ hv
  · exact zeros.1

theorem IsCost.rank_eq (h : w.IsCost) : w.rank = w.magnitude := by
  simp [rank, h.positive]

/-- Adding a weight that is not negative gives a cost that is not smaller. -/
theorem IsCost.le_add (h : c.IsCost) (hw : w.isNonneg = true) :
    (c + w).IsCost ∧ c.rank ≤ (c + w).rank := by
  obtain ⟨nw, sign⟩ := isNonneg_iff.mp hw
  cases zw : w.isZero with
  | true =>
    rw [h.isSum.add_isZero zw]
    exact ⟨h, Int.le_refl _⟩
  | false =>
    have pw : w.negative = false := by simpa [zw] using sign
    have cw : w.IsCost := ⟨pw, nw⟩
    have same : c.negative = w.negative := h.positive.trans pw.symm
    cases ic : c.isInfinite with
    | true =>
      rw [add_of_isInfinite h.number nw ic (.inr same)]
      exact ⟨h, Int.le_refl _⟩
    | false =>
      cases iw : w.isInfinite with
      | true =>
        rw [add_of_isInfinite_right h.number nw ic iw, h.rank_eq, cw.rank_eq]
        refine ⟨cw, ?_⟩
        have number := h.number
        simp only [isNaN, isInfinite, decide_eq_true_eq, decide_eq_false_iff_not] at number iw
        omega
      | false =>
        have sum := add_of_finite h.number nw ic iw
        rw [if_pos same, h.positive] at sum
        have cost := isCost_rounded (c.units + w.units)
        rw [sum, h.rank_eq, cost.rank_eq, magnitude_ofParts false (nearest_lt _)]
        refine ⟨cost, ?_⟩
        have mono := nearest_mono (Nat.le_add_right c.units w.units)
        rw [nearest_units h.number] at mono
        omega

end Transducer.Weight
