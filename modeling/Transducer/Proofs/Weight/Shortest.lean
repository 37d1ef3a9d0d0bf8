import Mathlib.Algebra.Group.Nat.Defs
import Transducer.Proofs.Weight.Rounding
import Transducer.Weight.Shortest
/-!
The shortest decimal of a weight reads back as the weight. A decimal that is no finer than the
steps is a number of them, and zeros that move between its digits and its exponent leave that
number as it is.
-/

namespace Transducer

namespace Weight

variable {n den k : Nat}

theorem compare_mul_right (n m : Nat) (h : 0 < k) : compare (n * k) (m * k) = compare n m := by
  rcases Nat.lt_trichotomy n m with lt | rfl | gt
  · rw [Nat.compare_eq_lt.mpr lt, Nat.compare_eq_lt]
    exact Nat.mul_lt_mul_of_pos_right lt h
  · rw [Nat.compare_eq_eq.mpr (Eq.refl n), Nat.compare_eq_eq]
  · rw [Nat.compare_eq_gt.mpr gt, Nat.compare_eq_gt]
    exact Nat.mul_lt_mul_of_pos_right gt h

theorem roundHalfEven_mul_mul (n den : Nat) (h : 0 < k) :
    roundHalfEven (n * k) (den * k) = roundHalfEven n den := by
  have rest : compare (2 * (n * k % (den * k))) (den * k) = compare (2 * (n % den)) den := by
    rw [Nat.mul_mod_mul_right, ← Nat.mul_assoc, compare_mul_right _ _ h]
  rw [roundHalfEven, roundHalfEven, Nat.mul_div_mul_right n den h, rest]

/-- A common factor does not change what is rounded. -/
theorem nearest_mul_mul (n den : Nat) (h : 0 < k) : nearest (n * k) (den * k) = nearest n den := by
  rw [nearest, nearest, Nat.mul_div_mul_right n den h]
  have shifted : (den * k) <<< ((n / den).log2 - 52) = den <<< ((n / den).log2 - 52) * k := by
    rw [Nat.shiftLeft_eq, Nat.shiftLeft_eq, Nat.mul_right_comm]
  rw [shifted, roundHalfEven_mul_mul n _ h]

end Weight

namespace Decimal

open Weight

variable {tie : Tie} {d : Decimal} {m drop digits : Nat} {exponent : Int}

theorem stepsPerUnit_pos : 0 < stepsPerUnit := by decide +kernel

theorem magnitudeOfSteps_unitsOf (h : m ≤ infinityMagnitude) :
    magnitudeOfSteps (unitsOf m * stepsPerUnit) = m := by
  have scaled := nearest_mul_mul (unitsOf m) 1 stepsPerUnit_pos
  rw [Nat.one_mul, nearest_unitsOf h] at scaled
  exact scaled

theorem magnitudeOfSteps_zero : magnitudeOfSteps 0 = 0 := by
  have zero := magnitudeOfSteps_unitsOf (Nat.zero_le infinityMagnitude)
  rwa [show unitsOf 0 = 0 from rfl, Nat.zero_mul] at zero

/-- How many steps a decimal is, if it is no finer than they are. -/
def steps (d : Decimal) : Nat := d.digits * 10 ^ (d.exponent - finestExponent).toNat

theorem steps_scaled (digits : Nat) (exponent : Int) (k : Nat) (h : finestExponent ≤ exponent - k) :
    steps ⟨digits * 10 ^ k, exponent - k⟩ = steps ⟨digits, exponent⟩ := by
  have places : (exponent - finestExponent).toNat =
      k + (exponent - k - finestExponent).toNat := by omega
  rw [steps, steps, places, Nat.pow_add, Nat.mul_assoc]

/-- A decimal is a number of steps that reads back as a magnitude. -/
structure Denotes (d : Decimal) (m : Nat) : Prop where
  coarse : finestExponent ≤ d.exponent
  reads : magnitudeOfSteps d.steps = m

theorem denotes_of_steps (h : magnitudeOfSteps (digits * 10 ^ drop) = m) :
    Denotes ⟨digits, finestExponent + drop⟩ m := by
  refine ⟨by dsimp only; omega, ?_⟩
  have places : (finestExponent + drop - finestExponent).toNat = drop := by omega
  rw [steps, places]
  exact h

theorem Denotes.scaled (h : Denotes ⟨digits, exponent⟩ m) (k : Nat)
    (room : finestExponent ≤ exponent - k) : Denotes ⟨digits * 10 ^ k, exponent - k⟩ m := by
  refine ⟨room, ?_⟩
  rw [steps_scaled digits exponent k room]
  exact h.reads

theorem closer_cases (tie : Tie) (low rest scale : Nat) :
    closer tie low rest scale = low ∨ closer tie low rest scale = low + 1 := by
  unfold closer
  split <;> omega

/-- Every decimal that a cut can give has been read back. -/
theorem denotes_of_cut? {steps : Nat} (h : cut? tie m steps drop = some d) : d.Denotes m := by
  unfold cut? at h
  extract_lets scale low readsBack decimal at h
  have sound (digits : Nat) (back : readsBack digits = true) : (decimal digits).Denotes m :=
    denotes_of_steps (of_decide_eq_true back)
  split at h
  · next below =>
    split at h
    · next above =>
      obtain rfl := Option.some.inj h
      rcases closer_cases tie low (steps % scale) scale with same | same
      · rw [same]
        exact sound low below
      · rw [same]
        exact sound (low + 1) above
    · obtain rfl := Option.some.inj h
      exact sound low below
  · split at h
    · next above =>
      obtain rfl := Option.some.inj h
      exact sound (low + 1) above
    · exact absurd h (by simp)

theorem denotes_shortest (tie : Tie) (h : m ≤ infinityMagnitude) : (shortest tie m).Denotes m := by
  rw [shortest]
  cases cuts : (List.range 17).findSome? fun i =>
      cut? tie m (unitsOf m * stepsPerUnit) (length (unitsOf m * stepsPerUnit) - (i + 1)) with
  | some d =>
    obtain ⟨i, _, cut⟩ := List.exists_of_findSome?_eq_some cuts
    exact denotes_of_cut? cut
  | none =>
    refine ⟨Int.le_refl _, ?_⟩
    rw [Option.getD_none, steps, Int.sub_self, Int.toNat_zero, Nat.pow_zero, Nat.mul_one]
    exact magnitudeOfSteps_unitsOf h

theorem Denotes.trimZeros (h : d.Denotes m) (count : Nat) : (d.trimZeros count).Denotes m := by
  induction count generalizing d with
  | zero => exact h
  | succ count ih =>
    rw [Decimal.trimZeros]
    split
    · next last =>
      apply ih
      have coarse := h.coarse
      refine ⟨by dsimp only; omega, ?_⟩
      have moved := steps_scaled (d.digits / 10) (d.exponent + 1) 1 (by omega)
      rw [Nat.pow_one, Nat.div_mul_cancel (Nat.dvd_of_mod_eq_zero last), Int.natCast_one,
        Int.add_sub_cancel] at moved
      rw [← moved]
      exact h.reads
    · exact h

end Decimal

end Transducer
