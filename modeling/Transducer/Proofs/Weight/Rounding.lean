import Mathlib.Data.Nat.Log
import Transducer.Proofs.Weight.Basic
import Transducer.Weight.Arithmetic
/-!
Rounding a number of units. Main statements: rounding is monotone, and a number of units that some
magnitude stands for is rounded to that magnitude.
-/

namespace Transducer.Weight

variable {n m den : Nat}

theorem le_roundHalfEven (n den : Nat) : n / den ≤ roundHalfEven n den := by
  unfold roundHalfEven
  dsimp only
  split <;> omega

theorem roundHalfEven_le (n den : Nat) : roundHalfEven n den ≤ n / den + 1 := by
  unfold roundHalfEven
  dsimp only
  split <;> omega

theorem roundHalfEven_mul (k : Nat) (h : 0 < den) : roundHalfEven (k * den) den = k := by
  have lt : compare (2 * (k * den % den)) den = .lt := by
    rw [Nat.mul_mod_left, Nat.compare_eq_lt]
    exact h
  unfold roundHalfEven
  rw [lt]
  exact Nat.mul_div_cancel k h

theorem roundHalfEven_mono (h : n ≤ m) (den : Nat) :
    roundHalfEven n den ≤ roundHalfEven m den := by
  rcases Nat.lt_or_eq_of_le (Nat.div_le_div_right (c := den) h) with lt | same
  · exact (roundHalfEven_le n den).trans ((Nat.succ_le_of_lt lt).trans (le_roundHalfEven m den))
  · have rest : n % den ≤ m % den := by
      have hn := Nat.div_add_mod n den
      have hm := Nat.div_add_mod m den
      rw [same] at hn
      omega
    unfold roundHalfEven
    rw [same]
    dsimp only
    split <;> split <;> simp only [Nat.compare_eq_lt, Nat.compare_eq_eq, Nat.compare_eq_gt] at * <;>
      omega

/-- A number of units in places of which at most 53 are kept. -/
def roundUnits (n : Nat) : Nat :=
  (n.log2 - 52) * leadingBit + roundHalfEven n (1 <<< (n.log2 - 52))

theorem nearest_eq (n : Nat) : nearest n 1 = min infinityMagnitude (roundUnits n) := by
  rw [nearest, roundUnits, Nat.div_one]

theorem one_shiftLeft_pos (k : Nat) : 0 < 1 <<< k := by
  rw [Nat.one_shiftLeft]
  exact Nat.two_pow_pos k

theorem shifted_lt (n : Nat) : n / (1 <<< (n.log2 - 52)) < 2 * leadingBit := by
  rw [Nat.div_lt_iff_lt_mul (one_shiftLeft_pos _)]
  have top : n < 2 ^ (n.log2 + 1) := Nat.lt_log2_self
  have bit : 2 * leadingBit = 2 ^ 53 := by decide
  rw [bit, Nat.one_shiftLeft, ← Nat.pow_add]
  exact top.trans_le (Nat.pow_le_pow_right (by decide) (by omega))

theorem le_shifted (h : 0 < n.log2 - 52) : leadingBit ≤ n / (1 <<< (n.log2 - 52)) := by
  have ne : n ≠ 0 := by
    intro zero
    rw [zero, Nat.log2_zero] at h
    exact absurd h (by decide)
  have bit : leadingBit = 2 ^ 52 := by decide
  rw [Nat.le_div_iff_mul_le (one_shiftLeft_pos _), bit,
    Nat.one_shiftLeft, ← Nat.pow_add]
  exact (Nat.pow_le_pow_right (by decide) (by omega)).trans (Nat.log2_self_le ne)

theorem log2_mono (h : n ≤ m) : n.log2 ≤ m.log2 := by
  by_cases hn : n = 0
  · simp [hn, Nat.log2_zero]
  · rw [Nat.le_log2 (by omega)]
    exact (Nat.log2_self_le hn).trans h

theorem roundUnits_mono (h : n ≤ m) : roundUnits n ≤ roundUnits m := by
  have logs := log2_mono h
  rcases Nat.lt_or_eq_of_le (Nat.sub_le_sub_right logs 52) with lt | same
  · have hn : roundHalfEven n (1 <<< (n.log2 - 52)) ≤ 2 * leadingBit :=
      (roundHalfEven_le _ _).trans (shifted_lt n)
    have hm : leadingBit ≤ roundHalfEven m (1 <<< (m.log2 - 52)) :=
      (le_shifted (by omega)).trans (le_roundHalfEven _ _)
    have places : (n.log2 - 52 + 1) * leadingBit ≤ (m.log2 - 52) * leadingBit :=
      Nat.mul_le_mul_right _ lt
    rw [Nat.add_mul] at places
    unfold roundUnits
    omega
  · unfold roundUnits
    rw [same]
    exact Nat.add_le_add_left (roundHalfEven_mono h _) _

theorem nearest_mono (h : n ≤ m) : nearest n 1 ≤ nearest m 1 := by
  have mono := roundUnits_mono h
  rw [nearest_eq, nearest_eq]
  omega

theorem log2_shiftLeft (h : n ≠ 0) (k : Nat) : (n <<< k).log2 = n.log2 + k := by
  have scaled : n * 2 ^ k ≠ 0 := Nat.mul_ne_zero h (Nat.ne_of_gt (Nat.two_pow_pos k))
  have low := Nat.mul_le_mul_right (2 ^ k) (Nat.log2_self_le h)
  have high := Nat.mul_lt_mul_of_pos_right (Nat.lt_log2_self (n := n)) (Nat.two_pow_pos k)
  rw [← Nat.pow_add] at low high
  rw [Nat.shiftLeft_eq, Nat.log2_eq_iff scaled, Nat.add_right_comm]
  exact ⟨low, high⟩

theorem roundUnits_unitsOf (m : Nat) : roundUnits (unitsOf m) = m := by
  have bit : leadingBit = 2 ^ 52 := by decide
  unfold unitsOf
  split
  · next small =>
    have log : m.log2 - 52 = 0 := by
      by_cases hm : m = 0
      · simp [hm, Nat.log2_zero]
      · have lt := (Nat.log2_lt hm).mpr (bit ▸ small)
        omega
    have whole := roundHalfEven_mul m Nat.one_pos
    rw [roundUnits, log]
    simpa using whole
  · next large =>
    have pos : 1 ≤ m / leadingBit :=
      (Nat.one_le_div_iff (by decide)).mpr (Nat.not_lt.mp large)
    have lt : m % leadingBit < leadingBit := Nat.mod_lt _ (by decide)
    have log : (m % leadingBit + leadingBit).log2 = 52 := by
      rw [Nat.log2_eq_iff (by omega), ← bit, show 2 ^ (52 + 1) = 2 * leadingBit from by decide]
      omega
    have parts := Nat.div_add_mod m leadingBit
    rw [roundUnits, log2_shiftLeft (by omega), log, Nat.add_sub_cancel_left, Nat.shiftLeft_eq, Nat.one_shiftLeft,
      roundHalfEven_mul _ (Nat.two_pow_pos _), Nat.sub_mul]
    have := Nat.mul_comm (m / leadingBit) leadingBit
    have : 1 * leadingBit ≤ (m / leadingBit) * leadingBit := Nat.mul_le_mul_right _ pos
    omega

theorem nearest_unitsOf (h : m ≤ infinityMagnitude) : nearest (unitsOf m) 1 = m := by
  rw [nearest_eq, roundUnits_unitsOf]
  exact Nat.min_eq_right h

end Transducer.Weight
