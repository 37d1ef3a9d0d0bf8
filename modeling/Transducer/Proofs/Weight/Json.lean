import Transducer.Document
import Transducer.Proofs.Json.Lexemes
import Transducer.Proofs.Weight.Exact
import Transducer.Proofs.Weight.Text
/-!
Weights as JSON numbers. Whatever the style, a finite weight is written as a legal number: its
digits do not begin with a zero, because the decimal of a weight that is not zero is not zero.
-/

namespace Transducer

namespace Decimal

theorem Denotes.digits_pos {d : Decimal} {m : Nat} (h : d.Denotes m) (some : m ≠ 0) :
    0 < d.digits := by
  apply Nat.pos_of_ne_zero
  intro none
  apply some
  rw [← h.reads, steps, none, Nat.zero_mul]
  exact magnitudeOfSteps_zero

end Decimal

namespace Numeral

open Decimal

variable {n : Nat}

theorem legal_positional (style : Style) (negative : Bool) (pos : 0 < n) (point : Int) :
    (positional style negative (Nat.toDigits 10 n) point).Legal := by
  have plain := plain_positional style negative isDigit_toDigits (Nat.toDigits_ne_nil (n := n)) point
  have first := head?_toDigits pos
  refine ⟨plain.whole, plain.filled, ?_, plain.fraction, by simp [plain.power]⟩
  rw [positional]
  dsimp only
  split
  · intro _
    rfl
  · split
    · next above _ =>
      intro zero
      rw [List.head?_take, if_neg (by omega)] at zero
      exact absurd zero first
    · intro zero
      obtain ⟨c, ds, front⟩ := List.exists_cons_of_ne_nil (Nat.toDigits_ne_nil (n := n) (b := 10))
      rw [front] at zero first
      exact absurd zero first

theorem legal_scientific (negative : Bool) (pos : 0 < n) (point : Int) :
    (scientific negative (Nat.toDigits 10 n) point).Legal := by
  have first := head?_toDigits pos
  have filled : Nat.toDigits 10 n ≠ [] := Nat.toDigits_ne_nil
  refine ⟨?_, ?_, ?_, ?_, ?_⟩
  · intro c mem
    exact isDigit_toDigits c (List.mem_of_mem_take mem)
  · simp [scientific]
  · intro zero
    rw [scientific, List.head?_take, if_neg Nat.one_ne_zero] at zero
    exact absurd zero first
  · intro c mem
    exact isDigit_toDigits c (List.mem_of_mem_drop mem)
  · intro p mem
    obtain rfl := Option.some.inj mem
    exact ⟨Nat.toDigits_ne_nil, isDigit_toDigits⟩

theorem legal_ofWeight (style : Style) {w : Weight} (finite : w.isFinite) :
    (ofWeight style w).Legal := by
  have small : w.magnitude < Weight.infinityMagnitude := of_decide_eq_true finite
  have denotes := (denotes_shortest style.tie (Nat.le_of_lt small)).trimZeros 17
  rw [ofWeight]
  split
  · refine ⟨?_, List.cons_ne_nil _ _, fun _ => rfl, ?_, by simp⟩ <;> simp
  · next zero =>
    have pos := denotes.digits_pos (by simpa [Weight.isZero] using zero)
    dsimp only
    split
    · exact legal_positional style w.negative pos _
    · exact legal_scientific w.negative pos _

theorem negative_ofWeight (style : Style) (w : Weight) :
    (ofWeight style w).negative = w.negative := by
  rw [ofWeight]
  split
  · rfl
  · dsimp only
    split
    · exact negative_positional ..
    · rfl

/-- The decimal that a numeral writes. -/
def value (n : Numeral) : Decimal := ⟨n.decimal.digits, n.decimal.exponent + n.writtenPower⟩

theorem writtenPower_scientific (negative : Bool) (digits : List Char) (point : Int) :
    (scientific negative digits point).writtenPower = point - 1 := by
  have read : (Nat.toDigits 10 (point - 1).natAbs).foldl (fun m c => m * 10 + digitValue c) 0 =
      (point - 1).natAbs := by
    have digits : Nat.ofDigitChars 10 (Nat.toDigits 10 (point - 1).natAbs) 0 = (point - 1).natAbs :=
      Nat.ofDigitChars_ten_toDigits
    rw [Nat.ofDigitChars_eq_foldl] at digits
    simpa only [digitValue, Nat.mul_comm] using digits
  rw [writtenPower, scientific]
  dsimp only
  rw [read]
  by_cases below : point - 1 < 0
  · rw [if_pos (decide_eq_true below)]
    omega
  · rw [if_neg (mt of_decide_eq_true below)]
    omega

/-- Behind the first digit the point stands for as many powers of ten as it has passed. -/
theorem denotes_scientific {d : Decimal} {m : Nat} (negative : Bool) (h : d.Denotes m) :
    (scientific negative (Nat.toDigits 10 d.digits)
      ((Nat.toDigits 10 d.digits).length + d.exponent)).value.Denotes m := by
  have pos : 0 < (Nat.toDigits 10 d.digits).length := List.length_pos_iff.mpr Nat.toDigits_ne_nil
  have same : (scientific negative (Nat.toDigits 10 d.digits)
      ((Nat.toDigits 10 d.digits).length + d.exponent)).value = d := by
    rw [value, writtenPower_scientific, decimal, scientific]
    dsimp only
    rw [List.take_append_drop, Nat.ofDigitChars_ten_toDigits, List.length_drop]
    congr
    omega
  rw [same]
  exact h

/-- A finite weight is written as a decimal that reads back as its magnitude. -/
theorem denotes_ofWeight {w : Weight} (finite : w.isFinite) :
    (ofWeight .json w).value.Denotes w.magnitude := by
  have small : w.magnitude < Weight.infinityMagnitude := of_decide_eq_true finite
  have denotes := (denotes_shortest Style.json.tie (Nat.le_of_lt small)).trimZeros 17
  have plain {n : Numeral} (none : n.power = none) : n.value = n.decimal := by
    rw [value, writtenPower, none]
    simp
  rw [ofWeight]
  split
  · next zero =>
    rw [plain rfl]
    exact (writes_zero zero).value
  · dsimp only
    split
    · have written := plain_positional Style.json w.negative isDigit_toDigits
        (Nat.toDigits_ne_nil (n := ((shortest Style.json.tie w.magnitude).trimZeros 17).digits))
      rw [plain (written _).power]
      exact denotes_positional Style.json w.negative denotes
    · exact denotes_scientific w.negative denotes

theorem digitValue_le {c : Char} (digit : c.isDigit) : digitValue c ≤ 9 := by
  have range : 48 ≤ c.val.toNat ∧ c.val.toNat ≤ 57 := by
    simpa [Char.isDigit, UInt32.le_iff_toNat_le] using digit
  rw [digitValue]
  show c.val.toNat - 48 ≤ 9
  omega

theorem le_fill (m : Nat) (ds : List Char) : m ≤ (fill m ds).1 := by
  induction ds generalizing m with
  | nil => exact Nat.le_refl m
  | cons c ds ih =>
    rw [fill]
    split
    · have := ih (m * 10 + digitValue c)
      omega
    · exact Nat.le_refl m

/-- No digit is dropped while the significand is far from the largest one. -/
theorem fill_of_lt {m : Nat} {ds : List Char} (digits : ∀ c ∈ ds, c.isDigit)
    (small : (fill m ds).1 < 2 * Weight.leadingBit) : fill m ds = (Nat.ofDigitChars 10 ds m, []) := by
  induction ds generalizing m with
  | nil => rfl
  | cons c ds ih =>
    obtain ⟨first, others⟩ := List.forall_mem_cons.mp digits
    have digit := digitValue_le first
    have far : (2 * Weight.leadingBit) * 10 ≤ maxSignificand := by decide
    rw [fill] at small ⊢
    split at small
    · next fits =>
      rw [if_pos fits, ih others small, Nat.ofDigitChars_cons, Nat.mul_comm 10 m]
      rfl
    · next full =>
      dsimp only at small
      omega

theorem significand_of_lt {n : Numeral} (legal : n.Legal)
    (small : n.significand.1 < 2 * Weight.leadingBit) :
    n.significand = (n.decimal.digits, n.decimal.exponent) := by
  have fraction := fill_of_lt legal.fraction small
  have whole := fill_of_lt legal.whole ((le_fill _ _).trans_lt small)
  rw [significand, whole]
  rw [whole] at fraction
  dsimp only at fraction ⊢
  rw [fraction, decimal, Nat.ofDigitChars_append]
  simp

/-- A numeral with so few digits and so low a power of ten that both are weights. -/
def Short (n : Numeral) : Prop :=
  n.significand.1 < 2 * Weight.leadingBit ∧ (n.significand.2 + n.writtenPower).natAbs ≤ 22

instance : DecidablePred Short := fun _ => instDecidableAnd

/-- A short numeral is rounded once, so it is read as the weight whose decimal it is. -/
theorem Short.weight?_eq {n : Numeral} {m : Nat} (short : n.Short) (legal : n.Legal)
    (denotes : n.value.Denotes m) (finite : m < Weight.infinityMagnitude) :
    n.weight? = some (.ofParts n.negative m) := by
  obtain ⟨few, low⟩ := short
  have sign : Weight.infinityMagnitude < Weight.signBit := by decide
  have magnitude := Weight.magnitude_ofParts false (finite.trans sign)
  have significand := significand_of_lt legal few
  have whole := Weight.whole_of_lt few
  have ten := Weight.whole_ten_pow low
  rw [significand] at low whole ten
  have value : n.value = ⟨n.decimal.digits, n.decimal.exponent + n.writtenPower⟩ := rfl
  have scaled : scale (.ofNat n.decimal.digits) (n.decimal.exponent + n.writtenPower) =
      some (.ofParts false m) := by
    rw [value] at denotes
    generalize n.decimal.exponent + n.writtenPower = power at *
    rw [scale]
    split
    · next up =>
      have product := Weight.mul_ofNat whole ten
      have nearest := denotes.nearest_mul power.natAbs (by dsimp only; omega)
      have number : (Weight.ofParts false m).isInfinite = false := by
        rw [Weight.isInfinite, magnitude]
        exact decide_eq_false (Nat.ne_of_lt finite)
      have exponent : power.toNat = power.natAbs := by omega
      rw [if_pos (by rw [lastPower]; omega), tenTo, exponent]
      dsimp only
      rw [Nat.pow_eq, product, nearest, number]
      rfl
    · next down =>
      have quotient := Weight.div_ofNat whole ten (Nat.pow_pos (by decide))
      have nearest := denotes.nearest_div power.natAbs (by dsimp only; omega)
      rw [if_pos (by rw [lastPower]; omega), tenTo, Nat.pow_eq, quotient, nearest]
  rw [weight?, significand]
  dsimp only
  rw [scaled, Option.map_some, magnitude]

end Numeral

namespace Weight

theorem legal_toJson (w : Weight) : w.toJson.Legal := by
  rw [toJson]
  split
  · next finite => exact .number (Numeral.legal_ofWeight .json finite)
  · exact .null

/-- A weight that is written with few digits near the point. -/
def Short (w : Weight) : Prop := (Numeral.ofWeight .json w).Short

instance : DecidablePred Short := fun w =>
  inferInstanceAs (Decidable (Numeral.ofWeight .json w).Short)

theorem ofJson?_toJson_of_short {w : Weight} (finite : w.isFinite) (short : w.Short) :
    ofJson? w.toJson = some w := by
  have small : w.magnitude < infinityMagnitude := of_decide_eq_true finite
  have read := Numeral.Short.weight?_eq short (Numeral.legal_ofWeight .json finite)
    (Numeral.denotes_ofWeight finite) small
  rw [toJson, if_pos finite, ofJson?, read, Numeral.negative_ofWeight, ofParts_parts]

end Weight

end Transducer
