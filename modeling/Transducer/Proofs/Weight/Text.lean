import Transducer.Proofs.Weight.Shortest
import Transducer.Weight.Numeral
/-!
Written weights tell the weights. The sign, the digits and the point can be read off the text, the
digits with their point are a decimal that reads back as the magnitude, and words are not numerals.
-/

namespace Transducer

/-- Parts that are joined by a separator which is in none of them can be told from the whole. -/
theorem eq_of_intercalate_eq {sep : Char} {parts others : List (List Char)}
    (free : ∀ part ∈ parts, sep ∉ part) (free' : ∀ part ∈ others, sep ∉ part)
    (some : parts ≠ []) (some' : others ≠ [])
    (same : [sep].intercalate parts = [sep].intercalate others) : parts = others := by
  rw [← List.splitOn_intercalate sep free some, same, List.splitOn_intercalate sep free' some']

namespace Numeral

open Decimal

variable {n n' : Numeral} {d : Decimal} {m : Nat} {c : Char} {digits : List Char}

/-- Digits with at most a point between them. -/
structure Plain (n : Numeral) : Prop where
  whole : ∀ c ∈ n.whole, c.isDigit
  fraction : ∀ c ∈ n.fraction, c.isDigit
  filled : n.whole ≠ []
  power : n.power = none

/-- The digits before the point and, if there is a point, those after it. -/
def parts (n : Numeral) : List (List Char) :=
  n.whole :: if n.fraction.isEmpty then [] else [n.fraction]

theorem parts_injective (h : n.parts = n'.parts) : n.whole = n'.whole ∧ n.fraction = n'.fraction := by
  obtain ⟨whole, rest⟩ := List.cons.inj h
  refine ⟨whole, ?_⟩
  cases hf : n.fraction <;> cases hf' : n'.fraction <;> simp_all

theorem Plain.chars_eq (h : n.Plain) :
    n.chars = (if n.negative then ['-'] else []) ++ ['.'].intercalate n.parts := by
  rw [chars, h.power, parts]
  cases n.fraction <;> simp

theorem Plain.isDigit (h : n.Plain) {part : List Char} (mem : part ∈ n.parts) (hc : c ∈ part) :
    c.isDigit := by
  rw [parts] at mem
  rcases List.mem_cons.mp mem with rfl | rest
  · exact h.whole c hc
  · split at rest
    · exact absurd rest List.not_mem_nil
    · rw [List.mem_singleton.mp rest] at hc
      exact h.fraction c hc

theorem Plain.mem_chars (h : n.Plain) (mem : c ∈ n.chars) : c.isDigit ∨ c = '-' ∨ c = '.' := by
  rw [chars, h.power, List.append_nil] at mem
  rcases List.mem_append.mp mem with front | fraction
  · rcases List.mem_append.mp front with sign | whole
    · split at sign
      · exact .inr (.inl (List.mem_singleton.mp sign))
      · exact absurd sign List.not_mem_nil
    · exact .inl (h.whole c whole)
  · split at fraction
    · exact absurd fraction List.not_mem_nil
    · rcases List.mem_cons.mp fraction with point | digit
      · exact .inr (.inr point)
      · exact .inl (h.fraction c digit)

theorem Plain.exists_cons (h : n.Plain) :
    ∃ first rest, first.isDigit ∧ ['.'].intercalate n.parts = first :: rest := by
  obtain ⟨first, more, whole⟩ := List.exists_cons_of_ne_nil h.filled
  have digit : first.isDigit := h.whole first (whole ▸ List.mem_cons_self)
  rw [parts, whole]
  split
  · exact ⟨first, more, digit, by simp⟩
  · exact ⟨first, more ++ '.' :: n.fraction, digit, by simp⟩

/-- The text of a numeral tells its sign, because no digit is a sign, and its parts, because no
digit is a point. -/
theorem Plain.chars_injective (h : n.Plain) (h' : n'.Plain) (same : n.chars = n'.chars) :
    n = n' := by
  rw [h.chars_eq, h'.chars_eq] at same
  obtain ⟨first, rest, digit, unsigned⟩ := h.exists_cons
  obtain ⟨first', rest', digit', unsigned'⟩ := h'.exists_cons
  have signed : ¬ Char.isDigit '-' := by decide
  have alike : n.negative = n'.negative ∧
      ['.'].intercalate n.parts = ['.'].intercalate n'.parts := by
    cases hn : n.negative <;> cases hn' : n'.negative <;>
      simp only [hn, hn', if_true, if_false, Bool.false_eq_true, List.nil_append,
        List.singleton_append] at same
    · exact ⟨rfl, same⟩
    · rw [unsigned] at same
      rw [(List.cons.inj same).1] at digit
      exact absurd digit signed
    · rw [unsigned'] at same
      rw [← (List.cons.inj same).1] at digit'
      exact absurd digit' signed
    · exact ⟨rfl, (List.cons.inj same).2⟩
  have pointless {n : Numeral} (h : n.Plain) : ∀ part ∈ n.parts, '.' ∉ part := by
    intro part mem point
    have digit := h.isDigit mem point
    exact absurd digit (by decide)
  have some (n : Numeral) : n.parts ≠ [] := List.cons_ne_nil _ _
  have parts := eq_of_intercalate_eq (pointless h) (pointless h') (some n) (some n') alike.2
  obtain ⟨whole, fraction⟩ := parts_injective parts
  have power := h.power.trans h'.power.symm
  cases n
  cases n'
  simp_all

/-- The decimal that a numeral without a power of ten writes. -/
def decimal (n : Numeral) : Decimal :=
  ⟨Nat.ofDigitChars 10 (n.whole ++ n.fraction) 0, -n.fraction.length⟩

theorem plain_positional (style : Style) (negative : Bool) (hd : ∀ c ∈ digits, c.isDigit)
    (some : digits ≠ []) (point : Int) : (positional style negative digits point).Plain := by
  have zeros {c : Char} {k : Nat} (h : c ∈ List.replicate k '0') : c.isDigit := by
    rw [List.eq_of_mem_replicate h]
    decide
  have pos := List.length_pos_iff.mpr some
  rw [positional]
  dsimp only
  split
  · refine ⟨?_, ?_, by simp, rfl⟩
    · intro c mem
      rw [List.mem_singleton.mp mem]
      decide
    · intro c mem
      exact (List.mem_append.mp mem).elim zeros (hd c)
  · split
    · refine ⟨fun c mem => hd c (List.mem_of_mem_take mem),
        fun c mem => hd c (List.mem_of_mem_drop mem), ?_, rfl⟩
      apply List.ne_nil_of_length_pos
      rw [List.length_take]
      omega
    · refine ⟨?_, ?_, List.append_ne_nil_of_left_ne_nil some _, rfl⟩
      · intro c mem
        exact (List.mem_append.mp mem).elim (hd c) zeros
      · intro c mem
        split at mem
        · rw [List.mem_singleton.mp mem]
          decide
        · exact absurd mem List.not_mem_nil

theorem negative_positional (style : Style) (negative : Bool) (digits : List Char) (point : Int) :
    (positional style negative digits point).negative = negative := by
  rw [positional]
  dsimp only
  split
  · rfl
  · split <;> rfl

/-- A numeral of the same digits with some more zeros has the same value if its point makes up
for them. -/
theorem denotes_of_value (h : d.Denotes m) (k : Nat) (room : finestExponent ≤ d.exponent - k)
    (value : Nat.ofDigitChars 10 (n.whole ++ n.fraction) 0 = d.digits * 10 ^ k)
    (places : -(n.fraction.length : Int) = d.exponent - k) : n.decimal.Denotes m := by
  rw [decimal, value, places]
  exact h.scaled k room

/-- Wherever the point stands, the same number is written. -/
theorem denotes_positional (style : Style) (negative : Bool) (h : d.Denotes m) :
    (positional style negative (Nat.toDigits 10 d.digits)
      ((Nat.toDigits 10 d.digits).length + d.exponent)).decimal.Denotes m := by
  have value : Nat.ofDigitChars 10 (Nat.toDigits 10 d.digits) 0 = d.digits :=
    Nat.ofDigitChars_ten_toDigits
  have coarse := h.coarse
  have finest : finestExponent = -1074 := rfl
  generalize Nat.toDigits 10 d.digits = digits at value
  have zeros (k : Nat) : Nat.ofDigitChars 10 (digits ++ List.replicate k '0') 0 =
      d.digits * 10 ^ k := by
    rw [Nat.ofDigitChars_append, value, Nat.ofDigitChars_replicate_zero, Nat.mul_comm]
  rw [positional]
  dsimp only
  split
  · apply denotes_of_value h 0
    · omega
    · rw [Nat.ofDigitChars_append, Nat.ofDigitChars_append, Nat.ofDigitChars_replicate_zero,
        Nat.pow_zero, Nat.mul_one]
      exact value
    · rw [List.length_append, List.length_replicate]
      omega
  · split
    · apply denotes_of_value h 0
      · omega
      · rw [List.take_append_drop, value, Nat.pow_zero, Nat.mul_one]
      · rw [List.length_drop]
        omega
    · have whole : ((digits.length : Int) + d.exponent - digits.length).toNat =
          d.exponent.toNat := by omega
      rw [whole]
      split
      · apply denotes_of_value h (d.exponent.toNat + 1)
        · omega
        · rw [List.append_assoc, ← List.replicate_succ', zeros]
        · rw [List.length_singleton]
          omega
      · apply denotes_of_value h d.exponent.toNat
        · omega
        · rw [List.append_nil, zeros]
        · rw [List.length_nil]
          omega

/-- A numeral says the sign and the magnitude of a weight. -/
structure Writes (n : Numeral) (w : Weight) : Prop where
  plain : n.Plain
  sign : n.negative = w.negative
  value : n.decimal.Denotes w.magnitude

theorem Writes.unique {w v : Weight} (h : n.Writes w) (h' : n.Writes v) : w = v :=
  Weight.eq_of_parts (h.sign.symm.trans h'.sign) (h.value.reads.symm.trans h'.value.reads)

theorem writes_zero {w : Weight} (zero : w.isZero) :
    Writes ⟨w.negative, ['0'], ['0'], none⟩ w := by
  have digit : ∀ c ∈ ['0'], c.isDigit := by
    intro c mem
    rw [List.mem_singleton.mp mem]
    decide
  refine ⟨⟨digit, digit, List.cons_ne_nil _ _, rfl⟩, rfl, ?_⟩
  rw [show w.magnitude = 0 from of_decide_eq_true zero]
  have none : Nat.ofDigitChars 10 ['0', '0'] 0 = 0 := by decide
  have finest : finestExponent = -1074 := rfl
  refine ⟨by simp [decimal, finest], ?_⟩
  rw [Decimal.steps, decimal, List.singleton_append, none, Nat.zero_mul]
  exact magnitudeOfSteps_zero

theorem isPositional_plain (point : Int) : Style.plain.isPositional point = true := rfl

theorem writes_ofWeight {w : Weight} (finite : w.isFinite) : (ofWeight .plain w).Writes w := by
  have small : w.magnitude < Weight.infinityMagnitude := of_decide_eq_true finite
  have denotes := (denotes_shortest Style.plain.tie (Nat.le_of_lt small)).trimZeros 17
  rw [ofWeight]
  split
  · next zero => exact writes_zero zero
  · generalize (shortest Style.plain.tie w.magnitude).trimZeros 17 = d at denotes ⊢
    have digits : ∀ c ∈ Nat.toDigits 10 d.digits, c.isDigit := by
      intro c mem
      exact Nat.isDigit_of_mem_toDigits (by decide) (Nat.le_refl 10) mem
    dsimp only
    rw [isPositional_plain, if_pos rfl]
    exact ⟨plain_positional _ _ digits Nat.toDigits_ne_nil _, negative_positional ..,
      denotes_positional _ _ denotes⟩

end Numeral

namespace Weight

variable {w v : Weight} {c : Char}

theorem text_of_isFinite (h : w.isFinite) :
    w.text.toList = (Numeral.ofWeight .plain w).chars := by
  have number : w.isNaN = false ∧ w.isInfinite = false := by
    have lt : w.magnitude < infinityMagnitude := of_decide_eq_true h
    simp only [isNaN, isInfinite, decide_eq_false_iff_not]
    omega
  rw [text, number.1, number.2, if_neg Bool.false_ne_true, if_neg Bool.false_ne_true,
    Numeral.text, String.toList_ofList]

/-- The texts of weights that are not finite are words, in which no digit stands. -/
theorem text_of_not_isFinite (h : w.isFinite = false) :
    w.text = if w.isNaN then "NaN" else if w.negative then "-inf" else "inf" := by
  rw [text]
  rcases isFinite_eq_false_iff.mp h with nan | infinite
  · rw [nan]
    rfl
  · rw [infinite]
    rfl

theorem any_isDigit_text (w : Weight) : w.text.toList.any Char.isDigit = w.isFinite := by
  cases h : w.isFinite with
  | true =>
    have plain := (Numeral.writes_ofWeight h).plain
    obtain ⟨first, rest, digit, chars⟩ := plain.exists_cons
    rw [text_of_isFinite h, plain.chars_eq, chars]
    apply List.any_eq_true.mpr
    exact ⟨first, List.mem_append_right _ List.mem_cons_self, digit⟩
  | false =>
    rw [text_of_not_isFinite h]
    split
    · decide
    · split <;> decide

/-- Different weights are written differently, but for the NaNs. -/
theorem text_injective (h : w.text = v.text) : w = v ∨ w.isNaN ∧ v.isNaN := by
  have digits : w.isFinite = v.isFinite := by
    rw [← any_isDigit_text, ← any_isDigit_text, h]
  cases finite : w.isFinite with
  | true =>
    have finite' := digits.symm.trans finite
    have chars := congrArg String.toList h
    rw [text_of_isFinite finite, text_of_isFinite finite'] at chars
    have writes := Numeral.writes_ofWeight finite
    have writes' := Numeral.writes_ofWeight finite'
    rw [← writes.plain.chars_injective writes'.plain chars] at writes'
    exact .inl (writes.unique writes')
  | false =>
    have finite' := digits.symm.trans finite
    rw [text_of_not_isFinite finite, text_of_not_isFinite finite'] at h
    cases nan : w.isNaN <;> cases nan' : v.isNaN <;>
      simp only [nan, nan', if_true, if_false, Bool.false_eq_true] at h
    · left
      have infinite := (isFinite_eq_false_iff.mp finite).resolve_left (by simp [nan])
      have infinite' := (isFinite_eq_false_iff.mp finite').resolve_left (by simp [nan'])
      refine eq_of_parts ?_ ((of_decide_eq_true infinite).trans (of_decide_eq_true infinite').symm)
      cases sign : w.negative <;> cases sign' : v.negative <;> simp [sign, sign'] at h ⊢
    · split at h <;> exact absurd h (by decide)
    · split at h <;> exact absurd h (by decide)
    · exact .inr ⟨rfl, rfl⟩

/-- Equal as numbers, or both of them no numbers. -/
def Same (w v : Weight) : Prop := w.numEq v ∨ w.isNaN ∧ v.isNaN

theorem same_of_text_eq (h : w.text = v.text) : w.Same v := by
  rcases text_injective h with rfl | nan
  · cases nan : w.isNaN with
    | false => exact .inl (numEq_self nan)
    | true => exact .inr ⟨nan, nan⟩
  · exact .inr nan

theorem same_of_isZero (hw : w.isZero) (hv : v.isZero) : w.Same v := by
  left
  have number : w.isNaN = false := by
    have zero : w.magnitude = 0 := of_decide_eq_true hw
    rw [isNaN, zero]
    decide
  rw [numEq, number, hw, hv]
  simp

/-- No text of a weight holds a character that separates fields or lines. -/
theorem text_free (w : Weight) : '\t' ∉ w.text.toList ∧ '\n' ∉ w.text.toList := by
  cases finite : w.isFinite with
  | true =>
    have plain := (Numeral.writes_ofWeight finite).plain
    rw [text_of_isFinite finite]
    refine ⟨fun mem => ?_, fun mem => ?_⟩
    · exact absurd (plain.mem_chars mem) (by decide)
    · exact absurd (plain.mem_chars mem) (by decide)
  | false =>
    rw [text_of_not_isFinite finite]
    split
    · decide
    · split <;> decide

end Weight

end Transducer
