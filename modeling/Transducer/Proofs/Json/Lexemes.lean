import Mathlib.Data.List.TakeDrop
import Transducer.Json.Writer
import Transducer.Proofs.Json.Strings
/-!
The lexemes of a written JSON value. Strings end at their closing quotes, and numbers at the comma
or bracket behind them; so a text of values falls into the lexemes of the values, one after the
other.
-/

namespace Transducer

theorem isDigit_toDigits {n : Nat} : ∀ c ∈ Nat.toDigits 10 n, c.isDigit := by
  intro c mem
  exact Nat.isDigit_of_mem_toDigits (by decide) (Nat.le_refl 10) mem

/-- The first digit of a number is zero for zero only. -/
theorem head?_toDigits {n : Nat} (pos : 0 < n) : (Nat.toDigits 10 n).head? ≠ some '0' := by
  induction n using Nat.strongRecOn with
  | ind n ih =>
    rw [Nat.toDigits_eq_if (by decide)]
    split
    · next small =>
      have digits : ∀ n < 10, 0 < n → [n.digitChar].head? ≠ some '0' := by decide
      exact digits n small pos
    · next large =>
      have filled : Nat.toDigits 10 (n / 10) ≠ [] := Nat.toDigits_ne_nil
      obtain ⟨c, ds, front⟩ := List.exists_cons_of_ne_nil filled
      have first := ih (n / 10) (by omega) (by omega)
      rw [front] at first ⊢
      exact first

namespace Numeral

/-- A number as JSON has it: no needless zeros in front, and digits wherever there is a point or a
power of ten. -/
structure Legal (n : Numeral) : Prop where
  whole : ∀ c ∈ n.whole, c.isDigit
  filled : n.whole ≠ []
  leading : n.whole.head? = some '0' → n.whole = ['0']
  fraction : ∀ c ∈ n.fraction, c.isDigit
  power : ∀ p ∈ n.power, p.2 ≠ [] ∧ ∀ c ∈ p.2, c.isDigit

/-- What a numeral writes from the point on. -/
def fractionChars (n : Numeral) : List Char :=
  if n.fraction.isEmpty then [] else '.' :: n.fraction

def powerChars (n : Numeral) : List Char :=
  match n.power with
  | none => []
  | some (below, digits) => 'e' :: (if below then '-' else '+') :: digits

theorem chars_eq_parts (n : Numeral) : n.chars =
    (if n.negative then ['-'] else []) ++ n.whole ++ n.fractionChars ++ n.powerChars := rfl

theorem legal_ofNat (n : Nat) : Legal ⟨false, Nat.toDigits 10 n, [], none⟩ where
  whole := isDigit_toDigits
  filled := Nat.toDigits_ne_nil
  leading zero := by
    rcases Nat.eq_zero_or_pos n with rfl | pos
    · exact Nat.toDigits_zero 10
    · exact absurd zero (head?_toDigits pos)
  fraction := by simp
  power := by simp

end Numeral

namespace Json

/-- What may stand behind a value. -/
def EndsValue (rest : List Char) : Prop := ∀ c ∈ rest.head?, c = ',' ∨ c = ']' ∨ c = '\x7d'

theorem EndsValue.not_isDigit {rest : List Char} (h : EndsValue rest) :
    ∀ c ∈ rest.head?, c.isDigit = false := by
  intro c mem
  rcases h c mem with rfl | rfl | rfl
  all_goals decide

/-- Values whose strings and numbers are lexemes. -/
inductive Legal : Json → Prop where
  | null : Legal null
  | bool (value : Bool) : Legal (bool value)
  | number {n : Numeral} (h : n.Legal) : Legal (number n)
  | string {s : JsonString} (h : s.Closes) : Legal (string s)
  | array {items : List Json} (h : ∀ j ∈ items, Legal j) : Legal (array items)
  | object {fields : List (JsonString × Json)} (names : ∀ f ∈ fields, f.1.Closes)
    (values : ∀ f ∈ fields, Legal f.2) : Legal (object fields)

theorem legal_ofText (s : String) : (ofText s).Legal := .string (JsonString.closes_ofText s)

theorem legal_ofNat (n : Nat) : (ofNat n).Legal := .number (Numeral.legal_ofNat n)

theorem legal_ofTexts (texts : List String) : (ofTexts texts).Legal := by
  apply Legal.array
  intro j mem
  obtain ⟨s, _, rfl⟩ := List.mem_map.mp mem
  exact legal_ofText s

theorem legal_ofFields {fields : List (String × Json)} (h : ∀ f ∈ fields, f.2.Legal) :
    (ofFields fields).Legal := by
  apply Legal.object
  · intro f mem
    obtain ⟨named, _, rfl⟩ := List.mem_map.mp mem
    exact JsonString.closes_ofText named.1
  · intro f mem
    obtain ⟨named, there, rfl⟩ := List.mem_map.mp mem
    exact h named there

mutual

/-- The lexemes of a value. -/
def lexemes : Json → List Lexeme
  | array items => .beginArray :: itemLexemes items ++ [.endArray]
  | object fields => .beginObject :: fieldLexemes fields ++ [.endObject]
  | j => [.value j]

def itemLexemes : List Json → List Lexeme
  | [] => []
  | [item] => item.lexemes
  | item :: rest => item.lexemes ++ .comma :: itemLexemes rest

def fieldLexemes : List (JsonString × Json) → List Lexeme
  | [] => []
  | [(name, value)] => .value (.string name) :: .colon :: value.lexemes
  | (name, value) :: rest =>
    .value (.string name) :: .colon :: value.lexemes ++ .comma :: fieldLexemes rest

end

namespace Lexeme

variable {c : Char} {l : Lexeme} {ls : List Lexeme} {ds text rest more : List Char}

/-- A text falls into lexemes, without white space between them. -/
inductive Lexes : List Char → List Lexeme → Prop where
  | nil : Lexes [] []
  | cons {c : Char} {rest more : List Char} {l : Lexeme} {ls : List Lexeme}
    (space : isSpace c = false) (first : Lexeme.next c rest = some (l, more))
    (shorter : more.length ≤ rest.length) (later : Lexes more ls) : Lexes (c :: rest) (l :: ls)

theorem Lexes.ofChars (h : Lexes text ls) {count : Nat} (enough : text.length ≤ count)
    (done : List Lexeme) : ofChars done count text = some (done.reverse ++ ls) := by
  induction h generalizing done count with
  | nil => simp [Lexeme.ofChars]
  | cons space first shorter _ ih =>
    cases count with
    | zero => simp at enough
    | succ count =>
      rw [List.length_cons] at enough
      rw [Lexeme.ofChars, space, if_neg Bool.false_ne_true, first]
      dsimp only
      rw [ih (by omega)]
      simp

theorem Lexes.string {s : JsonString} (closes : s.Closes) (later : Lexes rest ls) :
    Lexes (quotedChars s ++ rest) (.value (.string s) :: ls) := by
  have body : quotedChars s ++ rest = '"' :: (s.body ++ '"' :: rest) := by simp [quotedChars]
  rw [body]
  refine .cons (by decide) ?_ ?_ later
  · rw [Lexeme.next, closes rest]
    rfl
  · rw [List.length_append, List.length_cons]
    omega

/-- Digits are read up to something else. -/
theorem digits_append (filled : ds ≠ []) (all : ∀ c ∈ ds, c.isDigit)
    (other : ∀ c ∈ rest.head?, c.isDigit = false) : digits (ds ++ rest) = some (ds, rest) := by
  have stop : rest.takeWhile Char.isDigit = [] ∧ rest.dropWhile Char.isDigit = rest := by
    cases rest with
    | nil => exact ⟨rfl, rfl⟩
    | cons c rest => simp [other c rfl]
  have split : (ds ++ rest).span Char.isDigit = (ds, rest) := by
    rw [List.span_eq_takeWhile_dropWhile, List.takeWhile_append_of_pos all,
      List.dropWhile_append_of_pos all, stop.1, stop.2, List.append_nil]
  rw [digits, split]
  cases ds with
  | nil => exact absurd rfl filled
  | cons c ds => rfl

theorem wholeDigits_append (filled : ds ≠ []) (all : ∀ c ∈ ds, c.isDigit)
    (leading : ds.head? = some '0' → ds = ['0'])
    (other : ∀ c ∈ rest.head?, c.isDigit = false) :
    wholeDigits (ds ++ rest) = some (ds, rest) := by
  by_cases zero : ds.head? = some '0'
  · rw [leading zero]
    rfl
  · rw [wholeDigits.eq_2]
    · exact digits_append filled all other
    · intro more same
      cases ds with
      | nil => exact filled rfl
      | cons c ds =>
        obtain ⟨rfl, -⟩ := List.cons.inj same
        exact zero rfl

theorem fractionDigits_append {n : Numeral} (legal : n.Legal)
    (other : ∀ c ∈ rest.head?, c.isDigit = false ∧ c ≠ '.') :
    fractionDigits (n.fractionChars ++ rest) = some (n.fraction, rest) := by
  rw [Numeral.fractionChars]
  cases fraction : n.fraction with
  | nil =>
    rw [List.isEmpty_nil, if_pos rfl, List.nil_append, fractionDigits.eq_2]
    rintro more rfl
    exact (other '.' rfl).2 rfl
  | cons c ds =>
    have all := legal.fraction
    rw [fraction] at all
    rw [List.isEmpty_cons, if_neg Bool.false_ne_true, List.cons_append, fractionDigits]
    exact digits_append (List.cons_ne_nil c ds) all fun c mem => (other c mem).1

theorem power_append {n : Numeral} (legal : n.Legal) (ends : EndsValue rest) :
    power (n.powerChars ++ rest) = some (n.power, rest) := by
  rw [Numeral.powerChars]
  cases written : n.power with
  | none =>
    rw [List.nil_append]
    cases rest with
    | nil => rfl
    | cons c rest =>
      rcases ends c rfl with rfl | rfl | rfl
      all_goals rfl
  | some p =>
    obtain ⟨below, ds⟩ := p
    obtain ⟨filled, all⟩ := legal.power (below, ds) written
    have read := digits_append filled all ends.not_isDigit
    cases below with
    | false => simp [power, read]
    | true => simp [power, read]

theorem head?_powerChars_append {n : Numeral} (ends : EndsValue rest) :
    ∀ c ∈ (n.powerChars ++ rest).head?, c.isDigit = false ∧ c ≠ '.' := by
  intro c mem
  rw [Numeral.powerChars] at mem
  cases written : n.power with
  | none =>
    rw [written] at mem
    rcases ends c mem with rfl | rfl | rfl
    all_goals decide
  | some p =>
    rw [written] at mem
    obtain rfl : 'e' = c := by simpa using mem
    decide

theorem head?_fractionChars_append {n : Numeral} (ends : EndsValue rest) :
    ∀ c ∈ (n.fractionChars ++ (n.powerChars ++ rest)).head?, c.isDigit = false := by
  intro c mem
  rw [Numeral.fractionChars] at mem
  split at mem
  · exact (head?_powerChars_append ends c mem).1
  · obtain rfl : c = '.' := by simpa using mem.symm
    decide

/-- A number is read up to the comma or bracket behind it. -/
theorem numeral_append {n : Numeral} (legal : n.Legal) (ends : EndsValue rest) :
    numeral n.negative (n.whole ++ (n.fractionChars ++ (n.powerChars ++ rest))) =
      some (n, rest) := by
  have whole := wholeDigits_append legal.filled legal.whole legal.leading
    (head?_fractionChars_append (n := n) ends)
  have fraction := fractionDigits_append legal (head?_powerChars_append (n := n) ends)
  have power := power_append legal ends
  simp only [numeral, whole, fraction, power, Option.bind_eq_bind, Option.bind_some]
  rfl

theorem isDigit_ne {d : Char} (digit : c.isDigit) (other : d.isDigit = false) : c ≠ d := by
  rintro rfl
  exact absurd digit (by simp [other])

theorem next_of_isDigit (digit : c.isDigit) :
    next c rest = (numeral false (c :: rest)).map fun (n, rest) => (value (.number n), rest) := by
  rw [next.eq_12]
  all_goals
    intros
    subst c
    exact absurd digit (by decide)

theorem next_minus (rest : List Char) :
    next '-' rest = (numeral true rest).map fun (n, rest) => (value (.number n), rest) :=
  next.eq_11 rest

theorem Lexes.number {n : Numeral} (legal : n.Legal) (ends : EndsValue rest)
    (later : Lexes rest ls) : Lexes (n.chars ++ rest) (.value (.number n) :: ls) := by
  have read := numeral_append legal ends
  have longer : rest.length ≤ (n.fractionChars ++ (n.powerChars ++ rest)).length := by
    simp only [List.length_append]
    omega
  rw [Numeral.chars_eq_parts]
  simp only [List.append_assoc]
  generalize n.fractionChars ++ (n.powerChars ++ rest) = text at read longer ⊢
  obtain ⟨c, ds, whole⟩ := List.exists_cons_of_ne_nil legal.filled
  have digit : c.isDigit := legal.whole c (by rw [whole]; exact List.mem_cons_self)
  rw [whole, List.cons_append] at read ⊢
  cases sign : n.negative with
  | true =>
    rw [sign] at read
    refine Lexes.cons (by decide) ?_ ?_ later
    · show Lexeme.next '-' (c :: (ds ++ text)) = _
      rw [next_minus, read]
      rfl
    · show rest.length ≤ (c :: (ds ++ text)).length
      simp only [List.length_cons, List.length_append]
      omega
  | false =>
    rw [sign] at read
    refine Lexes.cons ?_ ?_ ?_ later
    · have apart (d : Char) (other : d.isDigit = false) := isDigit_ne digit other
      simp [isSpace, apart]
    · show Lexeme.next c (ds ++ text) = _
      rw [next_of_isDigit digit, read]
      rfl
    · show rest.length ≤ (ds ++ text).length
      rw [List.length_append]
      omega

end Lexeme

open Lexeme

variable {items : List Json} {fields : List (JsonString × Json)} {ls : List Lexeme}
  {rest : List Char}

/-- Brackets, commas and colons are lexemes of one character. -/
theorem Lexeme.Lexes.mark {c : Char} {l : Lexeme} (space : isSpace c = false)
    (one : ∀ rest, Lexeme.next c rest = some (l, rest)) (later : Lexes rest ls) :
    Lexes (c :: rest) (l :: ls) :=
  .cons space (one rest) (Nat.le_refl _) later

theorem Lexeme.Lexes.comma (later : Lexes rest ls) : Lexes (',' :: rest) (.comma :: ls) :=
  later.mark (by decide) fun _ => rfl

/-- A value falls into its lexemes, if what stands behind it ends it. -/
def Falls (j : Json) : Prop :=
  ∀ rest ls, EndsValue rest → Lexes rest ls → Lexes (j.chars ++ rest) (j.lexemes ++ ls)

theorem falls_items (falls : ∀ j ∈ items, j.Falls) (ends : EndsValue rest)
    (later : Lexes rest ls) : Lexes (itemChars items ++ rest) (itemLexemes items ++ ls) := by
  induction items with
  | nil => exact later
  | cons j more ih =>
    obtain ⟨first, others⟩ := List.forall_mem_cons.mp falls
    cases more with
    | nil => exact first rest ls ends later
    | cons k more =>
      have comma : EndsValue (',' :: (itemChars (k :: more) ++ rest)) := by
        simp [EndsValue]
      have all := first _ _ comma (ih others).comma
      simpa only [itemChars, itemLexemes, List.append_assoc, List.cons_append] using all

theorem falls_fields (names : ∀ f ∈ fields, f.1.Closes) (falls : ∀ f ∈ fields, f.2.Falls)
    (ends : EndsValue rest) (later : Lexes rest ls) :
    Lexes (fieldChars fields ++ rest) (fieldLexemes fields ++ ls) := by
  induction fields with
  | nil => exact later
  | cons f more ih =>
    obtain ⟨name, value⟩ := f
    obtain ⟨closes, names⟩ := List.forall_mem_cons.mp names
    obtain ⟨first, others⟩ := List.forall_mem_cons.mp falls
    have field {rest : List Char} {ls : List Lexeme} (later : Lexes rest ls) :
        Lexes (quotedChars name ++ ':' :: rest) (.value (.string name) :: .colon :: ls) :=
      .string closes (later.mark (by decide) fun _ => rfl)
    cases more with
    | nil =>
      have all := field (first rest ls ends later)
      simpa only [fieldChars, fieldLexemes, List.append_assoc, List.cons_append] using all
    | cons g more =>
      have comma : EndsValue (',' :: (fieldChars (g :: more) ++ rest)) := by
        simp [EndsValue]
      have all := field (first _ _ comma (ih names others).comma)
      simpa only [fieldChars, fieldLexemes, List.append_assoc, List.cons_append] using all

theorem Legal.falls {j : Json} (h : j.Legal) : j.Falls := by
  induction h with
  | null =>
    intro rest ls _ later
    exact .cons (by decide) rfl (List.suffix_append ['u', 'l', 'l'] rest).length_le later
  | bool value =>
    intro rest ls _ later
    cases value with
    | true => exact .cons (by decide) rfl (List.suffix_append ['r', 'u', 'e'] rest).length_le later
    | false =>
      exact .cons (by decide) rfl (List.suffix_append ['a', 'l', 's', 'e'] rest).length_le later
  | number h =>
    intro rest ls ends later
    exact .number h ends later
  | string h =>
    intro rest ls _ later
    exact .string h later
  | @array items _ falls =>
    intro rest ls _ later
    have close : Lexes (']' :: rest) (.endArray :: ls) := later.mark (by decide) fun _ => rfl
    have inside := falls_items falls (by simp [EndsValue]) close
    have all : Lexes ('[' :: _) (.beginArray :: _) := inside.mark (by decide) fun _ => rfl
    simpa only [chars, lexemes, List.append_assoc, List.cons_append, List.nil_append] using all
  | @object fields names _ falls =>
    intro rest ls _ later
    have close : Lexes ('\x7d' :: rest) (.endObject :: ls) := later.mark (by decide) fun _ => rfl
    have inside := falls_fields names falls (by simp [EndsValue]) close
    have all : Lexes ('\x7b' :: _) (.beginObject :: _) := inside.mark (by decide) fun _ => rfl
    simpa only [chars, lexemes, List.append_assoc, List.cons_append, List.nil_append] using all

/-- The text of a value falls into the lexemes of the value. -/
theorem Legal.ofChars_chars {j : Json} (h : j.Legal) :
    Lexeme.ofChars [] j.chars.length j.chars = some j.lexemes := by
  have whole := h.falls [] [] (by simp [EndsValue]) .nil
  rw [List.append_nil, List.append_nil] at whole
  exact whole.ofChars (Nat.le_refl _) []

end Json

end Transducer
