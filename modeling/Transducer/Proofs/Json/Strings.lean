import Transducer.Json.Field
import Transducer.Json.Lexeme
/-!
Texts as JSON strings. A character is written as itself, behind a backslash or by its number, and
each of these is read back before whatever follows it. So the string of a text means the text, and
it ends at its closing quote.
-/

namespace Transducer

namespace JsonString

/-- What a JSON string may write for a character; halves of surrogate pairs are left out. -/
inductive Spells : Char → List Char → Prop where
  | letter {c e : Char} (h : escaped? e = some c) : Spells c ['\\', e]
  | number {c w x y z : Char} (h : hexNumber? [w, x, y, z] = some c.toNat)
    (low : c.toNat < 0xD800) (digits : ∀ d ∈ [w, x, y, z], (hexValue? d).isSome) :
    Spells c ['\\', 'u', w, x, y, z]
  | plain {c : Char} (bar : c ≠ '\\') (quote : c ≠ '"') (printed : 0x20 ≤ c.toNat) : Spells c [c]

variable {c e : Char} {cs done rest : List Char}

theorem ne_u_of_escaped? (h : escaped? e = some c) : e ≠ 'u' := by
  rintro rfl
  cases h

/-- The digits of a control character, padded to four. -/
theorem hexDigits_of_control : ∀ n < 0x20, hexNumber? (hexDigits n) = some n ∧
    (hexDigits n).length = 4 ∧ (hexDigits n).all fun d => (hexValue? d).isSome := by
  decide

theorem spells_encodeChar (c : Char) : Spells c (encodeChar c) := by
  rw [encodeChar.eq_def]
  split
  case h_8 quote bar _ _ _ _ _ =>
    split
    · next control =>
      obtain ⟨value, four, digits⟩ := hexDigits_of_control c.toNat control
      obtain ⟨w, x, y, z, parts⟩ : ∃ w x y z, hexDigits c.toNat = [w, x, y, z] := by
        match hexDigits c.toNat, four with
        | [w, x, y, z], _ => exact ⟨w, x, y, z, rfl⟩
      rw [parts] at value digits ⊢
      exact .number value (by omega) (List.all_eq_true.mp digits)
    · next printed => exact .plain bar quote (Nat.le_of_not_lt printed)
  all_goals exact .letter rfl

/-- The number of a character below the surrogates stands alone, whatever comes next. -/
theorem decode_number {w x y z : Char} {n : Nat} (h : hexNumber? [w, x, y, z] = some n)
    (low : n < 0xD800) : decode done ('\\' :: 'u' :: w :: x :: y :: z :: rest) =
      decode (Char.ofNat n :: done) rest := by
  have alone : (n < 0xD800 || 0xE000 ≤ n) = true := by simp [low]
  by_cases more : ∃ e f g h tail, rest = '\\' :: 'u' :: e :: f :: g :: h :: tail
  · obtain ⟨e, f, g, h, tail, rfl⟩ := more
    simp [decode, *]
  · have last : ∀ e f g h tail, rest ≠ '\\' :: 'u' :: e :: f :: g :: h :: tail := by
      intro e f g h tail same
      exact more ⟨e, f, g, h, tail, same⟩
    simp [decode, *]

theorem Spells.decode (h : Spells c cs) (done rest : List Char) :
    decode done (cs ++ rest) = JsonString.decode (c :: done) rest := by
  cases h with
  | letter h =>
    have other := ne_u_of_escaped? h
    simp [JsonString.decode, h, other]
  | number h low _ =>
    rw [← c.ofNat_toNat]
    exact decode_number h low
  | plain bar _ _ => simp [JsonString.decode, bar]

/-- The string of a text means the text. -/
@[simp] theorem text?_ofText (s : String) : (ofText s).text? = some s := by
  have all (cs done : List Char) :
      decode done (cs.flatMap encodeChar) = some (done.reverse ++ cs) := by
    induction cs generalizing done with
    | nil => simp [decode]
    | cons c cs ih =>
      rw [List.flatMap_cons, (spells_encodeChar c).decode, ih]
      simp
  rw [text?, ofText, all]
  simp

theorem Spells.stringBody (h : Spells c cs) (done rest : List Char) :
    Json.Lexeme.stringBody done (cs ++ rest) =
      Json.Lexeme.stringBody (cs.reverse ++ done) rest := by
  cases h with
  | letter h =>
    have other := ne_u_of_escaped? h
    simp [Json.Lexeme.stringBody, h, other]
  | number _ _ digits =>
    have all := List.all_eq_true.mpr digits
    simp only [List.cons_append, List.nil_append, Json.Lexeme.stringBody, all, if_true]
    rfl
  | plain bar quote printed =>
    have control : ¬c.toNat < 0x20 := Nat.not_lt.mpr printed
    simp [Json.Lexeme.stringBody, bar, control]

/-- A JSON string that is a lexeme: its body ends at the closing quote, whatever follows. -/
def Closes (s : JsonString) : Prop :=
  ∀ rest, Json.Lexeme.stringBody [] (s.body ++ '"' :: rest) = some (s.body, rest)

theorem closes_ofText (s : String) : (ofText s).Closes := by
  have all (cs done rest : List Char) :
      Json.Lexeme.stringBody done (cs.flatMap encodeChar ++ '"' :: rest) =
        some (done.reverse ++ cs.flatMap encodeChar, rest) := by
    induction cs generalizing done with
    | nil => simp [Json.Lexeme.stringBody]
    | cons c cs ih =>
      rw [List.flatMap_cons, List.append_assoc, (spells_encodeChar c).stringBody, ih]
      simp
  exact all s.toList []

end JsonString

end Transducer
