import Transducer.Json.Basic
/-!
The lexemes of a JSON text: brackets, commas, colons, and the values that have no parts.
-/

namespace Transducer.Json

inductive Lexeme where
  | beginArray
  | endArray
  | beginObject
  | endObject
  | comma
  | colon
  | value (j : Json)
  deriving Repr

namespace Lexeme

def isSpace (c : Char) : Bool := c = ' ' || c = '\t' || c = '\n' || c = '\r'

/-- The body of a string up to its closing quote, and what follows; `done` is what has been read,
latest first. -/
def stringBody (done : List Char) : List Char → Option (List Char × List Char)
  | [] => none
  | '"' :: rest => some (done.reverse, rest)
  | '\\' :: 'u' :: a :: b :: c :: d :: rest =>
    if [a, b, c, d].all fun x => (JsonString.hexValue? x).isSome then
      stringBody (d :: c :: b :: a :: 'u' :: '\\' :: done) rest
    else none
  | '\\' :: c :: rest =>
    if (JsonString.escaped? c).isSome then stringBody (c :: '\\' :: done) rest else none
  | c :: rest => if c.toNat < 0x20 || c = '\\' then none else stringBody (c :: done) rest

/-- Digits before or after a point: at least one. -/
def digits (text : List Char) : Option (List Char × List Char) :=
  let found := text.span Char.isDigit
  if found.1.isEmpty then none else some found

/-- The digits before the point; a zero stands alone. -/
def wholeDigits : List Char → Option (List Char × List Char)
  | '0' :: rest => some (['0'], rest)
  | text => digits text

def fractionDigits : List Char → Option (List Char × List Char)
  | '.' :: rest => digits rest
  | text => some ([], text)

/-- The power of ten, if one is written. -/
def power : List Char → Option (Option (Bool × List Char) × List Char)
  | c :: rest =>
    if c = 'e' || c = 'E' then
      match rest with
      | '-' :: rest => (digits rest).map fun (ds, rest) => (some (true, ds), rest)
      | '+' :: rest => (digits rest).map fun (ds, rest) => (some (false, ds), rest)
      | rest => (digits rest).map fun (ds, rest) => (some (false, ds), rest)
    else some (none, c :: rest)
  | [] => some (none, [])

/-- A number without its sign. -/
def numeral (negative : Bool) (text : List Char) : Option (Numeral × List Char) := do
  let (whole, text) ← wholeDigits text
  let (fraction, text) ← fractionDigits text
  let (power, text) ← power text
  return (⟨negative, whole, fraction, power⟩, text)

/-- The lexeme that begins with `c`, and what follows it. -/
def next (c : Char) (rest : List Char) : Option (Lexeme × List Char) :=
  match c, rest with
  | '[', rest => some (beginArray, rest)
  | ']', rest => some (endArray, rest)
  | '\x7b', rest => some (beginObject, rest)
  | '\x7d', rest => some (endObject, rest)
  | ',', rest => some (comma, rest)
  | ':', rest => some (colon, rest)
  | '"', rest => (stringBody [] rest).map fun (body, rest) => (value (.string ⟨body⟩), rest)
  | 'n', 'u' :: 'l' :: 'l' :: rest => some (value .null, rest)
  | 't', 'r' :: 'u' :: 'e' :: rest => some (value (.bool true), rest)
  | 'f', 'a' :: 'l' :: 's' :: 'e' :: rest => some (value (.bool false), rest)
  | '-', rest => (numeral true rest).map fun (n, rest) => (value (.number n), rest)
  | c, rest => (numeral false (c :: rest)).map fun (n, rest) => (value (.number n), rest)

/-- The lexemes of a text, latest first in `done`; `count` bounds their number. -/
def ofChars (done : List Lexeme) : (count : Nat) → List Char → Option (List Lexeme)
  | _, [] => some done.reverse
  | 0, _ :: _ => none
  | count + 1, c :: rest =>
    if isSpace c then ofChars done count rest
    else
      match next c rest with
      | none => none
      | some (l, rest) => ofChars (l :: done) count rest

end Lexeme

end Transducer.Json
