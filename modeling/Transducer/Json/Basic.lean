import Transducer.Weight.Numeral
/-!
JSON values, with numbers and strings as they are written. What a number or a string means is
decided where it is read, so a value that nobody reads need not mean anything.
-/

namespace Transducer

/-- What stands between the quotes of a JSON string. -/
structure JsonString where
  body : List Char
  deriving DecidableEq, Repr, Inhabited

inductive Json where
  | null
  | bool (value : Bool)
  | number (numeral : Numeral)
  | string (literal : JsonString)
  | array (items : List Json)
  | object (fields : List (JsonString × Json))
  deriving Repr, Inhabited

namespace JsonString

/-- Four hexadecimal digits, in lower case. -/
def hexDigits (n : Nat) : List Char :=
  let digits := Nat.toDigits 16 n
  List.replicate (4 - digits.length) '0' ++ digits

def encodeChar (c : Char) : List Char :=
  match c with
  | '"' => ['\\', '"']
  | '\\' => ['\\', '\\']
  | '\x08' => ['\\', 'b']
  | '\x0c' => ['\\', 'f']
  | '\n' => ['\\', 'n']
  | '\r' => ['\\', 'r']
  | '\t' => ['\\', 't']
  | c => if c.toNat < 0x20 then '\\' :: 'u' :: hexDigits c.toNat else [c]

/-- Writes a text; only quotes, backslashes and control characters are escaped. -/
def ofText (s : String) : JsonString := ⟨s.toList.flatMap encodeChar⟩

def hexValue? (c : Char) : Option Nat :=
  if c.isDigit then some (c.toNat - '0'.toNat)
  else if 'a' ≤ c && c ≤ 'f' then some (c.toNat - 'a'.toNat + 10)
  else if 'A' ≤ c && c ≤ 'F' then some (c.toNat - 'A'.toNat + 10)
  else none

/-- The number that hexadecimal digits write. -/
def hexNumber? (digits : List Char) : Option Nat :=
  digits.foldlM (fun n c => (hexValue? c).map (n * 16 + ·)) 0

/-- The character of a code unit pair, if it is a high and a low surrogate. -/
def joinSurrogates? (high low : Nat) : Option Char :=
  if 0xD800 ≤ high && high < 0xDC00 && 0xDC00 ≤ low && low < 0xE000 then
    some (Char.ofNat (0x10000 + (high - 0xD800) * 0x400 + (low - 0xDC00)))
  else none

/-- The character that a single letter after a backslash stands for. -/
def escaped? : Char → Option Char
  | '"' => some '"'
  | '\\' => some '\\'
  | '/' => some '/'
  | 'b' => some '\x08'
  | 'f' => some '\x0c'
  | 'n' => some '\n'
  | 'r' => some '\r'
  | 't' => some '\t'
  | _ => none

/-- Reads the characters, latest first in `done`. Surrogates have to come in pairs. -/
def decode (done : List Char) : List Char → Option (List Char)
  | [] => some done.reverse
  | '\\' :: 'u' :: a :: b :: c :: d :: '\\' :: 'u' :: e :: f :: g :: h :: rest => do
    let first ← hexNumber? [a, b, c, d]
    if first < 0xD800 || 0xE000 ≤ first then
      decode (Char.ofNat first :: done) ('\\' :: 'u' :: e :: f :: g :: h :: rest)
    else decode ((← joinSurrogates? first (← hexNumber? [e, f, g, h])) :: done) rest
  | '\\' :: 'u' :: a :: b :: c :: d :: rest => do
    let n ← hexNumber? [a, b, c, d]
    if n < 0xD800 || 0xE000 ≤ n then decode (Char.ofNat n :: done) rest else none
  | '\\' :: c :: rest => do decode ((← escaped? c) :: done) rest
  | c :: rest => decode (c :: done) rest

/-- The text that a string means, if it means one. -/
def text? (s : JsonString) : Option String := (decode [] s.body).map String.ofList

end JsonString

namespace Json

/-- The JSON string of a text. -/
def ofText (s : String) : Json := string (.ofText s)

def ofTexts (texts : List String) : Json := array (texts.map ofText)

/-- An object with given field names. -/
def ofFields (fields : List (String × Json)) : Json :=
  object (fields.map fun (name, value) => (.ofText name, value))

def ofNat (n : Nat) : Json := number ⟨false, Nat.toDigits 10 n, [], none⟩

end Json

end Transducer
