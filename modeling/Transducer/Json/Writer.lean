import Transducer.Json.Basic
/-!
Writing JSON without any white space.
-/

namespace Transducer.Json

def quotedChars (s : JsonString) : List Char := '"' :: s.body ++ ['"']

mutual

def chars : Json → List Char
  | null => ['n', 'u', 'l', 'l']
  | bool true => ['t', 'r', 'u', 'e']
  | bool false => ['f', 'a', 'l', 's', 'e']
  | number n => n.chars
  | string s => quotedChars s
  | array items => '[' :: itemChars items ++ [']']
  | object fields => '\x7b' :: fieldChars fields ++ ['\x7d']

/-- Items with commas between them. -/
def itemChars : List Json → List Char
  | [] => []
  | [item] => item.chars
  | item :: rest => item.chars ++ ',' :: itemChars rest

/-- Fields with commas between them. -/
def fieldChars : List (JsonString × Json) → List Char
  | [] => []
  | [(name, value)] => quotedChars name ++ ':' :: value.chars
  | (name, value) :: rest => quotedChars name ++ ':' :: value.chars ++ ',' :: fieldChars rest

end

def text (j : Json) : String := String.ofList j.chars

end Transducer.Json
