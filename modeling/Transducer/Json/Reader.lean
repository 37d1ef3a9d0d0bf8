import Transducer.Json.Lexeme
/-!
Reading JSON. Lexemes are taken one by one with the brackets that are still open on a stack, so
values may be nested to any depth.
-/

namespace Transducer.Json

/-- An open bracket and what stands behind it, latest first. -/
inductive Frame where
  | array (items : List Json)
  | object (fields : List (JsonString × Json))
  /-- An object that waits for the value of its last field. -/
  | field (fields : List (JsonString × Json)) (name : JsonString)
  deriving Repr

/-- What may come next. -/
inductive Expected where
  | value
  /-- What may follow an opening bracket. -/
  | first
  | name
  | colon
  /-- A comma or a closing bracket. -/
  | separator
  /-- Nothing: this is the whole value. -/
  | nothing (result : Json)
  deriving Repr

/-- The text read so far. -/
structure Reading where
  frames : List Frame
  expected : Expected
  deriving Repr

namespace Reading

def start : Reading := ⟨[], .value⟩

/-- Puts a finished value where it belongs. -/
def place (v : Json) : List Frame → Option Reading
  | [] => some ⟨[], .nothing v⟩
  | .array items :: rest => some ⟨.array (v :: items) :: rest, .separator⟩
  | .field fields name :: rest => some ⟨.object ((name, v) :: fields) :: rest, .separator⟩
  | .object _ :: _ => none

/-- Takes a lexeme where a value has to stand. -/
def takeValue (frames : List Frame) : Lexeme → Option Reading
  | .beginArray => some ⟨.array [] :: frames, .first⟩
  | .beginObject => some ⟨.object [] :: frames, .first⟩
  | .value v => place v frames
  | _ => none

/-- Takes one lexeme; nothing if it cannot stand here. -/
def step (r : Reading) (l : Lexeme) : Option Reading :=
  match r.expected, r.frames, l with
  | .value, frames, l => takeValue frames l
  | .first, .array _ :: rest, .endArray => place (.array []) rest
  | .first, .array items :: rest, l => takeValue (.array items :: rest) l
  | .first, .object _ :: rest, .endObject => place (.object []) rest
  | .first, .object fields :: rest, .value (.string name) =>
    some ⟨.field fields name :: rest, .colon⟩
  | .name, .object fields :: rest, .value (.string name) =>
    some ⟨.field fields name :: rest, .colon⟩
  | .colon, frames, .colon => some ⟨frames, .value⟩
  | .separator, .array items :: rest, .comma => some ⟨.array items :: rest, .value⟩
  | .separator, .array items :: rest, .endArray => place (.array items.reverse) rest
  | .separator, .object fields :: rest, .comma => some ⟨.object fields :: rest, .name⟩
  | .separator, .object fields :: rest, .endObject => place (.object fields.reverse) rest
  | _, _, _ => none

def result? (r : Reading) : Option Json :=
  match r.expected with
  | .nothing j => some j
  | _ => none

end Reading

/-- The value that a text writes, if it is JSON. -/
def ofText? (text : String) : Option Json := do
  let chars := text.toList
  let lexemes ← Lexeme.ofChars [] chars.length chars
  (← lexemes.foldlM Reading.step Reading.start).result?

end Transducer.Json
