import Transducer.Json.Basic
/-!
Reading the parts of JSON values. A record is an object, or the list of its fields in order; fields
that it does not know are passed over, and none that it knows may come twice.
-/

namespace Transducer.Json

def text? : Json → Option String
  | string s => s.text?
  | _ => none

def bool? : Json → Option Bool
  | bool b => some b
  | _ => none

def list? {α : Type} (item : Json → Option α) : Json → Option (List α)
  | array items => items.mapM item
  | _ => none

/-- A table: each name with what its value means, in the order written. -/
def table? {κ α : Type} (name : JsonString → Option κ) (value : Json → Option α) :
    Json → Option (List (κ × α))
  | object fields => fields.mapM fun (n, v) => do return (← name n, ← value v)
  | _ => none

/-- Puts a field in its place among the known ones. -/
def assign? (known : List String) (found : List (Option Json)) (name : String) (value : Json) :
    Option (List (Option Json)) :=
  match known.findIdx? (· = name) with
  | none => some found
  | some i =>
    match found[i]? with
    | some none => some (found.set i (some value))
    | _ => none

/-- The values of the known fields of a record. -/
def record? (known : List String) : Json → Option (List (Option Json))
  | object fields =>
    fields.foldlM (fun found (name, value) => do assign? known found (← name.text?) value)
      (known.map fun _ => none)
  | array items =>
    if items.length ≤ known.length then
      some (items.map some ++ List.replicate (known.length - items.length) none)
    else none
  | _ => none

end Transducer.Json
