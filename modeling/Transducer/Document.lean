import Transducer.Apply.Options
import Transducer.Grammar.Basic
import Transducer.Json.Field
import Transducer.Json.Number
import Transducer.Json.Reader
import Transducer.Json.Writer
import Transducer.Label
/-!
Lexicons, labels and options as JSON. A rule is `[side, target]` or `[side, target, weight]`, a side
one string or a list of two.
-/

namespace Transducer

namespace Weight

/-- A weight as JSON; what is not finite is `null`. -/
def toJson (w : Weight) : Json :=
  if w.isFinite then .number (.ofWeight .json w) else .null

def ofJson? : Json → Option Weight
  | .number n => n.weight?
  | _ => none

end Weight

namespace Label

def toJson (l : Label) : Json := .ofTexts l.symbols

def ofJson? (j : Json) : Option Label := do
  (ofSymbols (← j.list? Json.text?)).toOption

end Label

namespace Direction

def toJson (d : Direction) : Json := .ofText d.name

/-- A direction is its name, or an object of that name with `null`. -/
def ofJson? : Json → Option Direction
  | .string s => do ofName? (← s.text?)
  | .object [(name, .null)] => do ofName? (← name.text?)
  | _ => none

end Direction

namespace ApplyOptions

def toJson (o : ApplyOptions) : Json :=
  .ofFields [("weights", .bool o.weights), ("tokenize_outputs", .bool o.tokenizeOutputs),
    ("obey_flags", .bool o.obeyFlags), ("print_flags", .bool o.printFlags)]

/-- A field that is missing keeps its default. -/
def fieldOr (default : Bool) : Option Json → Option Bool
  | none => some default
  | some j => j.bool?

def ofJson? (j : Json) : Option ApplyOptions := do
  let [w, t, o, p] ← j.record? ["weights", "tokenize_outputs", "obey_flags", "print_flags"] | none
  let standard : ApplyOptions := {}
  return { weights := ← fieldOr standard.weights w
           tokenizeOutputs := ← fieldOr standard.tokenizeOutputs t
           obeyFlags := ← fieldOr standard.obeyFlags o
           printFlags := ← fieldOr standard.printFlags p }

end ApplyOptions

namespace Rule

def sideToJson (r : Rule) : Json :=
  match r.output with
  | none => .ofText r.input
  | some output => .ofTexts [r.input, output]

/-- A rule without weight is written without one. -/
def toJson (r : Rule) : Json :=
  .array ([r.sideToJson, .ofText r.target] ++ if r.weight.isZero then [] else [r.weight.toJson])

/-- The input of a side, and its output if that is written. -/
def side? : Json → Option (String × Option String)
  | .string s => do return (← s.text?, none)
  | .array [input, output] => do return (← input.text?, some (← output.text?))
  | _ => none

def ofJson? : Json → Option Rule
  | .array (side :: target :: weight) => do
    let (input, output) ← side? side
    let target ← target.text?
    match weight with
    | [] => return { input, output, target }
    | [w] => return { input, output, target, weight := ← Weight.ofJson? w }
    | _ => none
  | _ => none

end Rule

namespace Grammar

def toJson (g : Grammar) : Json :=
  .ofFields (g.lexicons.map fun (name, rules) => (name, .array (rules.map Rule.toJson)))

/-- Of sets with one name, the last one counts. -/
def ofJson? (j : Json) : Option Grammar := do
  let lexicons ← j.table? JsonString.text? (Json.list? Rule.ofJson?)
  return lexicons.foldl (fun g (name, rules) => g.put name rules) empty

end Grammar

namespace Document

def toJson (d : Document) : Json :=
  .ofFields [("start", .ofText d.start), ("multichar_symbols", .ofTexts d.multichar),
    ("lexicons", d.lexicons.toJson)]

def ofJson? (j : Json) : Option Document := do
  let [start, multichar, lexicons] ← j.record? ["start", "multichar_symbols", "lexicons"] | none
  return { start := ← (← start).text?
           multichar := ← match multichar with
             | none => some []
             | some symbols => symbols.list? Json.text?
           lexicons := ← Grammar.ofJson? (← lexicons) }

/-- Reads the text of a lexicon file. -/
def ofText? (text : String) : Option Document := do ofJson? (← Json.ofText? text)

end Document

end Transducer
