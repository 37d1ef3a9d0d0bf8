import Transducer.Automaton.Order
import Transducer.Json.Field
import Transducer.Json.Number
import Transducer.Json.Writer
/-!
Automata as dictionaries: for each state, its targets by the label that leads to them, written
`input` or `input|output`. Weights are left out.
-/

namespace Transducer

structure Dictionary where
  transitions : List (Nat × List (String × List Nat)) := []
  /-- Symbols with their codes. -/
  alphabet : List (Symbol × Nat) := []
  /-- Final states, each marked by a number. -/
  finals : List (Nat × Nat) := []
  deriving DecidableEq, Repr

namespace Dictionary

/-- Codes below this one are reserved. -/
def firstCode : Nat := 3

def escapeBar (c : Char) : List Char := if c = '|' then ['\\', '|'] else [c]

/-- A symbol inside a key: bars get a backslash. -/
def keySymbol (s : Symbol) : List Char := s.toList.flatMap escapeBar

/-- The key of a label. -/
def key (l : Label) : String :=
  String.ofList (if l.input = l.output then keySymbol l.input
    else keySymbol l.input ++ '|' :: keySymbol l.output)

/-- The codes given so far, and how many symbols have been discovered. -/
structure Discovery where
  codes : List (Symbol × Nat) := []
  discovered : Nat := 0

/-- Gives a symbol the next code unless it is empty or has one. -/
def Discovery.add (d : Discovery) (s : Symbol) : Discovery :=
  if s = epsilon || (d.codes.lookup s).isSome then d
  else ⟨Ordered.put s (firstCode + d.discovered) d.codes, d.discovered + 1⟩

/-- Codes for symbols by first appearance. -/
def codes (symbols : List Symbol) : List (Symbol × Nat) := (symbols.foldl Discovery.add {}).codes

/-- The table of one state's arcs or marks, under numbers. -/
def numbersToJson {α : Type} (value : α → Json) (table : List (Nat × α)) : Json :=
  .ofFields (table.map fun (n, a) => (toString n, value a))

def namesToJson {α : Type} (value : α → Json) (table : List (String × α)) : Json :=
  .ofFields (table.map fun (name, a) => (name, value a))

def targetsToJson (targets : List Nat) : Json := .array (targets.map Json.ofNat)

def alphabetToJson (d : Dictionary) : Json := namesToJson Json.ofNat d.alphabet

def finalsToJson (d : Dictionary) : Json := numbersToJson Json.ofNat d.finals

def toJson (d : Dictionary) : Json :=
  .ofFields [("transitions", numbersToJson (namesToJson targetsToJson) d.transitions),
    ("alphabet", d.alphabetToJson), ("finals", d.finalsToJson)]

/-- The largest number that a dictionary holds. -/
def maxNumber : Nat := UInt64.size - 1

/-- A number as a name: its digits, none of them escaped, and no needless zero. -/
def numberName? (s : JsonString) : Option Nat :=
  if s.body.isEmpty || !s.body.all Char.isDigit || (s.body.head? = some '0' && s.body.length ≠ 1)
  then none
  else (⟨false, s.body, [], none⟩ : Numeral).nat? maxNumber

def number? (limit : Nat) : Json → Option Nat
  | .number n => n.nat? limit
  | _ => none

/-- A table by name or number; of two entries under one, the last counts. -/
def tableOf {κ α : Type} [Ord κ] (entries : List (κ × α)) : List (κ × α) :=
  entries.foldl (fun table (k, v) => Ordered.put k v table) []

def ofJson? (j : Json) : Option Dictionary := do
  let [transitions, alphabet, finals] ← j.record? ["transitions", "alphabet", "finals"] | none
  let row (j : Json) : Option (List (String × List Nat)) := do
    return tableOf (← j.table? JsonString.text? (Json.list? (number? maxNumber)))
  return { transitions := tableOf (← (← transitions).table? numberName? row)
           alphabet := tableOf (← (← alphabet).table? JsonString.text? (number? maxNumber))
           finals := tableOf (← (← finals).table? numberName? (number? 255)) }

end Dictionary

namespace Automaton

/-- The targets of a state's arcs by key. -/
def dictionaryRow (a : Automaton) (numbering : Numbering) (id : StateId) :
    List (String × List Nat) :=
  (Ordered.group (fun arc => Dictionary.key arc.label) (a.state id).sortedArcs).map
    fun (key, arcs) => (key, arcs.map fun arc => numbering.of arc.target)

/-- The dictionary of the states that can be reached, numbered canonically. -/
def dictionary (a : Automaton) : Dictionary :=
  let numbering := a.canonicalNumbering
  let numbered := numbering.order.zipIdx
  let rows := numbered.map fun (id, n) => (n, a.dictionaryRow numbering id)
  { transitions := rows.filter fun (_, row) => !row.isEmpty
    alphabet := Dictionary.codes (numbering.order.flatMap fun id =>
      (a.state id).sortedArcs.flatMap fun arc => arc.label.symbols)
    finals := (numbered.filter fun (id, _) => a.isFinal id).map fun (_, n) => (n, 1) }

end Automaton

end Transducer
