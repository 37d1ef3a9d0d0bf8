import Std.Data.HashMap
import Transducer.Automaton.Order
import Transducer.Weight.Numeral
/-!
Tables for other transducer tools: a line for each arc and each final state with tabs between the
fields, and the symbols with their codes. States are numbered canonically; zero weights are left
out. The listing is the same with all states and all weights.
-/

namespace Transducer

/-- How tables spell the empty symbol unless told otherwise. -/
def tableEpsilon : String := "@0@"

/-- Symbols with codes 0, 1, 2, … by first appearance: listed in the order of their codes, and each
under its name. -/
structure SymbolCodes where
  symbols : Array Symbol := #[]
  codes : Std.HashMap Symbol Nat := {}

namespace SymbolCodes

/-- The code of a symbol; one that has none is listed and gets the next one. -/
def code (t : SymbolCodes) (s : Symbol) : Nat × SymbolCodes :=
  match t.codes[s]? with
  | some code => (code, t)
  | none =>
    let code := t.symbols.size
    (code, ⟨t.symbols.push s, t.codes.insert s code⟩)

def start (epsilon : Symbol) : SymbolCodes := (({} : SymbolCodes).code epsilon).2

def addAll (t : SymbolCodes) (symbols : List Symbol) : SymbolCodes :=
  symbols.foldl (fun t s => (t.code s).2) t

end SymbolCodes

namespace Table

def line (fields : List String) : String := "\t".intercalate fields ++ "\n"

def lines (rows : List (List String)) : String := "".intercalate (rows.map line)

/-- A symbol as a field. -/
def symbolField (epsilon s : Symbol) : String := if s = "" then epsilon else s

/-- The field of a weight, left out for zero. -/
def weightField (w : Weight) : List String := if w.isZero then [] else [w.text]

def codeLines (names : List String) : String :=
  lines (names.zipIdx.map fun (name, code) => [name, toString code])

end Table

/-- A table of arcs and final states, and the tables of its symbols. -/
structure Table where
  transitions : String
  inputs : String
  outputs : String
  /-- The names of states with their numbers, if names are kept. -/
  names : Option String
  deriving DecidableEq, Repr

namespace Automaton

/-- The arcs of the listed states with their sources, in the order of the table. -/
def tableArcs (a : Automaton) (order : List StateId) : List (StateId × Arc) :=
  order.flatMap fun id => (a.state id).sortedArcs.map (id, ·)

/-- The table of an automaton, with the empty symbol spelled `epsilon`. With `keepNames`, named
states are written by name. -/
def table (a : Automaton) (epsilon : String) (keepNames : Bool) : Table :=
  let numbering := a.canonicalNumbering
  let names : Array String := (numbering.order.zipIdx.map fun (id, n) =>
    match if keepNames then (a.state id).name else none with
    | some name => name
    | none => toString n).toArray
  let nameOf (id : StateId) : String := names.getD (numbering.of id) ""
  let arcRow (source : StateId) (arc : Arc) : List String :=
    [nameOf source, nameOf arc.target, Table.symbolField epsilon arc.label.input,
      Table.symbolField epsilon arc.label.output] ++ Table.weightField arc.weight
  let stateRows (id : StateId) : List (List String) :=
    let s := a.state id
    s.sortedArcs.map (arcRow id) ++
      if s.isFinal then [nameOf id :: Table.weightField s.finalWeight] else []
  let labels := (a.tableArcs numbering.order).map fun (_, arc) => arc.label
  let codes (side : Label → Symbol) : SymbolCodes :=
    (SymbolCodes.start epsilon).addAll (labels.map fun l => Table.symbolField epsilon (side l))
  { transitions := Table.lines (numbering.order.flatMap stateRows)
    inputs := Table.codeLines (codes Label.input).symbols.toList
    outputs := Table.codeLines (codes Label.output).symbols.toList
    names := if keepNames then some (Table.codeLines names.toList) else none }

/-- All arcs, then all final states, of reachable and unreachable states. -/
def listing (a : Automaton) : String :=
  let numbering := a.completeNumbering
  let number (id : StateId) : String := toString (numbering.of id)
  let arcRow (source : StateId) (arc : Arc) : List String :=
    [number source, number arc.target, Table.symbolField tableEpsilon arc.label.input,
      Table.symbolField tableEpsilon arc.label.output, arc.weight.text]
  let finalRow (id : StateId) : List String := [number id, (a.state id).finalWeight.text]
  Table.lines ((a.tableArcs numbering.order).map (fun (id, arc) => arcRow id arc) ++
    (numbering.order.filter a.isFinal).map finalRow)

end Automaton

end Transducer
