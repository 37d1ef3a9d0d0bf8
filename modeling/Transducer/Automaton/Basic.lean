import Transducer.Alphabet
import Transducer.State
/-!
Automata: states with arcs between them, one of them initial, and an alphabet. The alphabet only
guides how words are cut into tokens; it need not hold the symbols of the arcs.
-/

namespace Transducer

/-- A weighted automaton over pairs of symbols. -/
structure Automaton where
  alphabet : Alphabet := {}
  initial : StateId := 0
  states : Array State := #[{}]
  /-- The final states in increasing order. -/
  finals : List StateId := []
  deriving DecidableEq, Repr, Inhabited

/-- What asks for a state that the automaton does not have. -/
inductive StateError where
  | missingTarget (state : StateId)
  | missingInitial (state : StateId)
  | missingState
  deriving DecidableEq, Repr

def StateError.message : StateError → String
  | missingTarget state => s!"transition target {state} is not in the automaton"
  | missingInitial state => s!"initial state {state} is not in the automaton"
  | missingState => "index out of bounds"

namespace Automaton

/-- One state, not final, and no symbols. -/
def empty : Automaton := {}

def size (a : Automaton) : Nat := a.states.size

def contains (a : Automaton) (state : StateId) : Bool := state < a.size

/-- A state; one that is missing has no arcs and is not final. -/
def state (a : Automaton) (id : StateId) : State := a.states.getD id {}

/-- A state, if the automaton has it. -/
def state? (a : Automaton) (id : StateId) : Except StateError State :=
  match a.states[id]? with
  | some s => .ok s
  | none => .error .missingState

def ids (a : Automaton) : List StateId := List.range a.size

def isFinal (a : Automaton) (id : StateId) : Bool := (a.state id).isFinal

/-- Changes one state; nothing happens if it is missing. -/
def modify (a : Automaton) (id : StateId) (change : State → State) : Automaton :=
  { a with states := a.states.modify id change }

/-- Adds a state behind all others; its number is the former `size`. -/
def addState (a : Automaton) (name : Option String) : Automaton :=
  { a with states := a.states.push { name } }

def addArc (a : Automaton) (source : StateId) (arc : Arc) : Automaton :=
  a.modify source (·.addArc arc)

/-- Puts a state into the final set. -/
def markFinal (a : Automaton) (id : StateId) : Automaton :=
  { a with finals := Ordered.insert id a.finals }

/-- Takes a state out of the final set. -/
def unmarkFinal (a : Automaton) (id : StateId) : Automaton :=
  { a with finals := a.finals.filter (· ≠ id) }

def unsetFinal (a : Automaton) (id : StateId) : Automaton :=
  (a.modify id fun s => { s with finalWeight := .infinity }).unmarkFinal id

/-- Makes a state final. A weight that is not finite means that it is not. -/
def setFinal (a : Automaton) (id : StateId) (weight : Weight) : Automaton :=
  if weight.isFinite then (a.modify id fun s => { s with finalWeight := weight }).markFinal id
  else a.unsetFinal id

def addSymbols (a : Automaton) (symbols : List Symbol) : Automaton :=
  { a with alphabet := a.alphabet.insertAll symbols }

/-- All arcs of the given states, each with its source. -/
def arcsFrom (a : Automaton) (sources : List StateId) : List (StateId × Arc) :=
  sources.flatMap fun source => (a.state source).arcs.map (source, ·)

/-- How many arcs there are. -/
def arcCount (a : Automaton) : Nat := (a.arcsFrom a.ids).length

/-- The labels on arcs of the given states, each with the targets that it leads to. -/
def targetsByLabel (a : Automaton) (sources : List StateId) : List (Label × List StateId) :=
  (a.arcsFrom sources).foldl
    (fun table (_, arc) =>
      Ordered.alter arc.label (fun found => Ordered.insert arc.target (found.getD [])) table)
    []

/-- The symbols on arcs. -/
def usedSymbols (a : Automaton) : Alphabet :=
  Alphabet.ofList ((a.arcsFrom a.ids).flatMap fun (_, arc) => arc.label.symbols)

/-- Drops the symbols that no arc has, unless an arc has the wildcard: then the alphabet also says
what that does not stand for. -/
def dropUnusedSymbols (a : Automaton) : Automaton :=
  let used := a.usedSymbols
  if wildcard ∈ used then a else { a with alphabet := a.alphabet.filter (· ∈ used) }

/-- The first structural invariant that does not hold, if there is one. -/
def brokenInvariant? (a : Automaton) : Option String :=
  if !a.contains a.initial then some "initial state outside the arena"
  else if !a.finals.all fun id => a.contains id && a.isFinal id then
    some "final set holds a missing or non-final state"
  else if !a.ids.all fun id => a.isFinal id = a.finals.contains id then
    some "state with finite final weight missing from the final set"
  else if !a.states.all (·.isWellFormed a.size) then some "malformed transition table"
  else none

/-- The automaton of one label, with the weight on its final state. -/
def ofLabel (l : Label) (weight : Weight) : Automaton :=
  if l = .identity epsilon then empty.setFinal 0 weight
  else
    ((empty.addSymbols l.symbols).addState none).setFinal 1 weight
      |>.addArc 0 ⟨1, l, .zero⟩

/-- The characters from `first` to `last`. -/
def charactersBetween (first last : Char) : List Char :=
  (List.range' first.toNat (last.toNat + 1 - first.toNat)).filterMap fun n =>
    if h : n.isValidChar then some (Char.ofNatAux n h) else none

/-- Accepts single characters: those in a range, or with `complement` those in none. The
complement is the wildcard over an alphabet that holds the listed characters. -/
def ofRanges (ranges : List (Char × Char)) (complement : Bool) : Automaton :=
  let symbols := ranges.flatMap fun (first, last) =>
    (charactersBetween first last).map Char.toString
  let frame := ((empty.addState none).setFinal 1 .zero).addSymbols symbols
  if complement then
    (frame.addArc 0 ⟨1, .identity wildcard, .zero⟩).addSymbols [wildcard]
  else symbols.foldl (fun a s => a.addArc 0 ⟨1, .identity s, .zero⟩) frame

end Automaton

end Transducer
