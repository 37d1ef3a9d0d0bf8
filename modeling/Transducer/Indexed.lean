import Transducer.State
/-!
States that keep their indices. An index of the arcs by a symbol of their labels is made when it is
first asked for, and stays with the state and its copies until the arcs change.
-/

namespace Transducer

/-- The sides of a label. -/
inductive Side where
  | input
  | output
  deriving DecidableEq, Repr

/-- Arcs under a symbol of their labels. -/
abbrev SymbolIndex := List (Symbol × List Arc)

/-- The index of a state's arcs by the symbols on one side. -/
def State.arcsBy (s : State) : Side → SymbolIndex
  | .input => s.arcsByInput
  | .output => s.arcsByOutput

structure IndexedState where
  state : State := {}
  /-- The index by the symbol that is read, once it has been made. -/
  byInput : Option SymbolIndex := none
  /-- The index by the symbol that is written, once it has been made. -/
  byOutput : Option SymbolIndex := none
  deriving DecidableEq, Repr, Inhabited

namespace IndexedState

def kept? (s : IndexedState) : Side → Option SymbolIndex
  | .input => s.byInput
  | .output => s.byOutput

def keep (s : IndexedState) (index : SymbolIndex) : Side → IndexedState
  | .input => { s with byInput := some index }
  | .output => { s with byOutput := some index }

/-- The index of a side, and the state that now keeps it. -/
def index (s : IndexedState) (side : Side) : SymbolIndex × IndexedState :=
  match s.kept? side with
  | some index => (index, s)
  | none =>
    let index := s.state.arcsBy side
    (index, s.keep index side)

/-- Changes the arcs and drops both indices. -/
def rewrite (s : IndexedState) (change : State → State) : IndexedState :=
  { state := change s.state }

def addArc (s : IndexedState) (arc : Arc) : IndexedState := s.rewrite (·.addArc arc)

def removeArcsTo (s : IndexedState) (targets : List StateId) : IndexedState :=
  s.rewrite (·.removeArcsTo targets)

/-- Without arcs of the old label nothing changes, and the indices stay. -/
def renameLabel (s : IndexedState) (old new : Label) : IndexedState :=
  match s.state.groups.lookup old with
  | none => s
  | some _ => s.rewrite (·.renameLabel old new)

def setName (s : IndexedState) (name : Option String) : IndexedState :=
  { s with state := { s.state with name } }

def setFinalWeight (s : IndexedState) (weight : Weight) : IndexedState :=
  { s with state := { s.state with finalWeight := weight } }

end IndexedState

end Transducer
