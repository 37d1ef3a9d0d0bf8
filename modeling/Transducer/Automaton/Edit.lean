import Transducer.Automaton.Basic
/-!
Changes to an automaton as data. A change is made of reads and writes one after the other; one that
names a missing state stops there.
-/

namespace Transducer

inductive Edit where
  | addSymbols (symbols : List Symbol)
  | setAlphabet (symbols : List Symbol)
  | dropUnusedSymbols
  | setInitial (state : StateId)
  | addState (name : Option String)
  | setName (state : StateId) (name : Option String)
  | setFinal (state : StateId) (weight : Weight)
  | unsetFinal (state : StateId)
  | addArc (source : StateId) (arc : Arc)
  | removeArcsTo (source : StateId) (targets : List StateId)
  | renameLabel (source : StateId) (old new : Label)
  deriving DecidableEq, Repr

/-- Steps on an automaton. Where they stop with an error, what has been written stays. -/
abbrev Change := ExceptT StateError (StateM Automaton)

namespace Change

def require (state : StateId) (error : StateError) : Change Unit := do
  unless (← get).contains state do throw error

/-- Writes to a state. -/
def write (state : StateId) (change : State → State) : Change Unit := do
  require state .missingState
  modify fun a => a.modify state change

def unsetFinal (state : StateId) : Change Unit := do
  write state fun s => { s with finalWeight := .infinity }
  modify fun a => a.unmarkFinal state

def setFinal (state : StateId) (weight : Weight) : Change Unit := do
  if weight.isFinite then
    write state fun s => { s with finalWeight := weight }
    modify fun a => a.markFinal state
  else unsetFinal state

def addArc (source : StateId) (arc : Arc) : Change Unit := do
  require arc.target (.missingTarget arc.target)
  write source (·.addArc arc)

end Change

namespace Edit

def change : Edit → Change Unit
  | .addSymbols symbols => modify (·.addSymbols symbols)
  | .setAlphabet symbols => modify fun a => { a with alphabet := .ofList symbols }
  | .dropUnusedSymbols => modify (·.dropUnusedSymbols)
  | .setInitial state => do
    Change.require state (.missingInitial state)
    modify fun a => { a with initial := state }
  | .addState name => modify (·.addState name)
  | .setName state name => Change.write state fun s => { s with name }
  | .setFinal state weight => Change.setFinal state weight
  | .unsetFinal state => Change.unsetFinal state
  | .addArc source arc => Change.addArc source arc
  | .removeArcsTo source targets => Change.write source (·.removeArcsTo targets)
  | .renameLabel source old new => Change.write source (·.renameLabel old new)

/-- Whether a change went through, and the automaton that it leaves. -/
def run (e : Edit) (a : Automaton) : Except StateError Unit × Automaton := e.change.run.run a

end Edit

end Transducer
