import Transducer.Label
import Transducer.Ordered
import Transducer.Weight.Basic
/-!
States and their arcs. The arcs of a state stand under their labels, and under one label in the
order in which they were added; no two of one label agree in target and weight.
-/

namespace Transducer

/-- States are numbered from 0 in the order in which they were added. The numbers have no bound:
an arena whose handles have 32 bits overflows at the state with number `2 ^ 32`, and what it does
from there on is left out. -/
abbrev StateId := Nat

structure Arc where
  target : StateId
  label : Label
  weight : Weight
  deriving DecidableEq, Repr, Inhabited

namespace Arc

/-- Same target, equal weights. -/
def sameAs (a b : Arc) : Bool := a.target = b.target && a.weight.numEq b.weight

/-- Puts an arc behind those of its label, unless one of them is the same. -/
def join (group : List Arc) (arc : Arc) : List Arc :=
  if group.any (·.sameAs arc) then group else group ++ [arc]

/-- The order of weights. -/
def lighter (a b : Arc) : Bool := compare a.weight b.weight != .gt

end Arc

structure State where
  /-- The labels in use in their order, each with its arcs. -/
  groups : List (Label × List Arc) := []
  /-- The cost of stopping here; infinite if that is not allowed. -/
  finalWeight : Weight := .infinity
  name : Option String := none
  deriving DecidableEq, Repr, Inhabited

namespace State

def named (name : String) : State := { name := some name }

def isFinal (s : State) : Bool := s.finalWeight.isFinite

/-- The arcs, label by label. -/
def arcs (s : State) : List Arc := s.groups.flatMap Prod.snd

def outDegree (s : State) : Nat := s.arcs.length

/-- Adds an arc to those of its label. -/
def addArc (s : State) (arc : Arc) : State :=
  { s with groups := Ordered.alter arc.label (fun found => Arc.join (found.getD []) arc) s.groups }

def addArcs (s : State) (arcs : List Arc) : State := arcs.foldl addArc s

/-- Removes the arcs into any of the targets, and labels left without arcs. -/
def removeArcsTo (s : State) (targets : List StateId) : State :=
  let kept := s.groups.map fun (l, arcs) => (l, arcs.filter fun a => !targets.contains a.target)
  { s with groups := kept.filter fun (_, arcs) => !arcs.isEmpty }

/-- Moves all arcs of one label to another one. -/
def renameLabel (s : State) (old new : Label) : State :=
  match s.groups.lookup old with
  | none => s
  | some moved =>
    let merge (found : Option (List Arc)) : List Arc :=
      moved.foldl (fun group a => Arc.join group { a with label := new }) (found.getD [])
    { s with groups := Ordered.alter new merge (s.groups.filter (·.1 ≠ old)) }

def arcsWith (s : State) (l : Label) : List Arc := (s.groups.lookup l).getD []

/-- The arcs by label, then weight; equal ones stay in order. -/
def sortedArcs (s : State) : List Arc :=
  s.groups.flatMap fun (_, arcs) => arcs.mergeSort Arc.lighter

/-- The arcs by a symbol of their label. -/
def indexBy (side : Label → Symbol) (s : State) : List (Symbol × List Arc) :=
  s.groups.foldl
    (fun index (l, arcs) => Ordered.alter (side l) (fun found => found.getD [] ++ arcs) index) []

/-- The arcs by the symbol that they read. -/
def arcsByInput (s : State) : List (Symbol × List Arc) := s.indexBy Label.input

/-- The arcs by the symbol that they write. -/
def arcsByOutput (s : State) : List (Symbol × List Arc) := s.indexBy Label.output

def targets (s : State) : List StateId := Ordered.ofList (s.arcs.map Arc.target)

/-- The lowest weight to each target. A NaN never counts, so it may stay infinite. -/
def cheapest (arcs : List Arc) : List (StateId × Weight) :=
  arcs.foldl
    (fun best a =>
      Ordered.alter a.target (fun w => (w.getD .infinity).lesser a.weight) best)
    []

def cheapestTargets (s : State) : List (StateId × Weight) := cheapest s.arcs

/-- The same for the arcs that read and write nothing. -/
def cheapestEpsilonTargets (s : State) : List (StateId × Weight) :=
  cheapest ((s.groups.filter fun (l, _) => l.isEpsilon).flatMap Prod.snd)

/-- Every label in use has arcs, all of this label and into the first `count` states, and the final
weight is finite or positive infinity. -/
def isWellFormed (s : State) (count : Nat) : Bool :=
  s.groups.all (fun (l, arcs) =>
    !arcs.isEmpty && arcs.all fun a => a.label = l && a.target < count) &&
    (s.finalWeight.isFinite || s.finalWeight.numEq .infinity)

end State

end Transducer
