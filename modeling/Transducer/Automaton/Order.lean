import Transducer.Automaton.Basic
/-!
The canonical order: breadth first from the initial state, arcs by label, then weight. Exports
number states by it, so their text does not depend on the order in which states were added.
-/

namespace Transducer

/-- A breadth-first sweep: the states found so far, in order, and a mark for each of them. -/
structure Sweep where
  order : Array StateId
  found : Array Bool

namespace Sweep

def start (size : Nat) : Sweep := ⟨#[], Array.replicate size false⟩

/-- Appends a state that was not found before. -/
def find (w : Sweep) (id : StateId) : Sweep :=
  if w.found[id]? = some false then ⟨w.order.push id, w.found.setIfInBounds id true⟩ else w

end Sweep

namespace Automaton

/-- Reads off the targets of the found states from `position` on; at most `count` of them. -/
def sweep (a : Automaton) : (count position : Nat) → Sweep → Sweep
  | 0, _, w => w
  | count + 1, position, w =>
    match w.order[position]? with
    | none => w
    | some id =>
      a.sweep count (position + 1)
        ((a.state id).sortedArcs.foldl (fun w arc => w.find arc.target) w)

/-- The states that can be reached, in canonical order. -/
def canonicalOrder (a : Automaton) : List StateId :=
  (a.sweep a.size 0 ((Sweep.start a.size).find a.initial)).order.toList

/-- The canonical order, then the states that cannot be reached. -/
def completeOrder (a : Automaton) : List StateId :=
  let reached := a.canonicalOrder
  let marks := reached.foldl (fun m id => m.setIfInBounds id true) (Array.replicate a.size false)
  reached ++ a.ids.filter fun id => !marks.getD id false

end Automaton

/-- Numbers for the states of an order, by position. -/
structure Numbering where
  order : List StateId
  numbers : Array (Option Nat)

namespace Numbering

def ofOrder (size : Nat) (order : List StateId) : Numbering :=
  ⟨order, order.zipIdx.foldl (fun t (id, n) => t.setIfInBounds id (some n))
    (Array.replicate size none)⟩

/-- The number of a state, if the order has it. -/
def number? (n : Numbering) (id : StateId) : Option Nat := n.numbers.getD id none

/-- The number of a state of the order. -/
def of (n : Numbering) (id : StateId) : Nat := (n.number? id).getD 0

end Numbering

namespace Automaton

def canonicalNumbering (a : Automaton) : Numbering := .ofOrder a.size a.canonicalOrder

def completeNumbering (a : Automaton) : Numbering := .ofOrder a.size a.completeOrder

/-- Keys for all states: names where there are any, unless `force`, and counted numbers for the
others, the initial state first. -/
def stateKeys (a : Automaton) (force : Bool) : List (StateId × String) :=
  let step (acc : Nat × List (StateId × String)) (id : StateId) :=
    match if force then none else (a.state id).name with
    | some name => (acc.1, Ordered.put id name acc.2)
    | none => (acc.1 + 1, Ordered.put id (toString acc.1) acc.2)
  ((a.initial :: a.ids.filter (· ≠ a.initial)).foldl step (0, [])).2

end Automaton

end Transducer
