import Transducer.Automaton.Order
/-!
Copies of an automaton with other labels, weights or numbers. Arcs are added to the copy one by one,
so those that become the same are one arc.
-/

namespace Transducer.Automaton

/-- Gives every arc a new label and weight, from its old ones. -/
def mapArcs (a : Automaton) (label : Label → Weight → Label) (weight : Label → Weight → Weight) :
    Automaton :=
  { a with
    states := a.states.map fun s =>
      State.addArcs { s with groups := [] }
        (s.arcs.map fun arc =>
          ⟨arc.target, label arc.label arc.weight, weight arc.label arc.weight⟩) }

/-- Keeps the arcs with certain labels. -/
def filterArcs (a : Automaton) (keep : Label → Bool) : Automaton :=
  { a with
    states := a.states.map fun s =>
      State.addArcs { s with groups := [] } (s.arcs.filter fun arc => keep arc.label) }

/-- Puts another automaton in the place of one; gives that and what was there before. -/
def replaceWith (a other : Automaton) : Automaton × Automaton := (other, a)

/-- Copies a state to its number; arcs into states without a number are left out. -/
def copyState (a : Automaton) (numbering : Numbering) (copy : Automaton) (id : StateId) (n : Nat) :
    Automaton :=
  let s := a.state id
  let copy := if s.isFinal then copy.setFinal n s.finalWeight else copy
  s.arcs.foldl
    (fun copy arc =>
      match numbering.number? arc.target with
      | some target => copy.addArc n { arc with target }
      | none => copy)
    copy

/-- The states that can be reached, in canonical order, each named by its number. -/
def renumbered (a : Automaton) : Automaton :=
  let numbering := a.canonicalNumbering
  let blank := (List.range numbering.order.length).map fun n => State.named (toString n)
  numbering.order.zipIdx.foldl (fun copy (id, n) => a.copyState numbering copy id n)
    { alphabet := a.alphabet, states := blank.toArray }

end Transducer.Automaton
