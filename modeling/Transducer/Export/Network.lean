import Transducer.Export.Dictionary
/-!
Automata as a statement that assigns a network object: symbols with codes, the longest symbol, the
final states, and for each state and input symbol the arcs as target and output.
-/

namespace Transducer

structure Network where
  symbols : List (Symbol × Nat)
  /-- The length of the longest symbol. -/
  longest : Nat
  finals : List (Nat × Nat)
  arcs : List ((Nat × Symbol) × List (Nat × Symbol))
  deriving DecidableEq, Repr

namespace Network

/-- How many UTF-16 code units a text has. -/
def units16 (s : String) : Nat :=
  s.toList.foldl (fun n c => n + if c.toNat < 0x10000 then 1 else 2) 0

def arcName (source : Nat) (input : Symbol) : String := s!"{source}|{input}"

def toJson (n : Network) : Json :=
  let arc (a : Nat × Symbol) : Json := .ofFields [(toString a.1, .ofText a.2)]
  .ofFields [("s", Dictionary.namesToJson Json.ofNat n.symbols), ("maxlen", .ofNat n.longest),
    ("f", Dictionary.numbersToJson Json.ofNat n.finals),
    ("t", .ofFields (n.arcs.map fun ((source, input), arcs) =>
      (arcName source input, .array (arcs.map arc))))]

end Network

namespace Automaton

/-- The arcs of a state by input. -/
def networkArcs (a : Automaton) (numbering : Numbering) (id : StateId) :
    List (Symbol × List (Nat × Symbol)) :=
  (Ordered.group (fun arc => arc.label.input) (a.state id).sortedArcs).map
    fun (input, arcs) => (input, arcs.map fun arc => (numbering.of arc.target, arc.label.output))

def network (a : Automaton) : Network :=
  let numbering := a.canonicalNumbering
  let d := a.dictionary
  { symbols := d.alphabet
    longest := (d.alphabet.map fun (s, _) => Network.units16 s).foldl max 0
    finals := d.finals
    arcs := numbering.order.zipIdx.flatMap fun (id, n) =>
      (a.networkArcs numbering id).map fun (input, arcs) => ((n, input), arcs) }

/-- The statement that gives the network a name. -/
def networkStatement (a : Automaton) (name : String) : String :=
  s!"var {name} = {a.network.toJson.text} ;"

end Automaton

end Transducer
