import Transducer.Label
/-!
How an automaton is applied to a word: which way, and what is done with the results.
-/

namespace Transducer

/-- Which side of the labels is matched against the given word. -/
inductive Direction where
  | generate
  | analyze
  deriving DecidableEq, Repr

namespace Direction

/-- The symbol that is read. -/
def consumed : Direction → Label → Symbol
  | generate, l => l.input
  | analyze, l => l.output

/-- The symbol that is written. -/
def produced : Direction → Label → Symbol
  | generate, l => l.output
  | analyze, l => l.input

def name : Direction → String
  | generate => "generate"
  | analyze => "analyze"

def ofName? : String → Option Direction
  | "generate" => some generate
  | "analyze" => some analyze
  | _ => none

end Direction

structure ApplyOptions where
  /-- Gives each result its cost. -/
  weights : Bool := false
  /-- Leaves outputs as symbols. -/
  tokenizeOutputs : Bool := false
  /-- Drops paths whose flags disagree. -/
  obeyFlags : Bool := true
  /-- Leaves flags in outputs. -/
  printFlags : Bool := false
  deriving DecidableEq, Repr, Inhabited

end Transducer
