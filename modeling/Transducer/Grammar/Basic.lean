import Transducer.Ordered
import Transducer.Weight.Basic
/-!
Right-linear grammars: named sets of rules, each of which spells an input and an output and goes on
with another set. The set `#` ends a derivation.
-/

namespace Transducer

/-- The name of the set that ends a derivation. -/
def finalLexicon : String := "#"

structure Rule where
  input : String
  /-- Missing when the input is also the output. -/
  output : Option String := none
  /-- The set that goes on. -/
  target : String
  weight : Weight := .zero
  deriving DecidableEq, Repr

/-- The spelling that is written. -/
def Rule.written (r : Rule) : String := r.output.getD r.input

/-- Sets of rules in name order. -/
structure Grammar where
  lexicons : List (String × List Rule) := []
  deriving DecidableEq, Repr, Inhabited

namespace Grammar

def empty : Grammar := {}

/-- Appends rules to a set, which is made if it is missing. -/
def addRules (g : Grammar) (lexicon : String) (rules : List Rule) : Grammar :=
  ⟨Ordered.alter lexicon (fun found => found.getD [] ++ rules) g.lexicons⟩

def addRule (g : Grammar) (lexicon : String) (rule : Rule) : Grammar := g.addRules lexicon [rule]

/-- Makes a set without rules, if it is missing. -/
def declare (g : Grammar) (lexicon : String) : Grammar := g.addRules lexicon []

/-- Replaces the rules of a set. -/
def put (g : Grammar) (lexicon : String) (rules : List Rule) : Grammar :=
  ⟨Ordered.put lexicon rules g.lexicons⟩

/-- Gathers sets; what is listed twice under a name is appended. -/
def ofList (lexicons : List (String × List Rule)) : Grammar :=
  lexicons.foldl (fun g (name, rules) => g.addRules name rules) empty

def names (g : Grammar) : List String := g.lexicons.map Prod.fst

def rules? (g : Grammar) (lexicon : String) : Option (List Rule) := g.lexicons.lookup lexicon

def contains (g : Grammar) (lexicon : String) : Bool := (g.rules? lexicon).isSome

def size (g : Grammar) : Nat := g.lexicons.length

end Grammar

/-- A lexicon as it is stored: where derivations start, which symbols need no quotes, and the
rules. -/
structure Document where
  start : String
  multichar : List String := []
  lexicons : Grammar
  deriving DecidableEq, Repr

end Transducer
