import Transducer.Automaton.Edit
import Transducer.Grammar.Compile
/-!
The automaton of a grammar, assembled step by step. The steps find states by the names of their
sets and change the automaton with all that can go wrong: a name may have no state, a state may be
missing, and in the end the structural invariants are checked.
-/

namespace Transducer

/-- What stops an assembly. -/
inductive Fault where
  | unknownName (name : String)
  | state (error : StateError)
  | invariant (message : String)
  deriving DecidableEq, Repr

/-- Steps on an automaton that is being assembled. -/
abbrev Assembly := ExceptT Fault (StateM Automaton)

namespace Assembly

/-- The states of names, in name order. -/
abbrev Table := List (String × StateId)

def edit (e : Edit) : Assembly Unit := e.change.adapt .state

/-- The state of a name, which has to have one. -/
def find (table : Table) (name : String) : Assembly StateId :=
  match table.lookup name with
  | some id => return id
  | none => throw (.unknownName name)

/-- Makes a state for a name, if it has none yet. -/
def declare (table : Table) (name : String) : Assembly Table := do
  if (table.lookup name).isSome then return table
  let id := (← get).size
  edit (.addState (some name))
  return Ordered.put name id table

/-- Adds a path of fresh states between two states, the weight on its last arc. -/
def path (source target : StateId) (weight : Weight) : List Label → Assembly Unit
  | [] => return
  | [l] => edit (.addArc source ⟨target, l, weight⟩)
  | l :: rest => do
    let next := (← get).size
    edit (.addState none)
    edit (.addArc source ⟨next, l, .zero⟩)
    path next target weight rest

def rule (spelling : Spelling) (table : Table) (lexicon : String) (r : Rule) : Assembly Unit := do
  let source ← find table lexicon
  let target ← find table r.target
  let (inputs, outputs) := r.sides spelling
  edit (.addSymbols ((inputs ++ outputs).filter (· ≠ epsilon)))
  path source target r.weight (Label.align inputs outputs)

/-- Stops at a structural invariant that does not hold. -/
def audit : Assembly Unit := do
  if let some message := (← get).brokenInvariant? then throw (.invariant message)

/-- Assembles a grammar on an automaton of one state, which becomes the start. -/
def grammar (g : Grammar) (start : String) (spelling : Spelling) : Assembly Unit := do
  let initial := (← get).initial
  edit (.setName initial (some start))
  let table ← (g.names ++ [finalLexicon]).foldlM declare [(start, initial)]
  edit (.setFinal (← find table finalLexicon) .zero)
  g.usedLexicons.forM fun (lexicon, rules) => rules.forM (rule spelling table lexicon)
  audit

end Assembly

/-- Compiles a grammar step by step. The names are checked first; what goes wrong then is a
fault. -/
def Grammar.assemble (g : Grammar) (start : String) (multichar : List Symbol) :
    Except GrammarError (Except Fault Automaton) := do
  g.check start
  match (Assembly.grammar g start (.ofDeclared multichar)).run.run .empty with
  | (.ok (), a) => return .ok a
  | (.error fault, _) => return .error fault

end Transducer
