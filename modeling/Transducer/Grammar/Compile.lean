import Transducer.Automaton.Copy
import Transducer.Grammar.Basic
import Transducer.Spelling
import Transducer.Text.Printable
/-!
The automaton of a grammar. Every set of rules is a state of its name; every rule is a path from its
set to the one that goes on, through states of its own, with the weight on its last arc.
-/

namespace Transducer

/-- A name that is used and not declared. -/
inductive GrammarError where
  | undefinedStart (start : String)
  | undefinedTarget (lexicon : String) (rule : Nat) (target : String)
  deriving DecidableEq, Repr

def GrammarError.message : GrammarError → String
  | undefinedStart start => s!"start rule-set {Text.quoted start} is not declared in the grammar"
  | undefinedTarget lexicon rule target =>
    s!"rule #{rule} of rule-set {Text.quoted lexicon} continues to undeclared rule-set " ++
      Text.quoted target

/-- The labels of two sides, position by position; the shorter side is filled up with epsilon. -/
def Label.align : List Symbol → List Symbol → List Label
  | [], outputs => outputs.map (Label.between epsilon)
  | inputs, [] => inputs.map (Label.between · epsilon)
  | i :: inputs, o :: outputs => Label.between i o :: Label.align inputs outputs

namespace Rule

/-- The symbols of both sides. -/
def sides (spelling : Spelling) (r : Rule) : List Symbol × List Symbol :=
  let inputs := spelling.tokenize r.input
  (inputs, (r.output.map spelling.tokenize).getD inputs)

end Rule

namespace Grammar

/-- Rules of the final set are never used. -/
def usedLexicons (g : Grammar) : List (String × List Rule) :=
  g.lexicons.filter (·.1 ≠ finalLexicon)

def declares (g : Grammar) (name : String) : Bool := name = finalLexicon || g.contains name

/-- The first rule of a set that goes on with an undeclared one. -/
def undeclaredIn? (g : Grammar) (lexicon : String × List Rule) : Option GrammarError :=
  lexicon.2.zipIdx.findSome? fun (rule, index) =>
    if g.declares rule.target then none
    else some (.undefinedTarget lexicon.1 index rule.target)

/-- Whether all names that are used are declared. -/
def check (g : Grammar) (start : String) : Except GrammarError Unit :=
  if g.declares start then
    match g.usedLexicons.findSome? g.undeclaredIn? with
    | none => .ok ()
    | some e => .error e
  else .error (.undefinedStart start)

/-- The named states: the start, the sets in name order, and the final set. -/
def stateNames (g : Grammar) (start : String) : List String :=
  (start :: (g.names ++ [finalLexicon])).eraseDups

end Grammar

namespace Automaton

/-- Adds a path of fresh states between two states, the weight on its last arc. -/
def addPath (a : Automaton) (source target : StateId) (weight : Weight) :
    List Label → Automaton
  | [] => a
  | [l] => a.addArc source ⟨target, l, weight⟩
  | l :: rest =>
    let next := a.size
    let a := a.addState none
    (a.addArc source ⟨next, l, .zero⟩).addPath next target weight rest

def addRule (spelling : Spelling) (source target : StateId) (a : Automaton) (r : Rule) :
    Automaton :=
  let (inputs, outputs) := r.sides spelling
  (a.addSymbols ((inputs ++ outputs).filter (· ≠ epsilon))).addPath source target r.weight
    (Label.align inputs outputs)

/-- The named states of a grammar, the final one final and no arcs yet. -/
def ofNames (names : List String) : Automaton :=
  ({ states := (names.map State.named).toArray } : Automaton).setFinal
    (names.idxOf finalLexicon) .zero

/-- Compiles a grammar whose names have been checked. -/
def build (g : Grammar) (start : String) (spelling : Spelling) : Automaton :=
  let names := g.stateNames start
  g.usedLexicons.foldl
    (fun a (lexicon, rules) =>
      rules.foldl
        (fun a r => addRule spelling (names.idxOf lexicon) (names.idxOf r.target) a r) a)
    (ofNames names)

/-- Compiles a grammar. The names are checked before anything is built, so an error names the
first bad rule in name order. -/
def ofGrammar (g : Grammar) (start : String) (multichar : List Symbol) :
    Except GrammarError Automaton := do
  g.check start
  return build g start (.ofDeclared multichar)

def ofDocument (d : Document) : Except GrammarError Automaton :=
  ofGrammar d.lexicons d.start d.multichar

/-- The set that holds the strings of a word list. -/
def stringsLexicon : String := "Start"

/-- The strings that spell a sequence of symbols that none before them spells. -/
def distinctSpellings (spelling : Spelling) (strings : List String) : List String :=
  (strings.foldl
    (fun (seen, kept) s =>
      let symbols := (spelling.tokenize s).filter (· ≠ epsilon)
      if seen.contains symbols then (seen, kept) else (symbols :: seen, s :: kept))
    (([] : List (List Symbol)), ([] : List String))).2.reverse

/-- Accepts given strings, each on one path at no cost, with states in canonical order. -/
def ofStrings (strings : List String) (multichar : List Symbol) :
    Except GrammarError Automaton := do
  let rules := (distinctSpellings (.ofDeclared multichar) strings).map
    fun s => ({ input := s, target := finalLexicon } : Rule)
  let g := Grammar.ofList [(stringsLexicon, rules)]
  return (← ofGrammar g stringsLexicon multichar).renumbered

end Automaton

end Transducer
