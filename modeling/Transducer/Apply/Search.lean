import Transducer.Apply.Options
import Transducer.Apply.Queue
import Transducer.Automaton.Basic
import Transducer.Enumeration
import Transducer.Flag.Filter
import Transducer.Weight.Arithmetic
/-!
Applying an automaton to a word, best results first. Partial paths wait in a queue ordered by cost,
then by discovery. A path that may stop is queued once more as a stopped one, with the final weight
added, so it competes with the paths that go on from it.
-/

namespace Transducer

/-- A piece of the word. Only the wildcard matches one that the alphabet does not know. -/
structure Token where
  text : Symbol
  known : Bool
  deriving DecidableEq, Repr

/-- The symbol that an arc has to read to take a token. -/
def Token.matching (t : Token) : Symbol := if t.known then t.text else wildcard

/-- A path through the automaton that has read part of the word. -/
structure Path where
  cost : Weight
  /-- How many paths were discovered before this one. -/
  seq : Nat
  /-- The tokens that are still to be read. -/
  rest : List Token
  /-- The symbols written so far, latest first. -/
  written : List Symbol
  /-- Where the path is; missing once it has stopped. -/
  state : Option StateId
  deriving DecidableEq, Repr

namespace Path

/-- Lower cost first, in the total order of weights; then earlier discovery. -/
def before (p q : Path) : Bool :=
  ((compare p.cost q.cost).then (compare p.seq q.seq)) != .gt

end Path

/-- The text of a result, or the symbols that make it. -/
inductive Output where
  | text (text : String)
  | tokens (tokens : List Symbol)
  deriving DecidableEq, Repr

def Output.toText : Output → String
  | text t => t
  | tokens ts => "".intercalate ts

/-- One result; its cost only where weights are asked for. -/
structure Applied where
  output : Output
  cost : Option Weight
  deriving DecidableEq, Repr

/-- What is applied and how. -/
structure Query where
  automaton : Automaton
  direction : Direction
  options : ApplyOptions := {}

/-- The search between two steps. -/
structure Search where
  queue : Heap Path
  /-- How many paths have been discovered. -/
  discovered : Nat
  /-- Judges flags; missing if they do not matter. -/
  filter : Option FlagFilter

namespace Search

/-- Queues a path that has just been discovered. -/
def push (s : Search) (cost : Weight) (rest : List Token) (written : List Symbol)
    (state : Option StateId) : Search :=
  { s with
    queue := s.queue.insert Path.before ⟨cost, s.discovered, rest, written, state⟩
    discovered := s.discovered + 1 }

/-- The tokens of a word. -/
def tokens (a : Automaton) (word : String) : List Token :=
  (a.alphabet.tokenize word).map fun text => ⟨text, a.alphabet.contains text⟩

/-- The search before its first step: one empty path in the initial state. -/
def start (q : Query) (word : String) : Search :=
  let filter :=
    if q.options.obeyFlags then some (FlagFilter.ofSymbols q.automaton.alphabet.symbols) else none
  ({ queue := .empty, discovered := 0, filter } : Search).push .zero (tokens q.automaton word) []
    (some q.automaton.initial)

/-- What a path has left to read and has written once it takes an arc; nothing if it cannot. An arc
that reads the empty symbol or a flag takes no token. A wildcard that is written for an unknown
token is that token. -/
def take? (d : Direction) (rest : List Token) (written : List Symbol) (l : Label) :
    Option (List Token × List Symbol) :=
  let consumed := d.consumed l
  let produced := d.produced l
  if consumed = epsilon || isFlag consumed then some (rest, produced :: written)
  else
    match rest with
    | [] => none
    | t :: rest =>
      if t.matching = consumed then
        some (rest, (if !t.known && produced = wildcard then t.text else produced) :: written)
      else none

/-- Queues the stopped copy of a path, if it may stop, and every way to go on. -/
def expand (q : Query) (s : Search) (p : Path) (id : StateId) : Search :=
  let state := q.automaton.state id
  let s := if state.isFinal then s.push (p.cost + state.finalWeight) p.rest p.written none else s
  state.arcs.foldl
    (fun s arc =>
      match take? q.direction p.rest p.written arc.label with
      | none => s
      | some (rest, written) => s.push (p.cost + arc.weight) rest written (some arc.target))
    s

/-- Whether a stopped path is a result: the whole word is read, and the flags agree. -/
def accepts (s : Search) (p : Path) : Bool × Search :=
  if p.rest.isEmpty then
    match s.filter with
    | none => (true, s)
    | some f =>
      let (verdict, f) := f.accepts p.written.reverse
      (verdict, { s with filter := some f })
  else (false, s)

/-- The result of a stopped path. -/
def finish (o : ApplyOptions) (p : Path) : Applied :=
  let written := p.written.reverse
  let symbols := if o.printFlags then written else withoutFlags written
  { output := if o.tokenizeOutputs then .tokens symbols else .text ("".intercalate symbols)
    cost := if o.weights then some p.cost else none }

/-- Takes the best path: one that has stopped is a result or nothing, any other one is expanded. -/
def step (q : Query) (s : Search) : Move Search Applied :=
  match s.queue.pop? Path.before with
  | none => .finished
  | some (p, queue) =>
    let s := { s with queue }
    match p.state with
    | some id => .silent (expand q s p id)
    | none =>
      match s.accepts p with
      | (true, s) => .found (finish q.options p) s
      | (false, s) => .silent s

end Search

/-- The first results for a word, at most `limit` of them; nothing if that takes more than `steps`
steps. -/
def Query.results (q : Query) (word : String) (steps limit : Nat) : Option (List Applied) :=
  Move.take (Search.step q) steps limit (Search.start q word)

end Transducer
