import Transducer.Apply.Search
import Transducer.Command.Options
import Transducer.Weight.Numeral
import Transducer.Words
/-!
The lines that the tools print, as enumerations over searches and walks, and sinks that may close
before everything is written.
-/

namespace Transducer.Command

def lineOf (fields : List String) : String := "\t".intercalate fields ++ "\n"

/-- The line of an accepted path. -/
def wordLine (w : Word) : String := lineOf [w.input, w.output, w.cost.text]

/-- A result as one field. -/
def outputField : Output → String
  | .text t => t
  | .tokens ts => " ".intercalate ts

/-- The line of a result. -/
def resultLine (word : String) (r : Applied) : String :=
  lineOf ([word, outputField r.output] ++ (r.cost.map Weight.text).toList)

/-- The line of a word without results. -/
def missLine (word : String) : String := lineOf [word, "+?"]

/-- How many more items are wanted; missing if all are. -/
abbrev Quota := Option Nat

/-- Lines of accepted paths. -/
structure WordReport where
  walk : Walk
  left : Quota

namespace WordReport

def start (a : Automaton) (limit : Quota) : WordReport := ⟨Walk.start a, limit⟩

def step (a : Automaton) (r : WordReport) : Move WordReport String :=
  if r.left = some 0 then .finished
  else
    match Walk.step a r.walk with
    | .finished => .finished
    | .silent walk => .silent { r with walk }
    | .found w walk => .found (wordLine w) ⟨walk, r.left.map (· - 1)⟩

end WordReport

/-- Lines of results for one word. -/
structure ResultReport where
  /-- The search, until no more of it is wanted. -/
  search : Option Search
  left : Quota
  missed : Bool

namespace ResultReport

def start (q : Query) (word : String) (limit : Quota) : ResultReport :=
  ⟨some (Search.start q word), limit, true⟩

/-- The search is over: if nothing was found, that is said in a last line. -/
def close (word : String) (r : ResultReport) : Move ResultReport String :=
  if r.missed then .found (missLine word) { r with search := none, missed := false }
  else .finished

def step (q : Query) (word : String) (r : ResultReport) : Move ResultReport String :=
  match r.search with
  | none => r.close word
  | some search =>
    if r.left = some 0 then r.close word
    else
      match Search.step q search with
      | .finished => r.close word
      | .silent search => .silent { r with search := some search }
      | .found result search =>
        .found (resultLine word result) ⟨some search, r.left.map (· - 1), false⟩

end ResultReport

/-- An output that takes a number of bytes, or any number, and then breaks. -/
structure Sink where
  written : ByteArray := .empty
  /-- How many bytes still fit; missing if there is no end. -/
  room : Option Nat := none
  broken : Bool := false

namespace Sink

/-- Writes as much of a text as fits. -/
def write (s : Sink) (text : String) : Sink :=
  let bytes := text.toUTF8
  match s.room with
  | none => { s with written := s.written ++ bytes }
  | some room =>
    { written := s.written ++ bytes.extract 0 (min room bytes.size)
      room := some (room - bytes.size)
      broken := s.broken || room < bytes.size }

/-- Writes what an enumeration finds until it ends or the sink breaks; nothing if that takes more
than `steps` steps. -/
def drain {σ : Type} (step : σ → Move σ String) : (steps : Nat) → Sink → σ → Option Sink
  | 0, _, _ => none
  | steps + 1, sink, s =>
    if sink.broken then some sink
    else
      match step s with
      | .finished => some sink
      | .silent next => drain step steps sink next
      | .found text next => drain step steps (sink.write text) next

end Sink

/-- Writes accepted paths, at most `limit` of them. -/
def writeWords (sink : Sink) (a : Automaton) (limit : Quota) (steps : Nat) : Option Sink :=
  sink.drain (WordReport.step a) steps (WordReport.start a limit)

/-- Writes the results for a word, at most `limit` of them, or that there are none. -/
def writeResults (sink : Sink) (q : Query) (word : String) (limit : Quota) (steps : Nat) :
    Option Sink :=
  sink.drain (ResultReport.step q word) steps (ResultReport.start q word limit)

end Transducer.Command
