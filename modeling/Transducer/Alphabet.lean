import Transducer.Label
import Transducer.Ordered
/-!
The alphabet of an automaton: a set of symbols in increasing order, and the tokens it cuts a word
into.
-/

namespace Transducer

/-- A set of symbols, in increasing order. -/
structure Alphabet where
  symbols : List Symbol := []
  deriving DecidableEq, Repr, Inhabited

namespace Alphabet

def empty : Alphabet := {}

def insert (a : Alphabet) (s : Symbol) : Alphabet := ⟨Ordered.insert s a.symbols⟩

def insertAll (a : Alphabet) (symbols : List Symbol) : Alphabet := symbols.foldl insert a

def ofList (symbols : List Symbol) : Alphabet := empty.insertAll symbols

def filter (p : Symbol → Bool) (a : Alphabet) : Alphabet := ⟨a.symbols.filter p⟩

instance : Membership Symbol Alphabet := ⟨fun a s => s ∈ a.symbols⟩

instance (s : Symbol) (a : Alphabet) : Decidable (s ∈ a) :=
  inferInstanceAs (Decidable (s ∈ a.symbols))

def contains (a : Alphabet) (s : Symbol) : Bool := s ∈ a

/-- The length of the longest of the symbols that the text begins with, or `longest` if none is
longer than that. -/
def munch (text : List Char) : (symbols : List (List Char)) → (longest : Nat) → Nat
  | [], longest => longest
  | s :: rest, longest =>
    munch text rest (if longest < s.length && s.isPrefixOf text then s.length else longest)

/-- Cuts a text into tokens: at each place the longest symbol that fits, else one character. -/
def cut (symbols : List (List Char)) : List Char → List Symbol
  | [] => []
  | c :: rest =>
    let more := munch (c :: rest) symbols 1 - 1
    String.ofList (c :: rest.take more) :: cut symbols (rest.drop more)
termination_by text => text.length
decreasing_by simp only [List.length_drop, List.length_cons]; omega

/-- The tokens of a word; every word has some. -/
def tokenize (a : Alphabet) (word : String) : List Symbol :=
  cut (a.symbols.map String.toList) word.toList

end Alphabet

end Transducer
