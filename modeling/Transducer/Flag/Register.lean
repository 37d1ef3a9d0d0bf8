import Transducer.Flag.Basic
import Std.Data.HashMap
/-!
Numbers for the names in flags. A register gives features and values, each in a table of their
own, the numbers 0, 1, 2, … in the order in which they are first read.
-/

namespace Transducer

/-- Names with their numbers. -/
structure Names where
  numbers : Std.HashMap String Nat := {}

namespace Names

/-- How many names a table can hold. -/
def capacity : Nat := 65536

def size (t : Names) : Nat := t.numbers.size

/-- The number of a name, a new one if it has none yet; none if the table is full. -/
def intern (t : Names) (name : String) : Option Nat × Names :=
  match t.numbers[name]? with
  | some n => (some n, t)
  | none =>
    let n := t.size
    if n < capacity then (some n, ⟨t.numbers.insert name n⟩) else (none, t)

end Names

structure Register where
  features : Names := {}
  values : Names := {}

namespace Register

def empty : Register := {}

/-- Reads a flag and numbers its names, the feature first. A value that finds no room leaves the
feature numbered. -/
def read (r : Register) (symbol : Symbol) : Except FlagError (Flag Nat) × Register :=
  match Flag.ofSymbol symbol, r with
  | .error e, r => (.error e, r)
  | .ok flag, ⟨features, values⟩ =>
    match features.intern flag.feature with
    | (none, features) => (.error (.tooManyNames flag.feature), ⟨features, values⟩)
    | (some feature, features) =>
      match flag.value with
      | none => (.ok ⟨flag.op, feature, none⟩, ⟨features, values⟩)
      | some name =>
        match values.intern name with
        | (none, values) => (.error (.tooManyNames name), ⟨features, values⟩)
        | (some value, values) => (.ok ⟨flag.op, feature, some value⟩, ⟨features, values⟩)

/-- Reads symbols in order. -/
def readAll (r : Register) (symbols : List Symbol) : Register :=
  symbols.foldl (fun r s => (r.read s).2) r

end Register

end Transducer
