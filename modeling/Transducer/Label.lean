/-!
Symbols and labels. A label is what an arc reads and writes: one symbol for both, or a pair.
Labels order like their lists of symbols.
-/

namespace Transducer

/-- What one arc reads or writes; several characters may make one symbol. -/
abbrev Symbol := String

/-- The empty symbol: nothing is read or written. -/
def epsilon : Symbol := ""

/-- Stands for any input token that the alphabet does not know. -/
def wildcard : Symbol := "."

inductive Label where
  | identity (symbol : Symbol)
  | pair (input output : Symbol)
  deriving DecidableEq, Repr, Inhabited

/-- A list of symbols that makes no label, by its length. -/
structure LabelError where
  length : Nat
  deriving DecidableEq, Repr

def LabelError.message (e : LabelError) : String :=
  s!"a label holds one or two symbols, got {e.length}"

namespace Label

/-- The label that reads `input` and writes `output`; equal sides make an identity. -/
def between (input output : Symbol) : Label :=
  if input = output then identity input else pair input output

def ofSymbols : List Symbol → Except LabelError Label
  | [s] => .ok (identity s)
  | [i, o] => .ok (pair i o)
  | symbols => .error ⟨symbols.length⟩

def symbols : Label → List Symbol
  | identity s => [s]
  | pair i o => [i, o]

def input : Label → Symbol
  | identity s => s
  | pair i _ => i

def output : Label → Symbol
  | identity s => s
  | pair _ o => o

def isIdentity : Label → Bool
  | identity _ => true
  | pair _ _ => false

/-- Nothing is read and nothing written. -/
def isEpsilon (l : Label) : Bool := l.symbols.all (· = epsilon)

/-- Labels compare like their lists of symbols: an identity comes before the pairs that begin with
its symbol. -/
def order : Label → Label → Ordering
  | identity s, identity t => compare s t
  | identity s, pair i _ => (compare s i).then .lt
  | pair i _, identity s => (compare i s).then .gt
  | pair i o, pair j p => (compare i j).then (compare o p)

instance : Ord Label := ⟨order⟩

/-- The label as text, with `ϵ` for the empty symbol. -/
def text (l : Label) : String :=
  ":".intercalate (l.symbols.map fun s => if s = epsilon then "ϵ" else s)

theorem compare_eq_compare_symbols (l m : Label) : compare l m = compare l.symbols m.symbols := by
  cases l <;> cases m <;>
    simp [compare, order, symbols, List.compareLex_cons_cons, List.compareLex_nil_nil,
      List.compareLex_nil_cons, List.compareLex_cons_nil]

theorem ofSymbols_symbols (l : Label) : ofSymbols l.symbols = .ok l := by cases l <;> rfl

theorem input_between (i o : Symbol) : (between i o).input = i := by
  unfold between; split <;> rfl

theorem output_between (i o : Symbol) : (between i o).output = o := by
  unfold between; split
  · assumption
  · rfl

end Label

end Transducer
