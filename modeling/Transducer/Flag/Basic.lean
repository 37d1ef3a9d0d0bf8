import Transducer.Label
import Transducer.Text.Printable
/-!
Flag diacritics. The symbols `@OP.FEATURE@` and `@OP.FEATURE.VALUE@` match no input; read from
left to right along a path they set features and test them, and a test that fails rules the path
out.
-/

namespace Transducer

inductive FlagOp where
  /-- Sets the feature to a value. -/
  | positive
  /-- Sets the feature to anything but a value. -/
  | negative
  /-- Asks for a value, or for any setting. -/
  | require
  /-- Asks that a value is not set, or nothing is. -/
  | disallow
  /-- Makes the feature neutral. -/
  | clear
  /-- Sets the value unless it contradicts the setting. -/
  | unify
  deriving DecidableEq, Repr

namespace FlagOp

def letter : FlagOp → Char
  | positive => 'P'
  | negative => 'N'
  | require => 'R'
  | disallow => 'D'
  | clear => 'C'
  | unify => 'U'

def ofLetter? : Char → Option FlagOp
  | 'P' => some positive
  | 'N' => some negative
  | 'R' => some require
  | 'D' => some disallow
  | 'C' => some clear
  | 'U' => some unify
  | _ => none

/-- These operations have no form without a value. -/
def needsValue : FlagOp → Bool
  | positive | negative | unify => true
  | require | disallow | clear => false

end FlagOp

/-- One flag, its feature and value given by name or by number. -/
structure Flag (ν : Type) where
  op : FlagOp
  feature : ν
  value : Option ν
  deriving DecidableEq, Repr

/-- Why a symbol is no flag, or none that can be numbered. -/
inductive FlagError where
  | malformed (symbol : Symbol)
  | missingValue (op : FlagOp) (symbol : Symbol)
  | tooManyNames (name : String)
  deriving DecidableEq, Repr

def FlagError.message : FlagError → String
  | malformed symbol => s!"invalid flag diacritic: malformed symbol {Text.quoted symbol}"
  | missingValue op symbol =>
    s!"invalid flag diacritic: operation {op.letter} needs a value in {Text.quoted symbol}"
  | tooManyNames name =>
    s!"invalid flag diacritic: too many distinct names, cannot intern {Text.quoted name}"

namespace Flag

/-- A name inside a flag: not empty, and without the mark that ends the flag. -/
def isName (name : List Char) : Bool := !name.isEmpty && !name.contains '@'

/-- The parts between the marks: the feature ends at the first point, the value at the end. -/
def splitInner (inner : List Char) : List Char × Option (List Char) :=
  match inner.span (· ≠ '.') with
  | (feature, []) => (feature, none)
  | (feature, _ :: value) => (feature, some value)

/-- The parts of a symbol that has the shape of a flag, with or without a value. -/
def parts? (symbol : Symbol) : Option (Flag String) :=
  match symbol.toList with
  | '@' :: letter :: '.' :: rest =>
    match FlagOp.ofLetter? letter, rest.getLast? with
    | some op, some '@' =>
      let (feature, value) := splitInner rest.dropLast
      if isName feature && value.all isName then
        some ⟨op, String.ofList feature, value.map String.ofList⟩
      else none
    | _, _ => none
  | _ => none

/-- The flag that a symbol spells. -/
def ofSymbol (symbol : Symbol) : Except FlagError (Flag String) :=
  match parts? symbol with
  | none => .error (.malformed symbol)
  | some flag =>
    if flag.op.needsValue && flag.value.isNone then .error (.missingValue flag.op symbol)
    else .ok flag

end Flag

/-- Whether a symbol spells a flag. -/
def isFlag (symbol : Symbol) : Bool := (Flag.ofSymbol symbol).isOk

def withoutFlags (symbols : List Symbol) : List Symbol := symbols.filter (!isFlag ·)

/-- What a path has said about a feature so far. -/
inductive Setting (ν : Type) where
  | neutral
  | positive (value : ν)
  | negative (value : ν)
  deriving DecidableEq, Repr

/-- What a flag does to the path it is on. -/
inductive Verdict (ν : Type) where
  | reject
  | keep
  | set (setting : Setting ν)
  deriving DecidableEq, Repr

namespace Flag

variable {ν : Type} [DecidableEq ν]

def passIf (condition : Bool) : Verdict ν := if condition then .keep else .reject

/-- Weighs a flag against the present setting of its feature. An operation without the value it
needs rejects. -/
def check (flag : Flag ν) (current : Setting ν) : Verdict ν :=
  match flag.op, flag.value with
  | .positive, some v => .set (.positive v)
  | .negative, some v => .set (.negative v)
  | .clear, _ => .set .neutral
  | .require, some v => passIf (current = .positive v)
  | .require, none => passIf (current ≠ .neutral)
  | .disallow, some v => passIf (current ≠ .positive v)
  | .disallow, none => passIf (current = .neutral)
  | .unify, some v =>
    match current with
    | .neutral => .set (.positive v)
    | .positive w => passIf (w = v)
    | .negative w => if w = v then .reject else .set (.positive v)
  | .positive, none | .negative, none | .unify, none => .reject

end Flag

end Transducer
