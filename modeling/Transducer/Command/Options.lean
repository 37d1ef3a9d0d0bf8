import Transducer.Apply.Options
import Transducer.Text.Printable
/-!
The options that the tools share. What does not begin with a dash is a word; so is a single dash.
-/

namespace Transducer.Command

/-- Why arguments cannot be read. -/
inductive OptionError where
  | missingValue (option : String)
  | invalidLimit (value : String)
  | unknown (option : String)
  deriving DecidableEq, Repr

def OptionError.message : OptionError → String
  | missingValue option => s!"{option} requires a value"
  | invalidLimit value =>
    s!"invalid limit {Text.quoted value}: expected a non-negative integer"
  | unknown option => s!"unknown option {option}"

structure Options where
  lexicon : Option String := none
  /-- Where derivations start, if not where the lexicon says. -/
  start : Option String := none
  apply : ApplyOptions := {}
  /-- The greatest number of results for a word, or of words. -/
  limit : Option Nat := none
  format : Option String := none
  words : List String := []
  deriving DecidableEq, Repr

namespace Options

/-- The largest limit. -/
def maxLimit : Nat := UInt64.size - 1

/-- A limit is written in decimal digits, with or without a plus sign. -/
def readLimit? (value : String) : Option Nat :=
  let digits := match value.toList with
    | '+' :: rest => rest
    | text => text
  if digits.isEmpty || !digits.all Char.isDigit then none
  else
    let n := digits.foldl (fun n c => n * 10 + (c.toNat - '0'.toNat)) 0
    if n ≤ maxLimit then some n else none

/-- The options that take a value. -/
inductive Valued where
  | lexicon
  | start
  | limit
  | format
  deriving DecidableEq, Repr

/-- Sets an option to its value. -/
def set (o : Options) (option : Valued) (value : String) : Except OptionError Options :=
  match option with
  | .lexicon => .ok { o with lexicon := some value }
  | .start => .ok { o with start := some value }
  | .format => .ok { o with format := some value }
  | .limit =>
    match readLimit? value with
    | some n => .ok { o with limit := some n }
    | none => .error (.invalidLimit value)

def ofName? : String → Option Valued
  | "-l" | "--lexicon" => some .lexicon
  | "-s" | "--start" => some .start
  | "-n" | "--limit" => some .limit
  | "-f" | "--format" => some .format
  | _ => none

/-- The text behind a given beginning. -/
def rest? (beginning text : String) : Option String :=
  if beginning.toList.isPrefixOf text.toList then
    some (String.ofList (text.toList.drop beginning.length))
  else none

/-- An option and its value in one argument. -/
def joined? (argument : String) : Option (Valued × String) :=
  [("--lexicon=", Valued.lexicon), ("--start=", .start), ("--limit=", .limit),
    ("--format=", .format)].findSome?
      fun (beginning, option) => (rest? beginning argument).map (option, ·)

/-- An argument that stands alone: a switch or a word. -/
def single (o : Options) (argument : String) : Except OptionError Options :=
  match argument with
  | "-w" | "--weights" => .ok { o with apply := { o.apply with weights := true } }
  | "-t" | "--tokens" => .ok { o with apply := { o.apply with tokenizeOutputs := true } }
  | "--no-flags" => .ok { o with apply := { o.apply with obeyFlags := false } }
  | "--print-flags" => .ok { o with apply := { o.apply with printFlags := true } }
  | "-h" | "--help" => .ok o
  | word =>
    if word ≠ "-" && word.toList.head? = some '-' then .error (.unknown word)
    else .ok { o with words := o.words ++ [word] }

/-- Reads arguments from left to right, on top of what has been read. -/
def readFrom (o : Options) : List String → Except OptionError Options
  | [] => .ok o
  | argument :: rest =>
    match joined? argument with
    | some (option, value) => do readFrom (← o.set option value) rest
    | none =>
      match ofName? argument, rest with
      | some option, value :: rest => do readFrom (← o.set option value) rest
      | some _, [] => .error (.missingValue argument)
      | none, rest => do readFrom (← o.single argument) rest

def read (arguments : List String) : Except OptionError Options := readFrom {} arguments

end Options

/-- Whether help is asked for anywhere. -/
def wantsHelp (arguments : List String) : Bool :=
  arguments.any fun a => a = "--help" || a = "-h"

end Transducer.Command
