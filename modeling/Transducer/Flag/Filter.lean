import Transducer.Flag.Register
/-!
The flags of a finished path. A filter keeps its register from one sequence to the next, so a
name has one number for as long as the filter lives, and it keeps the numbered form of every flag
that it has read, so that it reads none of them twice.
-/

namespace Transducer

/-- The settings of features, each in the slot of its number. -/
abbrev Settings := Array (Setting Nat)

namespace Settings

/-- Slots for a number of features, all of them neutral. -/
def neutral (count : Nat) : Settings := Array.replicate count .neutral

/-- The settings with a slot for a feature: if it has none, neutral ones are added up to its own. -/
def reach (settings : Settings) (feature : Nat) : Settings :=
  if feature < settings.size then settings
  else settings ++ neutral (feature + 1 - settings.size)

theorem lt_size_reach (settings : Settings) (feature : Nat) :
    feature < (settings.reach feature).size := by
  rw [reach]
  split
  · assumption
  · rw [Array.size_append, neutral, Array.size_replicate]
    omega

end Settings

structure FlagFilter where
  register : Register := {}
  /-- The numbered forms of flags that have been read. -/
  parsed : Std.HashMap Symbol (Flag Nat) := {}

namespace FlagFilter

/-- The numbered form of a flag, read only if none is kept; nothing if it cannot be numbered. -/
def lookup (f : FlagFilter) (symbol : Symbol) : Option (Flag Nat) × FlagFilter :=
  match f.parsed[symbol]? with
  | some flag => (some flag, f)
  | none =>
    match f.register.read symbol with
    | (.error _, register) => (none, { f with register })
    | (.ok flag, register) => (some flag, ⟨register, f.parsed.insert symbol flag⟩)

/-- A filter that has looked up the flags among the symbols. -/
def ofSymbols (symbols : List Symbol) : FlagFilter :=
  (symbols.filter isFlag).foldl (fun f s => (f.lookup s).2) {}

/-- Follows the flags of a sequence from given settings. A flag that cannot be numbered is passed
over. -/
def follow (f : FlagFilter) (settings : Settings) : List Symbol → Bool × FlagFilter
  | [] => (true, f)
  | s :: rest =>
    if isFlag s then
      match f.lookup s with
      | (none, f) => follow f settings rest
      | (some flag, f) =>
        let room := settings.reach flag.feature
        have inside := settings.lt_size_reach flag.feature
        match flag.check room[flag.feature] with
        | .reject => (false, f)
        | .keep => follow f room rest
        | .set setting => follow f (room.set flag.feature setting) rest
    else follow f settings rest

/-- Whether the flags of a sequence agree with one another, all features being neutral at first. -/
def accepts (f : FlagFilter) (symbols : List Symbol) : Bool × FlagFilter :=
  f.follow (.neutral f.register.features.size) symbols

end FlagFilter

end Transducer
