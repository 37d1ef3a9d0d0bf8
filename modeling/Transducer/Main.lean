import Transducer.Command.Run
/-!
The program: its first argument names a tool, the others are that tool's.
-/

namespace Transducer.Command

/-- The environment variable that says where the lexicon is. -/
def lexiconVariable : String := "LEXFST_LEXICON"

/-- Prints what an enumeration finds as it is found. -/
partial def printAll {σ : Type} (out : IO.FS.Stream) (step : σ → Move σ String) (s : σ) :
    IO Unit := do
  match step s with
  | .finished => out.flush
  | .silent next => printAll out step next
  | .found text next =>
    out.putStr text
    printAll out step next

/-- Everything that a stream has left. -/
partial def readAll (input : IO.FS.Stream) (found : ByteArray) : IO ByteArray := do
  let bytes ← input.read 65536
  if bytes.isEmpty then return found else readAll input (found ++ bytes)

/-- The contents of a file; nothing if it is not a readable file. -/
def readFile? (path : String) : IO (Option ByteArray) := do
  try
    return some (← IO.FS.readBinFile path)
  catch _ => return none

/-- The surroundings of a tool: those files are read that may be its lexicon. -/
def readHost (t : Tool) (arguments : List String) : IO Host := do
  let environment ← IO.getEnv lexiconVariable
  let workingDirectory := toString (← IO.currentDir)
  let places := match t.readOptions arguments with
    | .ok (o, _) => candidates o.lexicon environment workingDirectory
    | .error _ => []
  let found ← places.mapM fun c => do return (c.path, ← readFile? c.path)
  return { environment, workingDirectory, contents? := fun path => (found.lookup path).join }

/-- The reason that a message gives for a file that cannot be written. -/
def writeReason : IO.Error → String
  | .noFileOrDirectory _ _ _ => FileError.missing.message
  | .inappropriateType _ code _ =>
    if code = 21 then FileError.isDirectory.message else FileError.notDirectory.message
  | .invalidArgument _ 36 _ => FileError.nameTooLong.message
  | .resourceExhausted _ 28 _ => FileError.noSpace.message
  | e => toString e

def fail (e : ToolError) : IO UInt32 := do
  IO.eprint e.notice
  return 1

/-- Runs a task over real files. A reader that goes away ends a listing. -/
def perform (out : IO.FS.Stream) : Task → IO UInt32
  | .help text | .print text => do
    out.putStr text
    return 0
  | .fail e => fail e
  | .save base pages => do
    try
      for (path, text) in pages do
        IO.FS.writeFile path text
      return 0
    catch e => fail (.unwritable base (writeReason e))
  | .list a limit => do
    try
      printAll out (WordReport.step a) (WordReport.start a limit)
    catch
      | .resourceVanished _ _ => return 0
      | e => throw e
    return 0
  | .lookUp q limit words => do
    let (words, broken) ←
      if words.isEmpty then do
        let input ← readAll (← IO.getStdin) .empty
        pure (Text.wordsOfLines (Text.splitLines [] input.toList))
      else pure (words, false)
    for word in words do
      printAll out (ResultReport.step q word) (ResultReport.start q word limit)
    if broken then IO.eprint brokenInput
    return 0

end Transducer.Command

open Transducer.Command in
def main (arguments : List String) : IO UInt32 := do
  match arguments with
  | name :: rest =>
    match Tool.ofName? name with
    | some t => perform (← IO.getStdout) (t.task rest (← readHost t rest))
    | none =>
      IO.eprintln s!"error: unknown tool {name} (expected generate, analyze, words or export)"
      return 1
  | [] =>
    IO.eprintln "error: no tool is named (expected generate, analyze, words or export)"
    return 1
