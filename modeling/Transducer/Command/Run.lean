import Transducer.Command.Surroundings
import Transducer.Command.Tool
/-!
Running a task over files held in memory, with everything on standard input at hand.
-/

namespace Transducer.Command

/-- What a tool leaves behind. -/
structure Outcome where
  files : Files
  output : ByteArray := .empty
  /-- What is said on the error stream. -/
  notices : String := ""
  failure : Option ToolError := none

namespace Outcome

def failed (o : Outcome) : Bool := o.failure.isSome

end Outcome

/-- What is said when standard input has a line that is no text. -/
def brokenInput : String := "error reading stdin: stream did not contain valid UTF-8\n"

/-- How a failure is said. -/
def ToolError.notice (e : ToolError) : String := s!"error: {e.message}\n"

/-- Writes files in order, up to the first that cannot be written. -/
def saveAll (files : Files) : List (String × String) → Files × Option FileError
  | [] => (files, none)
  | (path, text) :: rest =>
    match files.write path text.toUTF8 with
    | .ok files => saveAll files rest
    | .error e => (files, some e)

/-- Writes the results for words in order. -/
def writeAll (q : Query) (limit : Quota) (steps : Nat) (sink : Sink) :
    List String → Option Sink
  | [] => some sink
  | word :: rest =>
    match writeResults sink q word limit steps with
    | none => none
    | some sink => writeAll q limit steps sink rest

namespace Task

/-- Runs a task; nothing if a search or a walk takes more than `steps` steps. -/
def run (files : Files) (input : List UInt8) (steps : Nat) : Task → Option Outcome
  | help text => some { files, output := text.toUTF8 }
  | print text => some { files, output := text.toUTF8 }
  | fail e => some { files, notices := e.notice, failure := some e }
  | save base pages =>
    let (files, error) := saveAll files pages
    let failure := error.map fun e => ToolError.unwritable base e.message
    let said := (String.fromUTF8? (files.taken Files.errorDevice)).getD ""
    some {
      files
      output := files.taken Files.outputDevice
      notices := said ++ ((failure.map ToolError.notice).getD "")
      failure }
  | list a limit => (writeWords {} a limit steps).map fun sink => { files, output := sink.written }
  | lookUp q limit words =>
    let (words, broken) :=
      if words.isEmpty then Text.wordsOfLines (Text.splitLines [] input) else (words, false)
    (writeAll q limit steps {} words).map fun sink =>
      { files, output := sink.written, notices := if broken then brokenInput else "" }

end Task

end Transducer.Command
