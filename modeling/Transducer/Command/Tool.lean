import Transducer.Command.Report
import Transducer.Document
import Transducer.Export.Network
import Transducer.Export.Table
import Transducer.Grammar.Compile
import Transducer.Text.Bytes
/-!
The four tools. From its arguments and the lexicon it finds, a tool makes a task; the task is run
here over files held in memory, and by the program over real ones.
-/

namespace Transducer.Command

inductive Tool where
  | generate
  | analyze
  | words
  /-- Writes the automaton in a format for other tools. -/
  | convert
  deriving DecidableEq, Repr

/-- Why a tool fails. -/
inductive ToolError where
  | options (error : OptionError)
  | noLexicon (candidates : List String)
  | notText (file : String)
  | malformed (file : String)
  | grammar (file : String) (error : GrammarError)
  | tablesOnly (format : String)
  | unknownFormat (format : String)
  | unwritable (base : String) (reason : String)
  deriving DecidableEq, Repr

def ToolError.message : ToolError → String
  | options error => error.message
  | noLexicon candidates =>
    "could not find a lexicon file in any of the search paths:\n" ++
      "\n".intercalate (candidates.map fun c => "  - " ++ c)
  | notText file => s!"failed to read {file}: stream did not contain valid UTF-8"
  | malformed file => s!"failed to parse {file}: not a lexicon"
  | grammar file error => s!"failed to compile {file}: {error.message}"
  | tablesOnly format => s!"-o writes att tables only, not {Text.quoted format}"
  | unknownFormat format =>
    s!"unknown format {Text.quoted format} (expected att, json, js or text)"
  | unwritable base reason => s!"failed to write {base}: {reason}"

/-- A place where the lexicon may be: its path, and how messages call it. -/
structure Candidate where
  path : String
  shown : String
  deriving DecidableEq, Repr

/-- The lexicon that is looked for when none is named. -/
def defaultLexicon : String := "lexicon.json"

/-- Where the lexicon is looked for: only where the options say; else where the environment says,
then in the working directory. -/
def candidates (option environment : Option String) (workingDirectory : String) :
    List Candidate :=
  match option with
  | some path => [⟨path, path⟩]
  | none =>
    (environment.map fun path => (⟨path, path⟩ : Candidate)).toList ++
      [⟨defaultLexicon, s!"{workingDirectory}/{defaultLexicon}"⟩]

/-- What a tool sees of its surroundings. -/
structure Host where
  environment : Option String := none
  workingDirectory : String := ""
  /-- The contents of a file. -/
  contents? : String → Option ByteArray

/-- Compiles the contents of a lexicon file. -/
def compileLexicon (file : String) (contents : ByteArray) (start : Option String) :
    Except ToolError Automaton :=
  match String.fromUTF8? contents with
  | none => .error (.notText file)
  | some text =>
    match Document.ofText? text with
    | none => .error (.malformed file)
    | some d =>
      match Automaton.ofDocument { d with start := start.getD d.start } with
      | .error e => .error (.grammar file e)
      | .ok a => .ok a

/-- Finds and compiles the lexicon. -/
def loadLexicon (host : Host) (o : Options) : Except ToolError Automaton :=
  let places := candidates o.lexicon host.environment host.workingDirectory
  match places.findSome? fun c => (host.contents? c.path).map (c.shown, ·) with
  | none => .error (.noLexicon (places.map Candidate.shown))
  | some (file, contents) => compileLexicon file contents o.start

/-- What a tool is about to do. -/
inductive Task where
  | help (text : String)
  | fail (error : ToolError)
  | print (text : String)
  /-- Writes files, in order, in the name of a base path. -/
  | save (base : String) (files : List (String × String))
  /-- Looks up words: the given ones, or those on standard input if none are given. -/
  | lookUp (query : Query) (limit : Quota) (words : List String)
  | list (automaton : Automaton) (limit : Quota)

/-- The value of an option that is written in one argument with it. -/
def joinedValue? (name argument : String) : Option String := Options.rest? (name ++ "=") argument

/-- Takes an option and its values out of the arguments; the last value counts. -/
def takeValue (name : String) : List String → Option String × List String
  | [] => (none, [])
  | [argument] =>
    match joinedValue? name argument with
    | some value => (some value, [])
    | none => (none, [argument])
  | argument :: value :: rest =>
    if argument = name then
      let (later, left) := takeValue name rest
      (later.or (some value), left)
    else
      let (later, left) := takeValue name (value :: rest)
      match joinedValue? name argument with
      | some value => (later.or (some value), left)
      | none => (later, argument :: left)

/-- The options that only `export` has. -/
structure ExportOptions where
  name : Option String
  base : Option String
  keepNames : Bool
  deriving DecidableEq, Repr

/-- Reads the options of `export`, and leaves the shared ones. -/
def ExportOptions.take (arguments : List String) : ExportOptions × List String :=
  let (name, arguments) := takeValue "--name" arguments
  let (short, arguments) := takeValue "-o" arguments
  let (long, arguments) := takeValue "--output" arguments
  ({ name, base := long.or short, keepNames := arguments.contains "--state-symbols" },
    arguments.filter (· ≠ "--state-symbols"))

/-- The files of a table. -/
def tableFiles (base : String) (t : Table) : List (String × String) :=
  [(base, t.transitions), (base ++ ".isyms", t.inputs), (base ++ ".osyms", t.outputs)] ++
    (t.names.map fun names => (base ++ ".ssyms", names)).toList

/-- The name of the network unless told otherwise. -/
def defaultNetworkName : String := "myNet"

def exportTask (a : Automaton) (o : ExportOptions) (format : String) : Task :=
  match o.base with
  | some base =>
    if format = "att" then .save base (tableFiles base (a.table tableEpsilon o.keepNames))
    else .fail (.tablesOnly format)
  | none =>
    match format with
    | "att" => .print (a.table tableEpsilon o.keepNames).transitions
    | "json" => .print (a.dictionary.toJson.text ++ "\n")
    | "js" => .print (a.networkStatement (o.name.getD defaultNetworkName) ++ "\n")
    | "text" => .print a.listing
    | _ => .fail (.unknownFormat format)

namespace Tool

/-- The lines that a tool prints when it is asked for help. -/
def helpLines : Tool → List String
  | generate =>
    ["lexfst-generate: Generate surface forms from analysis strings.", "",
      "Usage: lexfst-generate [-l LEXICON] [-s START] [-w] [-t] [-n N] [WORD...]", "",
      "If WORD arguments are given, generates from each of them.",
      "Otherwise reads words from stdin (one per line).",
      "Words without a result are printed as WORD<TAB>+?.", "",
      "Options:",
      "  -l, --lexicon PATH   Lexicon JSON file",
      "  -s, --start NAME     Start rule-set, overriding the lexicon file",
      "  -w, --weights        Print the cost of each result",
      "  -t, --tokens         Print outputs as space-separated symbols",
      "  -n, --limit N        Print at most N results per word",
      "      --no-flags       Ignore flag diacritics",
      "      --print-flags    Keep flag diacritics in the output",
      "  -h, --help           Print this help"]
  | analyze =>
    ["lexfst-analyze: Analyze surface forms with a lexicon.", "",
      "Usage: lexfst-analyze [-l LEXICON] [-s START] [-w] [-t] [-n N] [WORD...]", "",
      "If WORD arguments are given, analyzes each word.",
      "Otherwise reads words from stdin (one per line).",
      "Words without an analysis are printed as WORD<TAB>+?.", "",
      "Options:",
      "  -l, --lexicon PATH   Lexicon JSON file",
      "  -s, --start NAME     Start rule-set, overriding the lexicon file",
      "  -w, --weights        Print the cost of each analysis",
      "  -t, --tokens         Print analyses as space-separated symbols",
      "  -n, --limit N        Print at most N analyses per word",
      "      --no-flags       Ignore flag diacritics",
      "      --print-flags    Keep flag diacritics in the output",
      "  -h, --help           Print this help"]
  | words =>
    ["lexfst-words: List the input/output pairs a lexicon accepts.", "",
      "Usage: lexfst-words [-l LEXICON] [-s START] [-n N]", "",
      "Prints INPUT<TAB>OUTPUT<TAB>COST per accepted path, shortest first.", "",
      "Options:",
      "  -l, --lexicon PATH   Lexicon JSON file",
      "  -s, --start NAME     Start rule-set, overriding the lexicon file",
      "  -n, --limit N        Stop after N paths",
      "  -h, --help           Print this help"]
  | convert =>
    ["lexfst-export: Compile a lexicon and write it in an interchange format.", "",
      "Usage: lexfst-export [-l LEXICON] [-s START] [-f FORMAT] [--name NAME]",
      "       lexfst-export [-l LEXICON] [-s START] -o BASE [--state-symbols]", "",
      "Formats: att (default), json, js, text",
      "Without -o the export goes to stdout.", "",
      "Options:",
      "  -l, --lexicon PATH   Lexicon JSON file",
      "  -s, --start NAME     Start rule-set, overriding the lexicon file",
      "  -f, --format FORMAT  Output format",
      "      --name NAME      Variable name for the js format (default: myNet)",
      "  -o, --output BASE    Write BASE, BASE.isyms, BASE.osyms (att only)",
      "      --state-symbols  Keep state names and also write BASE.ssyms",
      "  -h, --help           Print this help"]

def help (t : Tool) : String := "".intercalate (t.helpLines.map (· ++ "\n"))

def ofName? : String → Option Tool
  | "generate" => some generate
  | "analyze" => some analyze
  | "words" => some words
  | "export" => some convert
  | _ => none

/-- The task of a tool on a compiled lexicon. -/
def taskOn (t : Tool) (a : Automaton) (o : Options) (e : ExportOptions) : Task :=
  match t with
  | generate => .lookUp ⟨a, .generate, o.apply⟩ o.limit o.words
  | analyze => .lookUp ⟨a, .analyze, o.apply⟩ o.limit o.words
  | words => .list a o.limit
  | convert => exportTask a e (o.format.getD "att")

/-- The options in the arguments. -/
def readOptions (t : Tool) (arguments : List String) :
    Except ToolError (Options × ExportOptions) :=
  let (e, shared) := match t with
    | convert => ExportOptions.take arguments
    | _ => (⟨none, none, false⟩, arguments)
  match Options.read shared with
  | .ok o => .ok (o, e)
  | .error e => .error (.options e)

/-- What a tool does with its arguments. -/
def task (t : Tool) (arguments : List String) (host : Host) : Task :=
  if wantsHelp arguments then .help t.help
  else
    match t.readOptions arguments with
    | .error e => .fail e
    | .ok (o, e) =>
      match loadLexicon host o with
      | .error e => .fail e
      | .ok a => t.taskOn a o e

end Tool

end Transducer.Command
