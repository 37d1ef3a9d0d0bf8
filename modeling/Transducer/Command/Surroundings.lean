import Transducer.Command.Files
/-!
What a system has beside the files of a working directory: its usual directories, a few devices and
the texts that describe its users and hosts.
-/

namespace Transducer.Command

namespace Files

/-- The device that hands on what it takes to standard output. -/
def outputDevice : List String := ["dev", "stdout"]

/-- The device that hands on what it takes to the error stream. -/
def errorDevice : List String := ["dev", "stderr"]

def systemDirectories : List (List String) :=
  ["bin", "boot", "dev", "etc", "home", "lib", "media", "mnt", "opt", "proc", "root", "run",
      "sbin", "srv", "sys", "tmp", "usr", "var"].map (fun name => [name]) ++
    ["bin", "include", "lib", "local", "sbin", "share", "src"].map (fun name => ["usr", name]) ++
    ["cache", "lib", "log", "tmp"].map (fun name => ["var", name]) ++
    ["fd", "pts", "shm"].map (fun name => ["dev", name])

/-- Files of every system. Their texts are left out: none of them is a lexicon. -/
def systemFiles : List (List String) :=
  ["group", "hostname", "hosts", "passwd"].map fun name => ["etc", name]

def devices : List (List String × Entry) :=
  [(outputDevice, .stream .empty), (errorDevice, .stream .empty), (["dev", "full"], .full)] ++
    ["null", "random", "stdin", "urandom", "zero"].map fun name =>
      (["dev", name], .stream .empty)

/-- Files of a working directory, by the names from there, in the surroundings of a system. -/
def inSystem (files : List (List String × ByteArray)) : Files :=
  let workingDirectory := ["tmp", "transducer"]
  { workingDirectory
    entries := systemDirectories.map (·, .directory) ++ systemFiles.map (·, .file .empty) ++
      devices ++
      files.map fun (names, contents) => (workingDirectory ++ names, .file contents) }

end Files

end Transducer.Command
