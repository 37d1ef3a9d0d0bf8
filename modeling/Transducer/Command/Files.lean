import Transducer.Command.Pathname
/-!
A tree of files held in memory. An entry is found by the names on the way to it from the root, and
whatever lies above an entry is a directory.
-/

namespace Transducer.Command

/-- What a name in a directory stands for. -/
inductive Entry where
  | directory
  | file (contents : ByteArray)
  /-- A device that takes all that is written to it, with what it took so far. -/
  | stream (taken : ByteArray)
  /-- A device that takes nothing. -/
  | full

structure Files where
  /-- Where a path starts that is not from the root. -/
  workingDirectory : List String := []
  entries : List (List String × Entry) := []

namespace Files

/-- Whether a directory has something below it. The working directory may be empty. -/
def leadsOn (f : Files) (names : List String) : Bool :=
  names.isPrefixOf f.workingDirectory || f.entries.any fun (entry, _) => names.isPrefixOf entry

def entry? (f : Files) (names : List String) : Option Entry :=
  (f.entries.lookup names).or (if f.leadsOn names then some .directory else none)

/-- Looks a name up in a directory. -/
def find (f : Files) (directory : List String) (name : String) :
    Except FileError (Option Entry) :=
  if Pathname.maxNameBytes < name.utf8ByteSize then .error .nameTooLong
  else .ok (f.entry? (directory ++ [name]))

/-- The directory that a name leads to. Above the root is the root. -/
def enter (f : Files) (directory : List String) (name : String) :
    Except FileError (List String) :=
  if name = "." then .ok directory
  else if name = ".." then .ok directory.dropLast
  else
    match f.find directory name with
    | .error e => .error e
    | .ok none => .error .missing
    | .ok (some .directory) => .ok (directory ++ [name])
    | .ok (some _) => .error .notDirectory

/-- The directory in which the last name of a path is looked up. -/
def directoryOf (f : Files) (p : Pathname) : Except FileError (List String) :=
  p.way.foldlM f.enter (if p.fromRoot then [] else f.workingDirectory)

/-- The contents of a file; a device has none. -/
def contents? (f : Files) (path : String) : Option ByteArray :=
  match Pathname.ofString path with
  | .error _ => none
  | .ok p =>
    match f.directoryOf p, p.lastName? with
    | .ok directory, some name =>
      match f.find directory name with
      | .ok (some (.file contents)) => if p.endsInSlash then none else some contents
      | _ => none
    | _, _ => none

/-- What a device took. -/
def taken (f : Files) (names : List String) : ByteArray :=
  match f.entries.lookup names with
  | some (.stream taken) => taken
  | _ => .empty

/-- Sets an entry by the names on the way to it. -/
def put (f : Files) (names : List String) (entry : Entry) : Files :=
  { f with entries := f.entries.filter (fun (old, _) => old ≠ names) ++ [(names, entry)] }

/-- Writes to what a name in a directory stands for, or to a new file of that name. -/
def writeIn (f : Files) (directory : List String) (name : String) (contents : ByteArray) :
    Except FileError Files :=
  match f.find directory name with
  | .error e => .error e
  | .ok (some .directory) => .error .isDirectory
  | .ok (some .full) => if contents.isEmpty then .ok f else .error .noSpace
  | .ok (some (.stream taken)) => .ok (f.put (directory ++ [name]) (.stream (taken ++ contents)))
  | .ok _ => .ok (f.put (directory ++ [name]) (.file contents))

/-- Writes to a path. One that ends in a slash names a directory, there or not. -/
def write (f : Files) (path : String) (contents : ByteArray) : Except FileError Files :=
  match Pathname.ofString path with
  | .error e => .error e
  | .ok p =>
    match f.directoryOf p, p.lastName? with
    | .error e, _ => .error e
    | .ok _, none => .error .isDirectory
    | .ok directory, some name =>
      if p.endsInSlash then .error .isDirectory else f.writeIn directory name contents

/-- The files below the working directory that are new or have other contents than before. -/
def changedSince (f before : Files) : List (List String × ByteArray) :=
  f.entries.filterMap fun (names, entry) =>
    match f.workingDirectory.isPrefixOf? names, entry with
    | some below, .file contents =>
      match before.entries.lookup names with
      | some (.file old) => if old.data = contents.data then none else some (below, contents)
      | _ => some (below, contents)
    | _, _ => none

end Files

end Transducer.Command
