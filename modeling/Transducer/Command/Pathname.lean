/-!
Pathnames: names between slashes, taken one after another from the root or from the working
directory.
-/

namespace Transducer.Command

/-- Why a file cannot be reached or written. -/
inductive FileError where
  | missing
  | notDirectory
  | isDirectory
  | noSpace
  | nameTooLong
  deriving DecidableEq, Repr

def FileError.message : FileError → String
  | missing => "No such file or directory (os error 2)"
  | notDirectory => "Not a directory (os error 20)"
  | isDirectory => "Is a directory (os error 21)"
  | noSpace => "No space left on device (os error 28)"
  | nameTooLong => "File name too long (os error 36)"

structure Pathname where
  fromRoot : Bool
  /-- The names on the way, `.` and `..` among them. -/
  names : List String
  endsInSlash : Bool
  deriving DecidableEq, Repr

namespace Pathname

/-- The most bytes that a pathname has. -/
def maxBytes : Nat := 4095

/-- The most bytes that a name in a directory has. -/
def maxNameBytes : Nat := 255

/-- The names between slashes; slashes side by side count as one. -/
def namesOf (path : String) : List String := (path.splitOn "/").filter (· ≠ "")

def ofString (path : String) : Except FileError Pathname :=
  if path.isEmpty then .error .missing
  else if maxBytes < path.utf8ByteSize then .error .nameTooLong
  else
    .ok {
      fromRoot := path.toList.head? = some '/'
      names := namesOf path
      endsInSlash := path.toList.getLast? = some '/' }

/-- The last name, unless it can only be a directory: the root, `.` and `..` have none. -/
def lastName? (p : Pathname) : Option String :=
  p.names.getLast?.filter fun name => name ≠ "." && name ≠ ".."

/-- The names that have to be directories. -/
def way (p : Pathname) : List String :=
  if p.lastName?.isSome then p.names.dropLast else p.names

end Pathname

end Transducer.Command
