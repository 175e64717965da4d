/-!
# Directories

The files that a run can read, and what it can not write. Names are paths from the directory: a
part that is a dot or empty stays where it is.
-/

namespace ExprBackend.Cli

/-- Why a file can not be used. -/
inductive FileRefusal where
  | missing
  | isDirectory
  /-- A part of the path in front of the last one is a file. -/
  | notDirectory
  | other (reason : String)
deriving DecidableEq, Repr

def FileRefusal.reason : FileRefusal → String
  | .missing => "no such file or directory"
  | .isDirectory => "is a directory"
  | .notDirectory => "not a directory"
  | .other reason => reason

/-- A directory can be opened, and is refused only when it is read. -/
def FileRefusal.readMessage (r : FileRefusal) (name : String) : String :=
  (if r = .isDirectory then "read " else "open ") ++ name ++ ": " ++ r.reason

def FileRefusal.writeMessage (r : FileRefusal) (name : String) : String :=
  "open " ++ name ++ ": " ++ r.reason

/-- What a run sees of the file system. -/
structure Directory where
  read : String → Except FileRefusal String
  /-- Why a file of this name can not be written. -/
  refusal? : String → Option FileRefusal := fun _ => none

namespace Directory

/-- The parts of a path, without those that stay where they are. -/
def parts (name : String) : List String := (name.splitOn "/").filter fun p => p ≠ "" && p ≠ "."

/-- The shortest path to the same place. -/
def plainName (name : String) : String := "/".intercalate (parts name)

/-- A path that names a directory by its form: it ends in a slash or in a dot. -/
def endsOpen (name : String) : Bool :=
  match (name.splitOn "/").getLast? with
  | some last => last = "" || last = "."
  | none => true

/-- What stands at a path of a directory of the given files only. -/
def find (files : List (String × String)) (name : String) : Except FileRefusal String :=
  let path := parts name
  if name = "" || name.startsWith "/" then .error .missing
  else if path = [] then .error .isDirectory
  else match files.find? (parts ·.1 = path) with
    | some (_, text) => if endsOpen name then .error .notDirectory else .ok text
    | none =>
      if files.any fun f => (parts f.1).isPrefixOf path then .error .notDirectory
      else if files.any fun f => path.isPrefixOf (parts f.1) then .error .isDirectory
      else .error .missing

/-- Only a file that is there, or whose directory is there, can be written. -/
def writeRefusal? (files : List (String × String)) (name : String) : Option FileRefusal :=
  match find files name with
  | .ok _ => none
  | .error .missing =>
    let path := (parts name).dropLast
    let there := path = [] || files.any fun f => path.isPrefixOf (parts f.1).dropLast
    if name = "" || name.startsWith "/" || !there then some .missing
    else if endsOpen name then some .isDirectory
    else none
  | .error r => some r

/-- A directory of the given files only. -/
def ofFiles (files : List (String × String)) : Directory where
  read := find files
  refusal? := writeRefusal? files

end Directory

end ExprBackend.Cli
