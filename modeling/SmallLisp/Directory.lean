/-!
# Directories

A working directory of files and empty directories, and what opening a path in it comes to.
-/
namespace SmallLisp

/-- Why the contents of a path cannot be had. -/
inductive OpenError where
  | notFound
  | isDirectory
  | notDirectory
  | nameTooLong
  /-- No path holds the null character. -/
  | nullInPath
  | other (reason : String)
deriving DecidableEq

def OpenError.reason : OpenError → String
  | notFound => "No such file or directory"
  | isDirectory => "Is a directory"
  | notDirectory => "Not a directory"
  | nameTooLong => "File name too long"
  | nullInPath => "embedded null byte"
  | other reason => reason

/-- How the contents of a path are had. -/
abbrev Files := String → Except OpenError ByteArray

inductive Directory.Entry where
  | file (contents : ByteArray)
  | directory

structure Directory where
  entries : List (String × Directory.Entry)

namespace Directory

/-- Where a path leads to. -/
inductive Place where
  | here
  /-- A directory of the working directory. -/
  | below
  /-- A directory outside the working directory, of which nothing is known. -/
  | outside
  | file (contents : ByteArray)

/-- The longest name of a file, in bytes. -/
def maxName : Nat := 255

/-- The longest path, in bytes. -/
def maxPath : Nat := 4095

/-- One step of a path. Empty names and single dots stay, but only in a directory. -/
def step (d : Directory) (place : Place) (name : String) : Except OpenError Place :=
  match place with
  | .file _ => .error .notDirectory
  | place =>
    if name = "" ∨ name = "." then .ok place
    else if name = ".." then
      match place with
      | .below => .ok .here
      | _ => .ok .outside
    else if maxName < name.utf8ByteSize then .error .nameTooLong
    else match place, d.entries.lookup name with
      | .here, some (.file contents) => .ok (.file contents)
      | .here, some .directory => .ok .below
      | _, _ => .error .notFound

/-- Where a path leads to, name by name. -/
def walk (d : Directory) (path : String) : Except OpenError Place :=
  (path.splitOn "/").foldlM d.step (if path.startsWith "/" then .outside else .here)

/-- The contents of a path. -/
def read (d : Directory) : Files := fun path =>
  if path.contains '\x00' then .error .nullInPath
  else if path = "" then .error .notFound
  else if maxPath < path.utf8ByteSize then .error .nameTooLong
  else match d.walk path with
    | .error e => .error e
    | .ok (.file contents) => .ok contents
    | .ok _ => .error .isDirectory

end Directory
end SmallLisp
