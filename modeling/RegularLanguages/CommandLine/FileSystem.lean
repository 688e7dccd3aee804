/-!
# Files and paths

Files are named by the names on the way to them from the root. A path leads through directories
name by name, from the root if it begins with a slash, and otherwise from the working directory.
-/

namespace RegularLanguages

inductive ReadFailure where
  | missing
  | isDirectory
  /-- The path leads on from a file. -/
  | notDirectory
  /-- The path, or a name in it, has too many bytes. -/
  | nameTooLong
  /-- Any other reason, in the words of the system. -/
  | other (reason : String)
deriving DecidableEq, Inhabited, Repr

def ReadFailure.message : ReadFailure → String
  | missing => "No such file or directory (os error 2)"
  | isDirectory => "Is a directory (os error 21)"
  | notDirectory => "Not a directory (os error 20)"
  | nameTooLong => "File name too long (os error 36)"
  | other reason => reason

inductive FileContent where
  | text (s : String)
  | standardInput
deriving DecidableEq, Inhabited, Repr

/-- Files with what they give, directories, and the one in which paths begin that do not begin at
the root. -/
structure FileSystem where
  files : List (List String × FileContent)
  /-- Directories, whether they hold files or not. -/
  directories : List (List String)
  workingDirectory : List String
deriving DecidableEq, Inhabited, Repr

namespace FileSystem

def maxNameBytes : Nat := 255

def maxPathBytes : Nat := 4095

/-- Whether there is a file or directory at a place. The directories on the way to what is there
are there too. -/
def holds (fs : FileSystem) (place : List String) : Bool :=
  (fs.workingDirectory :: fs.directories ++ fs.files.map Prod.fst).any place.isPrefixOf

/-- Follows one part of a path. The directory above the root is the root. -/
def follow (fs : FileSystem) (place : List String) (part : String) :
    Except ReadFailure (List String) :=
  if (fs.files.lookup place).isSome then .error .notDirectory
  else if part = "" ∨ part = "." then .ok place
  else if part = ".." then .ok place.dropLast
  else if maxNameBytes < part.utf8ByteSize then .error .nameTooLong
  else if fs.holds (place ++ [part]) then .ok (place ++ [part])
  else .error .missing

def locate (fs : FileSystem) (path : String) : Except ReadFailure (List String) :=
  if maxPathBytes < path.utf8ByteSize then .error .nameTooLong
  else (path.splitOn "/").foldlM fs.follow
    (if path.toList.head? = some '/' then [] else fs.workingDirectory)

def read (fs : FileSystem) (path : String) : Except ReadFailure FileContent := do
  match fs.files.lookup (← fs.locate path) with
  | some content => return content
  | none => throw .isDirectory

def devices : List (List String × FileContent) :=
  [(["dev", "null"], .text ""), (["dev", "stdin"], .standardInput),
    (["dev", "fd", "0"], .standardInput), (["proc", "self", "fd", "0"], .standardInput)]

def userList : List String × FileContent :=
  (["etc", "passwd"], .text "root:x:0:0:root:/root:/bin/sh\n")

def systemDirectories : List (List String) :=
  [["bin"], ["boot"], ["home"], ["lib"], ["media"], ["mnt"], ["opt"], ["root"], ["run"],
    ["sbin"], ["srv"], ["sys"], ["usr", "bin"], ["usr", "lib"], ["usr", "local"],
    ["usr", "share"], ["var", "lib"], ["var", "log"], ["var", "tmp"]]

/-- A directory of its own for files with their names and texts, beside what is always there. -/
def ofFiles (files : List (String × String)) : FileSystem where
  files := userList :: devices ++ files.map fun f => (["tmp", "work"] ++ f.1.splitOn "/", .text f.2)
  directories := systemDirectories
  workingDirectory := ["tmp", "work"]

end FileSystem

end RegularLanguages
