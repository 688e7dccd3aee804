import RegularLanguages.CommandLine.FileSystem

/-!
# Inputs of the program

The texts that a command can read: standard input, and files by name.
-/

namespace RegularLanguages

structure Inputs where
  standardInput : Except ReadFailure String
  file : String → Except ReadFailure FileContent
  logFilter : String := ""

namespace Inputs

/-- Whether a path stands for standard input: a hyphen, with any steps after it that stay where
they are. -/
def isStandardInput (path : String) : Bool :=
  match path.splitOn "/" with
  | "-" :: rest => rest.all fun part => part = "" ∨ part = "."
  | _ => false

def readsStandardInput (inputs : Inputs) (path : String) : Bool :=
  isStandardInput path || match inputs.file path with
    | .ok .standardInput => true
    | _ => false

/-- The inputs that are left once a path has been read: standard input is read only once. -/
def afterReading (inputs : Inputs) (path : String) : Inputs :=
  if inputs.readsStandardInput path then { inputs with standardInput := .ok "" } else inputs

end Inputs

end RegularLanguages
