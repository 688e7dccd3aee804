import RegularLanguages.CommandLine.Report

/-!
# The program

Reads what a command needs, and writes its report.
-/

namespace RegularLanguages.CommandLine

def readFailure : IO.Error → ReadFailure
  | .noFileOrDirectory .. => .missing
  | .permissionDenied .. => .other "Permission denied (os error 13)"
  | .inappropriateType _ 21 _ => .isDirectory
  | .inappropriateType .. => .notDirectory
  | .invalidArgument _ _ "name too long" => .nameTooLong
  | e => .other (toString e)

def readText (bytes : IO ByteArray) : IO (Except ReadFailure String) := do
  try
    match String.fromUTF8? (← bytes) with
    | some text => return .ok text
    | none => return .error (.other "stream did not contain valid UTF-8")
  catch e => return .error (readFailure e)

/-- Whether a path stands for standard input, or leads to a device that does. -/
def isInputPath (path : String) : Bool :=
  Inputs.isStandardInput path || match (FileSystem.ofFiles []).read path with
    | .ok .standardInput => true
    | _ => false

def readInputs (words : List String) : IO Inputs := do
  let names := match Command.ofWords words with
    | .ok c => c.files
    | .error _ => []
  let (fromInput, fromFiles) := names.partition isInputPath
  let standardInput ←
    if fromInput.isEmpty then pure (.ok "") else readText (do (← IO.getStdin).readBinToEnd)
  let texts ← fromFiles.mapM fun (name : String) =>
      return (name, ← readText (IO.FS.readBinFile name))
  let file := fun path =>
    if isInputPath path then .ok .standardInput
    else ((texts.lookup path).getD (.error .missing)).map .text
  let logFilter := (← IO.getEnv "RUST_LOG").getD ""
  return { standardInput, file, logFilter }

end RegularLanguages.CommandLine

def main (words : List String) : IO UInt32 := do
  let r := RegularLanguages.report (← RegularLanguages.CommandLine.readInputs words) words
  (← IO.getStdout).putStr r.output
  (← IO.getStderr).putStr r.errors
  return r.exitCode.toUInt32
