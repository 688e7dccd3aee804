import RegularLanguages.CommandLine.Command
import RegularLanguages.CommandLine.Inputs
import RegularLanguages.CommandLine.LogFilter
import RegularLanguages.Dfa.Distinguish
import RegularLanguages.Dfa.Minimize
import RegularLanguages.Gnfa.Eliminate
import RegularLanguages.Nfa.PausedRun
import RegularLanguages.Nfa.OfRegex
import RegularLanguages.Nfa.DeadStates
import RegularLanguages.Snapshot.Document
import RegularLanguages.Text.Blank

/-!
# What commands do

`Command.perform` says what a command prints for given inputs, or why it fails. `report` says it
for the words of a command line.
-/

namespace RegularLanguages

inductive CommandError where
  | badRegex (text : String) (error : Regex.ReadError)
  | unreadableInput (failure : ReadFailure)
  | unreadable (file : String) (failure : ReadFailure)
  /-- A file holds nothing but blanks. -/
  | emptySnapshot (file : String)
  | badSnapshot (file : String) (error : DocumentError)
  | unknownState (label : String)
  | elimination (error : EliminationError)
deriving DecidableEq, Inhabited, Repr

def CommandError.message : CommandError → String
  | badRegex text e => "Failed to parse regex: " ++ text ++ ": " ++ e.message
  | unreadableInput failure => "Failed to read stdin: " ++ failure.message
  | unreadable file failure => "Failed to open file: " ++ file ++ ": " ++ failure.message
  | emptySnapshot file => "Empty snapshot: " ++ file
  | badSnapshot file e => "Invalid NFA snapshot: " ++ file ++ ": " ++ e.message
  | unknownState label => "Unknown state: " ++ label
  | elimination e => e.message

structure Output where
  result : String
  remarks : String := ""
deriving DecidableEq, Inhabited, Repr

def Nfa.ofFileText (file text : String) : Except CommandError Nfa :=
  if text.toList.all Text.isBlank then .error (.emptySnapshot file)
  else (Nfa.ofDocument text).mapError (.badSnapshot file)

def Inputs.text (inputs : Inputs) (file : String) : Except CommandError String :=
  if isStandardInput file then inputs.standardInput.mapError .unreadableInput
  else match inputs.file file with
    | .ok (.text s) => .ok s
    | .ok .standardInput => inputs.standardInput.mapError (.unreadable file)
    | .error failure => .error (.unreadable file failure)

def Inputs.nfa (inputs : Inputs) (file : String) : Except CommandError Nfa := do
  Nfa.ofFileText file (← inputs.text file)

def Dfa.documentIn (d : Dfa) : Format → String
  | .nfa => d.toNfa.document
  | .dfa => d.document

def Nfa.traceLine (n : Nfa) (s : StateSet) : String :=
  "\x7b" ++ ", ".intercalate (s.toList.map n.label) ++ "\x7d\n"

def Nfa.runLines (n : Nfa) (word : List Char) (trace : Bool) : String :=
  let events := (PausedRun.start n word).events
  let lines := events.map fun
    | .active s => if trace then n.traceLine s else ""
    | .finished true => "accepted\n"
    | .finished false => "rejected\n"
  String.join lines

def Nfa.comparison (l r : Nfa) : String :=
  match l.distinguishingWord r with
  | none => "equivalent\n"
  | some word =>
    "not equivalent: " ++ Text.quoted (String.ofList word) ++ " is accepted by only one of them\n"

def Gnfa.statesOf (g : Gnfa) (labels : List String) : Except CommandError (List Nat) :=
  labels.mapM fun label =>
    match g.labels.id? label with
    | some q => .ok q
    | none => .error (.unknownState label)

def Command.perform (inputs : Inputs) : Command → Except CommandError Output
  | compile text format => do
    let n := (← (Regex.parse text).mapError (.badRegex text)).toNfa
    return ⟨(match format with | .nfa => n.document | .dfa => n.determinize.document) ++ "\n", ""⟩
  | run file word trace => do
    return ⟨(← inputs.nfa file).runLines word.toList trace, ""⟩
  | determinize file format => do
    return ⟨(← inputs.nfa file).determinize.documentIn format ++ "\n", ""⟩
  | minimize file format => do
    return ⟨(← inputs.nfa file).minimize.documentIn format ++ "\n", ""⟩
  | relabel file => do
    let (n, mapping) := (← inputs.nfa file).renumber
    return ⟨n.document ++ "\n",
      String.join (mapping.map fun (old, new) => old ++ " -> " ++ new ++ "\n")⟩
  | prune file restore => do
    let n ← inputs.nfa file
    return ⟨(if restore then n.complete else n.prune).document ++ "\n", ""⟩
  | equivalent left right => do
    let l ← inputs.nfa left
    let r ← (inputs.afterReading left).nfa right
    return ⟨l.comparison r, ""⟩
  | toRegex file order => do
    let g := Gnfa.ofNfa (← inputs.nfa file)
    let order ← g.statesOf order
    let r ← (g.toRegex order).mapError .elimination
    return ⟨r.text ++ "\n", ""⟩

structure Report where
  exitCode : Nat
  output : String
  errors : String
deriving DecidableEq, Inhabited, Repr

/-- The report on a command. Remarks on the log filter come before those of the command. -/
def Command.report (inputs : Inputs) (c : Command) : Report :=
  let remarks := LogFilter.remarks inputs.logFilter
  match c.perform inputs with
  | .ok out => ⟨0, out.result, remarks ++ out.remarks⟩
  | .error e => ⟨1, "", remarks ++ "Error: " ++ e.message ++ "\n"⟩

def usage : String :=
  "Usage: formlang [-v] <command>\n\n" ++
  "Commands:\n" ++
  "  compile <regex> [-f nfa|dfa]\n" ++
  "  run <file> <word> [-t]\n" ++
  "  determinize <file> [-f nfa|dfa]\n" ++
  "  minimize <file> [-f nfa|dfa]\n" ++
  "  relabel <file>\n" ++
  "  prune <file> [-r]\n" ++
  "  equivalent <file> <file>\n" ++
  "  to-regex <file> [-o <label>,...]\n"

def report (inputs : Inputs) (words : List String) : Report :=
  match Command.ofWords words with
  | .ok c => c.report inputs
  | .error .help => ⟨0, usage, ""⟩
  | .error .version => ⟨0, "formlang 0.1.0\n", ""⟩
  | .error .usage => ⟨2, "", usage⟩

end RegularLanguages
