import RegularLanguages.Json.Printer
import RegularLanguages.Json.Reader
import RegularLanguages.Snapshot.Dfa
import RegularLanguages.Snapshot.Gnfa

/-!
# Automata as documents

A document is the JSON text of a snapshot, written over several lines.
-/

namespace RegularLanguages

inductive DocumentError where
  /-- The text is not JSON, or has not the shape of a snapshot. -/
  | json
  | invalid (error : Defect)
deriving DecidableEq, Inhabited, Repr

namespace DocumentError

def message : DocumentError → String
  | json => "JSON error"
  | invalid e => e.message

def cause? : DocumentError → Option Regex.ReadError
  | json => none
  | invalid e => e.cause?

end DocumentError

def SnapshotFormat.read {α : Type} (ofJson? : Json → Option α) (text : String) :
    Except DocumentError α :=
  match (Json.parse? text).bind ofJson? with
  | some s => .ok s
  | none => .error .json

def Nfa.document (n : Nfa) : String := n.snapshot.toJson.pretty

def Nfa.ofDocument (text : String) : Except DocumentError Nfa := do
  (ofSnapshot (← SnapshotFormat.read Nfa.Snapshot.ofJson? text)).mapError .invalid

def Dfa.document (d : Dfa) : String := d.snapshot.toJson.pretty

def Dfa.ofDocument (text : String) : Except DocumentError Dfa := do
  (ofSnapshot (← SnapshotFormat.read Dfa.Snapshot.ofJson? text)).mapError .invalid

def Gnfa.document (g : Gnfa) : String := g.snapshot.toJson.pretty

def Gnfa.ofDocument (text : String) : Except DocumentError Gnfa := do
  (ofSnapshot (← SnapshotFormat.read Gnfa.Snapshot.ofJson? text)).mapError .invalid

end RegularLanguages
