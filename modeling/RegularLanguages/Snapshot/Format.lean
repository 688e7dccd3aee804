import RegularLanguages.Json.Basic
import RegularLanguages.Table

/-!
# Snapshots

A snapshot describes an automaton by the labels of its states, and is written as JSON. Labels may
be read from integers too, and are always written as strings. A snapshot need not describe a valid
automaton.
-/

namespace RegularLanguages

/-- A snapshot of a nondeterministic automaton. A tilde in a row stands for the empty move. -/
structure Nfa.Snapshot where
  start : Option String
  accepting : List String
  /-- For each state, the targets of every symbol. -/
  table : Table (Table (List String))
deriving DecidableEq, Inhabited

/-- A snapshot of a deterministic automaton. The first state of the table is the start. -/
structure Dfa.Snapshot where
  accepting : List String
  /-- For each state, the target of every character. -/
  table : Table (Table String)
deriving DecidableEq, Inhabited

structure Gnfa.Snapshot where
  start : String
  accept : String
  /-- For each state, the text of the label to every target. -/
  table : Table (Table String)
deriving DecidableEq, Inhabited

namespace SnapshotFormat

/-! ## Writing -/

def labelsJson (labels : List String) : Json := .array (labels.map .string)

def tableJson {α : Type} (valueJson : α → Json) (table : Table (Table α)) : Json :=
  .object <| table.toList.map fun (state, row) =>
    (state, .object (row.toList.map fun (key, v) => (key, valueJson v)))

/-! ## Reading -/

/-- A label: a string, or an integer from 0 to 2⁶⁴ - 1 without sign, fraction and exponent. -/
def label? : Json → Option String
  | .string s => some s
  | .number digits =>
    if digits.toList.all Char.isDigit && digits.toNat?.any (· < 18446744073709551616) then
      some digits else none
  | _ => none

def labels? (j : Json) : Option (List String) := do (← j.array?).mapM label?

def entries? {α : Type} (value? : Json → Option α) (j : Json) : Option (Table α) := do
  return .ofList (← (← j.object?).mapM fun (key, v) => do return (key, ← value? v))

def table? {α : Type} (value? : Json → Option α) (j : Json) : Option (Table (Table α)) :=
  entries? (entries? value?) j

def orDefault {α : Type} (default : α) (value? : Json → Option α) : Option Json → Option α
  | none => some default
  | some j => value? j

def optionalLabel? : Json → Option (Option String)
  | .null => some none
  | j => (label? j).map some

end SnapshotFormat

open SnapshotFormat

def Nfa.Snapshot.toJson (s : Nfa.Snapshot) : Json :=
  .object <|
    (s.start.map fun label => ("startState", Json.string label)).toList ++
      [("acceptStates", labelsJson s.accepting), ("table", tableJson labelsJson s.table)]

/-- Reads a snapshot. Every field may be left out. -/
def Nfa.Snapshot.ofJson? (j : Json) : Option Nfa.Snapshot := do
  match ← j.record? ["startState", "acceptStates", "table"] with
  | [start, accepting, table] =>
    return ⟨← orDefault none optionalLabel? start, ← orDefault [] labels? accepting,
      ← orDefault .empty (table? labels?) table⟩
  | _ => none

def Dfa.Snapshot.toJson (s : Dfa.Snapshot) : Json :=
  .object [("acceptStates", labelsJson s.accepting), ("table", tableJson .string s.table)]

def Dfa.Snapshot.ofJson? (j : Json) : Option Dfa.Snapshot := do
  match ← j.record? ["acceptStates", "table"] with
  | [accepting, table] =>
    return ⟨← orDefault [] labels? accepting, ← orDefault .empty (table? label?) table⟩
  | _ => none

def Gnfa.Snapshot.toJson (s : Gnfa.Snapshot) : Json :=
  .object [("startState", .string s.start), ("acceptState", .string s.accept),
    ("table", tableJson .string s.table)]

def Gnfa.Snapshot.ofJson? (j : Json) : Option Gnfa.Snapshot := do
  match ← j.record? ["startState", "acceptState", "table"] with
  | [some start, some accept, table] =>
    return ⟨← label? start, ← label? accept, ← orDefault .empty (table? Json.string?) table⟩
  | _ => none

end RegularLanguages
