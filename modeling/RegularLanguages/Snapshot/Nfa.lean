import RegularLanguages.Nfa.Basic
import RegularLanguages.Snapshot.Format
import RegularLanguages.Defect

/-!
# Nondeterministic automata and their snapshots

The states of a snapshot are the keys of its table and its accepting states, numbered in this
order. Its start and all targets must be among them.
-/

namespace RegularLanguages

namespace SnapshotFormat

def target (labels : Index String) (state label : String) : Except Defect Nat :=
  match labels.place? label with
  | some q => .ok q
  | none => .error (.unknownTarget state label)

def symbol (state key : String) : Except Defect Symbol :=
  match Symbol.ofText? key with
  | some a => .ok a
  | none => .error (.badSymbol state key)

/-- The states with the given labels, so far as there are such. -/
def statesOf (labels : Index String) (names : List String) : StateSet :=
  StateSet.ofList (names.filterMap labels.place?)

end SnapshotFormat

open SnapshotFormat

namespace Nfa

def snapshot (n : Nfa) : Nfa.Snapshot :=
  let label := LabelTable.displayIn n.labels.toList.toArray
  let rows := n.edgeRows
  { start := some (label n.start)
    accepting := n.accepting.toList.map label
    table := Table.ofList <| (List.range n.size).map fun q =>
      let row := rows[q]?.getD []
      (label q, Table.ofList <| (rowSymbols row).toList.map fun a =>
        (a.text, (rowTargets row a).toList.map label)) }

def edgesOfRow (labels : Index String) (state : String) (row : Table (List String)) :
    Except Defect (List Edge) := do
  let source ← target labels state state
  let edges ← row.toList.mapM fun (key, targets) => do
    let a ← symbol state key
    targets.mapM fun t => do return Edge.mk source a (← target labels state t)
  return edges.flatten

def ofSnapshot (s : Nfa.Snapshot) : Except Defect Nfa := do
  match s.start with
  | none => .error .noStart
  | some start =>
    let labels := LabelTable.ofList (s.table.keys ++ s.accepting)
    let index := labels.index
    match index.place? start with
    | none => .error (.unknownStart start)
    | some start =>
      let edges ← s.table.toList.mapM fun (state, row) => edgesOfRow index state row
      return ⟨labels, start, statesOf index s.accepting, SortedSet.ofList edges.flatten⟩

end Nfa

end RegularLanguages
