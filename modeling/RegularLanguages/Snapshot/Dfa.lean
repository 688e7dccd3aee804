import RegularLanguages.Dfa.Basic
import RegularLanguages.Snapshot.Nfa

/-!
# Deterministic automata and their snapshots

The first state of the table is the start. The other states stand in their own order.
-/

namespace RegularLanguages

open SnapshotFormat

namespace Dfa

def startFirst (d : Dfa) : List Nat := d.start :: (List.range d.size).filter fun q => q != d.start

def snapshot (d : Dfa) : Dfa.Snapshot :=
  let label := LabelTable.displayIn d.labels.toList.toArray
  let rows := d.moveRows
  { accepting := d.accepting.toList.map label
    table := Table.ofList <| d.startFirst.map fun q =>
      (label q,
        Table.ofList <| (rows[q]?.getD []).map fun (c, p) => (String.singleton c, label p)) }

def movesOfRow (labels : Index String) (state : String) (row : Table String) :
    Except Defect (List ((Nat × Char) × Nat)) := do
  let source ← target labels state state
  row.toList.mapM fun (key, t) => do
    match ← symbol state key with
    | .epsilon => .error (.emptyMove state)
    | .char c => return ((source, c), ← target labels state t)

def ofSnapshot (s : Dfa.Snapshot) : Except Defect Dfa := do
  match s.table.keys with
  | [] => .error .noStart
  | start :: _ =>
    let labels := LabelTable.ofList (s.table.keys ++ s.accepting)
    let index := labels.index
    let start ← target index start start
    let moves ← s.table.toList.mapM fun (state, row) => movesOfRow index state row
    return ⟨labels, start, statesOf index s.accepting, SortedMap.ofList moves.flatten, none⟩

end Dfa

end RegularLanguages
