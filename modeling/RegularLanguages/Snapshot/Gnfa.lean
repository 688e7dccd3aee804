import RegularLanguages.Gnfa.Basic
import RegularLanguages.Regex.Printer
import RegularLanguages.Snapshot.Nfa

/-!
# Generalized automata and their snapshots

The states of a snapshot are the keys of its table, its start and its accepting state. Edges that
are labelled with the empty language are left out, and are skipped when they are read.
-/

namespace RegularLanguages

open SnapshotFormat

namespace Gnfa

def snapshot (g : Gnfa) : Gnfa.Snapshot :=
  let label := LabelTable.displayIn g.labels.toList.toArray
  let rows := rowsOf (g.edges.toList.map fun e => (e.1.1, e.1.2, e.2))
  { start := label g.start
    accept := label g.accept
    table := Table.ofList <| g.states.toList.map fun q =>
      (label q, Table.ofList <| (rows[q]?.getD []).map fun (p, r) => (label p, r.text)) }

def edgeOfEntry (labels : Index String) (start accept source : Nat) (state key text : String) :
    Except Defect (Option ((Nat × Nat) × Regex)) := do
  let target ← target labels state key
  match Regex.parse text with
  | .error cause => .error (.badLabel state key cause)
  | .ok .emptySet => return none
  | .ok r =>
    if target = start then .error (.entersStart state)
    else if source = accept then .error (.leavesAccept key)
    else return some ((source, target), r)

def edgesOfRow (labels : Index String) (start accept : Nat) (state : String) (row : Table String) :
    Except Defect (List ((Nat × Nat) × Regex)) := do
  let source ← target labels state state
  let edges ← row.toList.mapM fun (key, text) =>
      edgeOfEntry labels start accept source state key text
  return edges.filterMap id

def ofSnapshot (s : Gnfa.Snapshot) : Except Defect Gnfa := do
  let labels := LabelTable.ofList (s.table.keys ++ [s.start, s.accept])
  let index := labels.index
  let start ← target index s.start s.start
  let accept ← target index s.accept s.accept
  if start = accept then .error .startAccepts
  else
    let edges ← s.table.toList.mapM fun (state, row) => edgesOfRow index start accept state row
    return ⟨labels, StateSet.below labels.size, start, accept, SortedMap.ofList edges.flatten⟩

end Gnfa

end RegularLanguages
