import RegularLanguages.Nfa.Run
import RegularLanguages.Search

/-!
# Renumbering states

`renumber` numbers the states in the order of a breadth-first search from the start and labels them
with their numbers. States that the start does not reach come last, in the order in which they
stood.
-/

namespace RegularLanguages.Nfa

def rename (n : Nfa) (labels : LabelTable) (f : Nat → Nat) : Nfa where
  labels := labels
  start := f n.start
  accepting := n.accepting.image f
  edges := n.edges.image (Edge.rename f)

/-- The states in the order of a breadth-first search from the start, the unreached ones after the
others. -/
def searchOrder (n : Nfa) : List Nat :=
  let rows := n.edgeRows
  let visits := Search.explore (fun q => rows[q]?.getD []) (fun _ => false) n.size n.start
  let reached := visits.map (·.node)
  let reachedSet := StateSet.ofList reached
  reached ++ (List.range n.size).filter fun q => !decide (q ∈ reachedSet)

/-- The automaton with its states numbered in search order, and the old label and the new one of
every state. -/
def renumber (n : Nfa) : Nfa × List (String × String) :=
  let order := n.searchOrder
  let index := Index.ofList order
  let label := LabelTable.displayIn n.labels.toList.toArray
  (n.rename (.sequential n.size) index.place, order.mapIdx fun i q => (label q, toString i))

end RegularLanguages.Nfa
