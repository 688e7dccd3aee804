import RegularLanguages.Dfa.Basic
import RegularLanguages.Search

/-!
# Determinization

The states of the deterministic automaton stand for the nonempty sets of states that words lead to.
They are numbered in the order in which a breadth-first search finds these sets, the characters
taken in order.
-/

namespace RegularLanguages

def StateSet.placesWhere {α : Type} (p : α → Bool) (l : List α) : StateSet :=
  ofList (l.zipIdx.filterMap fun (x, i) => if p x then some i else none)

/-- The moves along the edges of a search, its nodes numbered in the order of their visits. -/
def Dfa.numberedMoves {α : Type} [Key α] (visits : List (Visit α Char)) :
    SortedMap (Nat × Char) Nat :=
  let index := Index.ofList (visits.map (·.node))
  SortedMap.ofList <| (visits.mapIdx fun i v => v.edges.filterMap fun e =>
    (index.place? e.2).map fun j => ((i, e.1), j)).flatten

namespace Nfa

def subsetMoves (table : StepTable) (alphabet : List Char) (s : StateSet) :
    List (Char × StateSet) :=
  let steps := table.steps s
  alphabet.filterMap fun c =>
    let t := steps[c]?.getD ∅
    if t.isEmpty then none else some (c, t)

theorem subsetMoves_stepTable (n : Nfa) (alphabet : List Char) (s : StateSet) :
    subsetMoves n.stepTable alphabet s =
      alphabet.filterMap fun c => if (n.step s c).isEmpty then none else some (c, n.step s c) := by
  simp only [subsetMoves, StepTable.getD_steps, step_stepTable]

/-- The nonempty sets of states that words lead to, with the moves between them, as a search finds
them. -/
def activeSets (n : Nfa) : List (Visit StateSet Char) :=
  Search.explore (subsetMoves n.stepTable n.alphabet.toList) (fun _ => false)
    (Nat.pow 2 n.size) n.initial

def determinize (n : Nfa) : Dfa :=
  let visits := n.activeSets
  let sets := visits.map (·.node)
  { labels := .sequential sets.length
    start := 0
    accepting := StateSet.placesWhere n.isAccepting sets
    moves := Dfa.numberedMoves visits
    subsets := some sets }

end Nfa

end RegularLanguages
