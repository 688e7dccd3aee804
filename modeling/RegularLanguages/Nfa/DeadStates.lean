import RegularLanguages.Nfa.Renumber

/-!
# Dead states

A dead state is one that leads to no accepting state. `prune` takes such states out, and `complete`
adds one that catches every character for which a state has no edge.
-/

namespace RegularLanguages.Nfa

def liveStates (n : Nfa) : StateSet :=
  n.accepting.reach (n.edges.toList.map fun e => (e.target, e.source))

/-- The part of the automaton on some of its states, which keep their order and their labels. -/
def restrict (n : Nfa) (keep : StateSet) : Nfa :=
  let states := keep.toList
  let kept : Nfa :=
    { n with
      accepting := n.accepting ∩ keep
      edges := n.edges.filter fun e => decide (e.source ∈ keep) && decide (e.target ∈ keep) }
  kept.rename (n.labels.project states) (Index.ofList states).place

/-- The automaton without its dead states; the start is kept even if it is one. -/
def prune (n : Nfa) : Nfa := n.restrict (n.liveStates.insert n.start)

/-- The pairs of a state and a character of the alphabet for which there is no edge. -/
def missing (n : Nfa) : List (Nat × Char) :=
  let rows := n.edgeRows
  let alphabet := n.alphabet.toList
  (List.range n.size).flatMap fun q =>
    let present := rowSymbols (rows[q]?.getD [])
    (alphabet.filter fun c => !decide (Symbol.char c ∈ present)).map fun c => (q, c)

/--
The automaton with one more state, to which every missing edge leads and which all characters keep.
An automaton that lacks no edge stays as it is.
-/
def complete (n : Nfa) : Nfa :=
  let missing := n.missing
  if missing.isEmpty then n
  else
    let sink := n.size
    let caught := missing.map fun (q, c) => ⟨q, .char c, sink⟩
    let loops := n.alphabet.toList.map fun c => ⟨sink, .char c, sink⟩
    { n with
      labels := n.labels.internFresh "trash"
      edges := SortedSet.ofList caught ∪ (n.edges ∪ SortedSet.ofList loops) }

end RegularLanguages.Nfa
