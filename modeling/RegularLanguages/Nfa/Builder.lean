import RegularLanguages.Nfa.Basic
import RegularLanguages.Defect

/-!
# Building nondeterministic automata by hand

An automaton is built up from one state. To name a state that does not exist yet creates all states
up to it, each labelled with its number, with primes where that label is taken.
-/

namespace RegularLanguages

namespace Nfa

def single (label : String) : Nfa := ⟨⟨[label]⟩, 0, ∅, ∅⟩

def reserve (n : Nfa) (q : Nat) : Nfa := { n with labels := n.labels.reserve q }

def addState (n : Nfa) : Nat × Nfa := (n.size, n.reserve n.size)

def addLabeledState (n : Nfa) (label : String) : Nat × Nfa :=
  ((n.labels.id? label).getD n.size, { n with labels := n.labels.intern label })

def setStart (n : Nfa) (q : Nat) : Nfa := { n.reserve q with start := q }

def addAccepting (n : Nfa) (q : Nat) : Nfa := { n.reserve q with accepting := n.accepting.insert q }

def addEdge (n : Nfa) (e : Edge) : Nfa :=
  { (n.reserve e.source).reserve e.target with edges := n.edges.insert e }

def addTransition (n : Nfa) (source : Nat) (c : Char) (target : Nat) : Except Defect Nfa :=
  if Symbol.isInput c then .ok (n.addEdge ⟨source, .char c, target⟩)
  else .error (.badSymbol (n.label source) (String.singleton c))

def addEmptyMove (n : Nfa) (source target : Nat) : Nfa := n.addEdge ⟨source, .epsilon, target⟩

end Nfa

end RegularLanguages
