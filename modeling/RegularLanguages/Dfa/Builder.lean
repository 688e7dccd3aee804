import RegularLanguages.Dfa.Basic
import RegularLanguages.Nfa.Builder

/-!
# Building deterministic automata by hand

States are created as for nondeterministic automata. A second transition from a state on a
character replaces the first.
-/

namespace RegularLanguages.Dfa

def single (label : String) : Dfa := ⟨⟨[label]⟩, 0, ∅, ∅, none⟩

def reserve (d : Dfa) (q : Nat) : Dfa := { d with labels := d.labels.reserve q }

def addState (d : Dfa) : Nat × Dfa := (d.size, d.reserve d.size)

def addLabeledState (d : Dfa) (label : String) : Nat × Dfa :=
  ((d.labels.id? label).getD d.size, { d with labels := d.labels.intern label })

def setStart (d : Dfa) (q : Nat) : Dfa := { d.reserve q with start := q }

def addAccepting (d : Dfa) (q : Nat) : Dfa := { d.reserve q with accepting := d.accepting.insert q }

def setMove (d : Dfa) (source : Nat) (c : Char) (target : Nat) : Dfa :=
  { (d.reserve source).reserve target with moves := d.moves.set (source, c) target }

def addTransition (d : Dfa) (source : Nat) (c : Char) (target : Nat) : Except Defect Dfa :=
  if Symbol.isInput c then .ok (d.setMove source c target)
  else .error (.badSymbol (d.label source) (String.singleton c))

end RegularLanguages.Dfa
