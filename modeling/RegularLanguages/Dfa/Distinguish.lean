import RegularLanguages.Dfa.Subsets

/-!
# Words that tell two automata apart

Both automata read the same word side by side; a side that has no move is out, and stays so. The
pairs of states are searched breadth first, the characters taken in order, so the first pair of
which one side accepts gives the least word that only one of the automata accepts.
-/

namespace RegularLanguages

namespace Dfa

def differs (l r : Dfa) (p : Option Nat × Option Nat) : Bool :=
  p.1.any (fun q => decide (q ∈ l.accepting)) != p.2.any (fun q => decide (q ∈ r.accepting))

/-- The pairs that the characters lead to, with the characters; none once both sides are out. -/
def pairMoves (l r : Nat → Char → Option Nat) (alphabet : List Char) (p : Option Nat × Option Nat) :
    List (Char × (Option Nat × Option Nat)) :=
  if p = (none, none) then []
  else alphabet.map fun c => (c, (p.1.bind (l · c), p.2.bind (r · c)))

/-- The least word, first by length and then by its characters, that only one of the automata
accepts. -/
def distinguishingWord (l r : Dfa) : Option (List Char) :=
  let alphabet := (l.alphabet ∪ r.alphabet).toList
  let visits :=
    Search.explore (pairMoves (rowStep l.moveRows) (rowStep r.moveRows) alphabet) (differs l r)
    ((l.size + 1) * (r.size + 1)) (some l.start, some r.start)
  (visits.find? fun v => differs l r v.node).map (·.word)

def isEquivalent (l r : Dfa) : Bool := (distinguishingWord l r).isNone

end Dfa

namespace Nfa

def distinguishingWord (l r : Nfa) : Option (List Char) :=
  l.determinize.distinguishingWord r.determinize

def isEquivalent (l r : Nfa) : Bool := (distinguishingWord l r).isNone

end Nfa

end RegularLanguages
