import RegularLanguages.Nfa.Basic
import RegularLanguages.Regex.Algebra
import RegularLanguages.SortedMap

/-!
# Generalized automata

The edges of a generalized automaton are labelled with regular expressions. Every pair of states
has one label; pairs that no edge is stored for are labelled with the empty language. No edge
enters the start, and none leaves the accepting state, which is another state.
-/

namespace RegularLanguages

/-- A generalized automaton. States are taken out of it one by one; labels keep the numbers of
all. -/
structure Gnfa where
  labels : LabelTable
  states : StateSet
  start : Nat
  accept : Nat
  edges : SortedMap (Nat × Nat) Regex
deriving DecidableEq

namespace Gnfa

def label (g : Gnfa) (source target : Nat) : Regex := (g.edges.get? (source, target)).getD .emptySet

/-- `Path g p w q` says that edges lead from `p` to `q`, and that words of their labels join to the
word `w`. -/
inductive Path (g : Gnfa) : Nat → List Char → Nat → Prop
  | refl (q : Nat) : Path g q [] q
  | step {p q r : Nat} {u v : List Char} : (g.label p q).Matches u → Path g q v r →
      Path g p (u ++ v) r

def stateLabel (g : Gnfa) (q : Nat) : String := g.labels.display q

def interior (g : Gnfa) : List Nat := g.states.toList.filter fun q => q != g.start && q != g.accept

def isFinal (g : Gnfa) : Bool := g.interior.isEmpty

def regex? (g : Gnfa) : Option Regex := if g.isFinal then some (g.label g.start g.accept) else none

/-- Relabels a pair of states. The empty language is not stored. -/
def setLabel (edges : SortedMap (Nat × Nat) Regex) (pair : Nat × Nat) (r : Regex) :
    SortedMap (Nat × Nat) Regex :=
  if r = .emptySet then edges.erase pair else edges.set pair r

def joinEdge (edges : SortedMap (Nat × Nat) Regex) (edge : (Nat × Nat) × Regex) :
    SortedMap (Nat × Nat) Regex :=
  setLabel edges edge.1 (((edges.get? edge.1).getD .emptySet).plus edge.2)

def symbolRegex : Symbol → Regex
  | .epsilon => .emptyWord
  | .char c => .char c

/--
The generalized automaton of an automaton. A new start leads to the old one, and every accepting
state leads to a new one; parallel edges are joined.
-/
def ofNfa (n : Nfa) : Gnfa :=
  let labels := n.labels.internFresh "start"
  let start := n.size
  let accept := n.size + 1
  { labels := labels.internFresh "accept"
    states := StateSet.below (n.size + 2)
    start := start
    accept := accept
    edges :=
      (((start, n.start), Regex.emptyWord) ::
        (n.edges.toList.map (fun e => ((e.source, e.target), symbolRegex e.symbol)) ++
          n.accepting.toList.map fun q => ((q, accept), Regex.emptyWord))).foldl joinEdge ∅ }

end Gnfa

end RegularLanguages
