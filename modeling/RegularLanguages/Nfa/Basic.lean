import RegularLanguages.LabelTable
import RegularLanguages.Rows
import RegularLanguages.SortedSet
import RegularLanguages.StateSet
import RegularLanguages.Symbol

/-!
# Automata with empty moves

A nondeterministic automaton is a set of labelled edges between numbered states, with a start state
and a set of accepting states. The number of states is that of their labels. Since the edges are
one sorted set, equal automata are equal structures.
-/

namespace RegularLanguages

structure Edge where
  source : Nat
  symbol : Symbol
  target : Nat
deriving DecidableEq, Repr

namespace Edge

def parts (e : Edge) : Nat × Symbol × Nat := (e.source, e.symbol, e.target)

theorem parts_inj {d e : Edge} (h : d.parts = e.parts) : d = e := by
  cases d
  cases e
  simpa [parts] using h

/-- Edges stand in the order of source, then symbol, then target. -/
instance : Key Edge := Key.ofInjective parts parts_inj

def rename (f : Nat → Nat) (e : Edge) : Edge := ⟨f e.source, e.symbol, f e.target⟩

end Edge

/-- A nondeterministic automaton with empty moves. Its states are the numbers below
`labels.size`. -/
structure Nfa where
  labels : LabelTable
  start : Nat
  accepting : StateSet
  edges : SortedSet Edge
deriving DecidableEq

namespace Nfa

def size (n : Nfa) : Nat := n.labels.size

def alphabet (n : Nfa) : SortedSet Char :=
  SortedSet.ofList (n.edges.toList.filterMap fun e => e.symbol.char?)

def label (n : Nfa) (q : Nat) : String := n.labels.display q

def edgesFrom (n : Nfa) (q : Nat) : List (Symbol × Nat) :=
  n.edges.toList.filterMap fun e => if e.source = q then some (e.symbol, e.target) else none

def edgeRows (n : Nfa) : Array (List (Symbol × Nat)) :=
  rowsOf (n.edges.toList.map fun e => (e.source, e.symbol, e.target))

theorem getD_edgeRows (n : Nfa) (q : Nat) : n.edgeRows[q]?.getD [] = n.edgesFrom q := by
  rw [edgeRows, getD_rowsOf, List.filterMap_map]
  rfl

def rowTargets (row : List (Symbol × Nat)) (a : Symbol) : StateSet :=
  StateSet.ofList (row.filterMap fun e => if e.1 = a then some e.2 else none)

/-- The symbols in a row of edges, the empty move first and then the characters in order. -/
def rowSymbols (row : List (Symbol × Nat)) : SortedSet Symbol := SortedSet.ofList (row.map (·.1))

def targets (n : Nfa) (q : Nat) (a : Symbol) : StateSet := rowTargets (n.edgesFrom q) a

def symbolsFrom (n : Nfa) (q : Nat) : SortedSet Symbol := rowSymbols (n.edgesFrom q)

/-- Whether every state has at most one edge for each character, and none for the empty move. -/
def isDeterministic (n : Nfa) : Bool :=
  let rows := n.edgeRows
  n.edges.toList.all fun e =>
    e.symbol != .epsilon && decide ((rowTargets (rows[e.source]?.getD []) e.symbol).size ≤ 1)

/-- `Path n p w q` says that edges lead from `p` to `q`, and that their characters spell the word
`w`. -/
inductive Path (n : Nfa) : Nat → List Char → Nat → Prop
  | refl (q : Nat) : Path n q [] q
  | empty {p q r : Nat} {w : List Char} : ⟨p, .epsilon, q⟩ ∈ n.edges → Path n q w r → Path n p w r
  | char {p q r : Nat} {c : Char} {w : List Char} :
    ⟨p, .char c, q⟩ ∈ n.edges → Path n q w r → Path n p (c :: w) r

/-- What every automaton should satisfy: all that it mentions are its states, and labels tell them
apart. -/
structure WellFormed (n : Nfa) : Prop where
  labels_nodup : n.labels.toList.Nodup
  start_lt : n.start < n.size
  accepting_lt : ∀ q ∈ n.accepting, q < n.size
  source_lt : ∀ e ∈ n.edges, e.source < n.size
  target_lt : ∀ e ∈ n.edges, e.target < n.size

end Nfa

end RegularLanguages
