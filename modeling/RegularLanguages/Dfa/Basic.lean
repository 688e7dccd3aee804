import RegularLanguages.Nfa.Run
import RegularLanguages.SortedMap

/-!
# Deterministic automata

A deterministic automaton has at most one move from a state on a character. A word without a run is
rejected; there is no state for it to fall into.
-/

namespace RegularLanguages

/--
A deterministic automaton. Its states are the numbers below `labels.size`. An automaton that stands
for the runs of a nondeterministic one keeps, for each state, the set of states that it stands for.
-/
structure Dfa where
  labels : LabelTable
  start : Nat
  accepting : StateSet
  moves : SortedMap (Nat × Char) Nat
  subsets : Option (List StateSet)
deriving DecidableEq

namespace Dfa

def size (d : Dfa) : Nat := d.labels.size

def alphabet (d : Dfa) : SortedSet Char := SortedSet.ofList (d.moves.keys.map (·.2))

def label (d : Dfa) (q : Nat) : String := d.labels.display q

def subset? (d : Dfa) (q : Nat) : Option StateSet := do (← d.subsets)[q]?

def step (d : Dfa) (q : Nat) (c : Char) : Option Nat := d.moves.get? (q, c)

def moveRows (d : Dfa) : Array (List (Char × Nat)) :=
  rowsOf (d.moves.toList.map fun e => (e.1.1, e.1.2, e.2))

def rowStep (rows : Array (List (Char × Nat))) (q : Nat) (c : Char) : Option Nat :=
  (rows[q]?.getD []).lookup c

theorem rowStep_moveRows (d : Dfa) (q : Nat) (c : Char) : rowStep d.moveRows q c = d.step q c := by
  rw [rowStep, moveRows, getD_rowsOf, step, SortedMap.get?]
  induction d.moves.toList with
  | nil => rfl
  | cons e es ih =>
    rw [List.map_cons, List.filterMap_cons, SortedMap.find?]
    by_cases hq : e.1.1 = q
    · rw [if_pos hq]
      by_cases hc : e.1.2 = c
      · rw [if_pos (Prod.ext hq hc), List.lookup_cons, hc]
        simp
      · rw [if_neg fun h => hc (congrArg Prod.snd h), ← ih, List.lookup_cons,
          beq_eq_false_iff_ne.2 (Ne.symm hc)]
    · rw [if_neg hq, if_neg fun h => hq (congrArg Prod.fst h)]
      exact ih

def run (d : Dfa) (q : Nat) : List Char → Option Nat
  | [] => some q
  | c :: cs => do (d.run (← d.step q c) cs)

def acceptsFrom (d : Dfa) (q : Nat) (word : List Char) : Bool :=
  match d.run q word with
  | some p => decide (p ∈ d.accepting)
  | none => false

def accepts (d : Dfa) (word : List Char) : Bool := d.acceptsFrom d.start word

def reachable (d : Dfa) : StateSet :=
  (StateSet.singleton d.start).reach (d.moves.toList.map fun e => (e.1.1, e.2))

def isEmpty (d : Dfa) : Bool := (d.reachable ∩ d.accepting).isEmpty

def edges (d : Dfa) : SortedSet Edge :=
  SortedSet.ofList (d.moves.toList.map fun e => ⟨e.1.1, .char e.1.2, e.2⟩)

def toNfa (d : Dfa) : Nfa := ⟨d.labels, d.start, d.accepting, d.edges⟩

/-- What every automaton should satisfy: all that it mentions are its states, and labels tell them
apart. -/
structure WellFormed (d : Dfa) : Prop where
  labels_nodup : d.labels.toList.Nodup
  start_lt : d.start < d.size
  accepting_lt : ∀ q ∈ d.accepting, q < d.size
  source_lt : ∀ e ∈ d.moves.toList, e.1.1 < d.size
  target_lt : ∀ e ∈ d.moves.toList, e.2 < d.size
  length_subsets : ∀ subsets, d.subsets = some subsets → subsets.length = d.size

end Dfa

end RegularLanguages
