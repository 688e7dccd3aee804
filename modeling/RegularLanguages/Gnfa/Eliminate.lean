import RegularLanguages.Gnfa.Basic

/-!
# Elimination of states

A state is eliminated by labelling every pair of the others with what led through it. When no state
is left but the start and the accepting one, the label between them is an expression of the
language.
-/

namespace RegularLanguages

inductive EliminationError where
  | start (state : String)
  | accept (state : String)
  /-- There is no such state, or it has been eliminated already. -/
  | unknown (state : String)
deriving DecidableEq, Inhabited, Repr

def EliminationError.message : EliminationError → String
  | start s => "invalid operation: cannot eliminate the start state " ++ s
  | accept s => "invalid operation: cannot eliminate the accept state " ++ s
  | unknown s => "invalid operation: state " ++ s ++ " does not exist"

namespace Gnfa

/-- The edges that lead through a state: from each of its predecessors to each of its successors. -/
def detours (g : Gnfa) (r : Nat) : List ((Nat × Nat) × Regex) :=
  let loop := (g.label r r).iterate
  let edges := g.edges.toList
  let incoming := edges.filter fun e => e.1.2 = r && e.1.1 != r && decide (e.1.1 ∈ g.states)
  let outgoing := edges.filter fun e => e.1.1 = r && e.1.2 != r && decide (e.1.2 ∈ g.states)
  incoming.flatMap fun i => outgoing.map fun o => ((i.1.1, o.1.2), i.2.times (loop.times o.2))

def bypass (g : Gnfa) (r : Nat) : Gnfa :=
  { g with
    states := g.states.erase r
    edges := (g.detours r).foldl joinEdge
      (g.edges.filter fun pair _ => pair.1 != r && pair.2 != r) }

/-- Eliminates a state that is left and lies between the start and the accepting state. -/
def eliminate (g : Gnfa) (q : Nat) : Except EliminationError Gnfa :=
  if q = g.start then .error (.start (g.stateLabel q))
  else if q = g.accept then .error (.accept (g.stateLabel q))
  else if q ∈ g.states then .ok (g.bypass q)
  else .error (.unknown (g.stateLabel q))

def eliminateLabel (g : Gnfa) (label : String) : Except EliminationError Gnfa :=
  match g.labels.id? label with
  | some q => g.eliminate q
  | none => .error (.unknown label)

def eliminateList (g : Gnfa) : List Nat → Except EliminationError Gnfa
  | [] => .ok g
  | q :: qs => do (← g.eliminate q).eliminateList qs

def bypassInterior (g : Gnfa) : Gnfa := g.interior.foldl bypass g

/-- Eliminates the states of a list and then all others, and gives the expression that is left. -/
def toRegex (g : Gnfa) (order : List Nat) : Except EliminationError Regex := do
  let g := (← g.eliminateList order).bypassInterior
  return g.label g.start g.accept

end Gnfa

def Nfa.toRegex (n : Nfa) : Regex := (Gnfa.ofNfa n).bypassInterior.regex?.getD .emptySet

end RegularLanguages
