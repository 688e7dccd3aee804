import RegularLanguages.Nfa.Run

/-!
# Runs step by step

A paused run yields, one at a time, the initial set of states, then a set for each character, and
at last the verdict. Afterwards it yields nothing.
-/

namespace RegularLanguages

inductive Event where
  /-- The set of states after the characters read so far. -/
  | active (states : StateSet)
  /-- The input is used up; whether the last set holds an accepting state. -/
  | finished (accepted : Bool)
deriving DecidableEq

structure PausedRun where
  nfa : Nfa
  rest : List Char
  position : Nat
  /-- The set that was yielded last. -/
  current : Option StateSet
  done : Bool

namespace PausedRun

def start (n : Nfa) (word : List Char) : PausedRun := ⟨n, word, 0, none, false⟩

def next (s : PausedRun) : Option Event × PausedRun :=
  if s.done then (none, s)
  else
    match s.current, s.rest with
    | none, _ => (some (.active s.nfa.initial), { s with current := some s.nfa.initial })
    | some states, c :: rest =>
      let states := s.nfa.step states c
      (some (.active states),
        { s with rest := rest, position := s.position + 1, current := some states })
    | some states, [] => (some (.finished (s.nfa.isAccepting states)), { s with done := true })

def take : Nat → PausedRun → List Event
  | 0, _ => []
  | k + 1, s =>
    match s.next with
    | (none, _) => []
    | (some e, s) => e :: take k s

/-- All that is still to come: at most the initial set, a set for each character and the verdict. -/
def events (s : PausedRun) : List Event := s.take (s.rest.length + 2)

def accepted (s : PausedRun) : Bool := s.events.getLast? == some (.finished true)

end PausedRun

end RegularLanguages
