import RegularLanguages.Regex.Reader
import RegularLanguages.Text.Quoted

/-!
# Errors in descriptions of automata
-/

namespace RegularLanguages

/-- Why something does not describe an automaton. States are named by their labels. -/
inductive Defect where
  | noStart
  | unknownStart (state : String)
  /-- A transition leads to a state that is not declared. -/
  | unknownTarget (state target : String)
  /-- A transition is on something else than one character that may be used. -/
  | badSymbol (state symbol : String)
  /-- A deterministic automaton has an empty move. -/
  | emptyMove (state : String)
  /-- The start of a generalized automaton is its accepting state. -/
  | startAccepts
  /-- An edge enters the start of a generalized automaton. -/
  | entersStart (source : String)
  /-- An edge leaves the accepting state of a generalized automaton. -/
  | leavesAccept (target : String)
  /-- The label of an edge is no regular expression. -/
  | badLabel (source target : String) (cause : Regex.ReadError)
deriving DecidableEq, Inhabited, Repr

namespace Defect

/-- The text of an error, without that of its cause. -/
def message : Defect → String
  | noStart => "the automaton has no start state"
  | unknownStart s => "the start state " ++ s ++ " is not a declared state"
  | unknownTarget s t =>
    "state " ++ s ++ " has a transition to " ++ t ++ ", which is not a declared state"
  | badSymbol s a =>
    "state " ++ s ++ " uses " ++ Text.quoted a ++ ", which is not a single non-reserved character"
  | emptyMove s => "state " ++ s ++ " has an epsilon transition, which a DFA cannot have"
  | startAccepts => "the start and accept state of a GNFA must be distinct"
  | entersStart s => "the GNFA start state has an incoming edge from " ++ s
  | leavesAccept t => "the GNFA accept state has an outgoing edge to " ++ t
  | badLabel s t _ =>
    "the label of edge " ++ s ++ " -> " ++ t ++ " is not a valid regular expression"

def cause? : Defect → Option Regex.ReadError
  | badLabel _ _ cause => some cause
  | _ => none

end Defect

end RegularLanguages
