import RegularLanguages.LabelTable

/-!
# Calls on tables of labels

A table of labels is made by calls, one after another: it is empty at first, or has a number for
each of some states; the state of a label is asked for, and the label is entered if it is new; the
labels of a selection of states are taken over into a table of their own. They are taken over one
by one here, and each has to get its place in the selection as its state. Whatever else a table is
asked leaves it as it is.
-/

namespace RegularLanguages

namespace LabelTable

def findOrEnter (t : LabelTable) (label : String) : Nat × LabelTable :=
  match t.id? label with
  | some q => (q, t)
  | none => (t.size, ⟨t.toList ++ [label]⟩)

/-- Enters the label of a state in another table, with primes if it is in use there. The state that
bears it there has to be the one that is expected. -/
def takeOver (t taken : LabelTable) (q expected : Nat) : Option LabelTable :=
  let label := t.display q
  let (p, taken) := taken.findOrEnter (if taken.uses label then taken.fresh label else label)
  if p = expected then some taken else none

def takeOverAll (t : LabelTable) (states : List Nat) : Option LabelTable :=
  states.zipIdx.foldlM (fun taken x => t.takeOver taken x.1 x.2) empty

end LabelTable

inductive LabelCall where
  | empty
  | sequential (n : Nat)
  | findOrEnter (label : String)
  | project (states : List Nat)

namespace LabelCall

def perform (t : LabelTable) : LabelCall → Option LabelTable
  | empty => some .empty
  | sequential n => some (.sequential n)
  | findOrEnter label => some (t.findOrEnter label).2
  | project states => t.takeOverAll states

def made (calls : List LabelCall) : Option LabelTable := calls.foldlM perform .empty

end LabelCall

end RegularLanguages
