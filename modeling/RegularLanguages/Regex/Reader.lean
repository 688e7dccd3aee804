import RegularLanguages.Regex.Basic

/-!
# Reading regular expressions

The text is read from left to right, with one `Group` for the whole text and one for every bracket
that is open. A group holds the alternatives that are finished, the places of its bars, and the
sequence that is being read. Bars are resolved when the group is closed, from the right, so
alternatives nest to the right; sequences nest to the left.

A star needs something before it in its group, and so does a bar. A star at the start of an
alternative takes hold of the alternative before it; the bar between them then lacks an operand
when the group is closed.
-/

namespace RegularLanguages

/-- Why a text is no regular expression. Places count characters from the start of the text. -/
inductive Regex.ReadError where
  /-- An opening bracket that is never closed. -/
  | unclosed (place : Nat)
  /-- A closing bracket that closes nothing. -/
  | unopened (place : Nat)
  /-- A star or a bar that lacks an operand. -/
  | lacksOperand (operator : Char) (place : Nat)
deriving DecidableEq, Inhabited, Repr

def Regex.ReadError.message : Regex.ReadError → String
  | unclosed p => "unbalanced parentheses: '(' at " ++ toString p ++ " is never closed"
  | unopened p => "unbalanced parentheses: ')' at " ++ toString p ++ " has no matching '('"
  | lacksOperand o p =>
    "operator '" ++ o.toString ++ "' at " ++ toString p ++ " is missing an operand"

namespace Regex

/-- Juxtaposes two expressions; the empty word on the left is dropped. -/
def juxtapose (l r : Regex) : Regex := if l = emptyWord then r else concat l r

namespace Reader

/-- A sequence of factors: the juxtaposition of all but the last, if there are others, and the
last. -/
structure Factors where
  front : Option Regex
  last : Regex

def Factors.value : Factors → Regex
  | ⟨none, last⟩ => last
  | ⟨some front, last⟩ => juxtapose front last

structure Group where
  /-- The finished alternatives, the latest first. -/
  finished : List Regex
  /-- The places of the bars, the latest first. -/
  bars : List Nat
  /-- The sequence that is being read; none at the start of an alternative. -/
  current : Option Factors

def Group.empty : Group := ⟨[], [], none⟩

def Group.factor (g : Group) (r : Regex) : Group :=
  match g.current with
  | none => { g with current := some ⟨none, r⟩ }
  | some s => { g with current := some ⟨some s.value, r⟩ }

/-- Reads a star, which takes the last factor, or the alternative before where none has begun. -/
def Group.star (g : Group) (place : Nat) : Except Regex.ReadError Group :=
  match g.current, g.finished with
  | some s, _ => .ok { g with current := some { s with last := .star s.last } }
  | none, r :: rest => .ok { g with finished := rest, current := some ⟨none, .star r⟩ }
  | none, [] => .error (.lacksOperand '*' place)

def Group.bar (g : Group) (place : Nat) : Except Regex.ReadError Group :=
  match g.current, g.finished with
  | some s, rest => .ok ⟨s.value :: rest, place :: g.bars, none⟩
  | none, [] => .error (.lacksOperand '|' place)
  | none, rest => .ok ⟨rest, place :: g.bars, none⟩

/-- Joins alternatives at the bars between them, both given from the right. -/
def join (r : Regex) : List Regex → List Nat → Except Regex.ReadError Regex
  | _, [] => .ok r
  | [], place :: _ => .error (.lacksOperand '|' place)
  | l :: rest, _ :: bars => join (.union l r) rest bars

/-- The expression of a group that ends here. A group without anything in it denotes the empty
word. -/
def Group.close (g : Group) : Except Regex.ReadError Regex :=
  match g.current, g.finished with
  | some s, rest => join s.value rest g.bars
  | none, r :: rest => join r rest g.bars
  | none, [] => .ok .emptyWord

/-- The innermost open group, and the groups around it with the place of the bracket that opened
the next. -/
structure State where
  group : Group
  enclosing : List (Nat × Group)

def State.initial : State := ⟨.empty, []⟩

def State.read (s : State) (place : Nat) (c : Char) : Except Regex.ReadError State :=
  match c with
  | '(' => .ok ⟨.empty, (place, s.group) :: s.enclosing⟩
  | ')' => do
    let r ← s.group.close
    match s.enclosing with
    | [] => .error (.unopened place)
    | (_, outer) :: rest => .ok ⟨outer.factor r, rest⟩
  | '*' => return { s with group := ← s.group.star place }
  | '|' => return { s with group := ← s.group.bar place }
  | '∅' => .ok { s with group := s.group.factor .emptySet }
  | '~' => .ok { s with group := s.group.factor .emptyWord }
  | c => .ok { s with group := s.group.factor (.char c) }

def State.finish (s : State) : Except Regex.ReadError Regex := do
  let r ← s.group.close
  match s.enclosing with
  | [] => .ok r
  | (place, _) :: _ => .error (.unclosed place)

def State.readFrom (s : State) (place : Nat) : List Char → Except Regex.ReadError Regex
  | [] => s.finish
  | c :: cs => do (← s.read place c).readFrom (place + 1) cs

end Reader

def parse (text : String) : Except Regex.ReadError Regex :=
  Reader.State.initial.readFrom 0 text.toList

end Regex

end RegularLanguages
