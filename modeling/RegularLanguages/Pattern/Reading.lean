import RegularLanguages.Pattern.Fault
import RegularLanguages.Text.Blank

/-!
# Reading a pattern piece by piece

A reader takes characters off the front of what is left of a pattern and keeps count of them.
Blanks and comments between the pieces are skipped where the flag for it is on; a comment goes from
a number sign to the end of the line.
-/

namespace RegularLanguages.Pattern

structure Reading where
  size : Nat
  rest : List Char
  /-- How many characters have been read. -/
  place : Nat := 0
  /-- Whether blanks and comments are skipped. -/
  spaced : Bool := false
  names : List (String × Span) := []

abbrev Read := StateT Reading (Except Fault)

def Reading.skip (r : Reading) (n : Nat) : Reading :=
  { r with rest := r.rest.drop n, place := r.place + n }

/-- How many characters at the front are blanks and comments. The reader may begin inside a
comment. -/
def blanks (inComment : Bool) : List Char → Nat
  | [] => 0
  | c :: cs =>
    if inComment then blanks (c ≠ '\n') cs + 1
    else if Text.isBlank c then blanks false cs + 1
    else if c = '#' then blanks true cs + 1
    else 0

namespace Read

def fail {α : Type} (kind : FaultKind) (span : Span) (repeats : Option Span := none) : Read α :=
  throw ⟨kind, span, repeats⟩

def here : Read Nat := return (← get).place

def spanFrom (start : Nat) : Read Span := return ⟨start, ← here⟩

def left : Read Nat := return (← get).size - (← get).place

def next? : Read (Option Char) := return (← get).rest.head?

def atEnd : Read Bool := return (← get).rest.isEmpty

def pass : Read Unit := modify (·.skip 1)

def skipBlanks : Read Unit := modify fun r => if r.spaced then r.skip (blanks false r.rest) else r

def advance : Read Unit := do
  pass
  skipBlanks

def passText (s : String) : Read Bool := do
  if s.toList.isPrefixOf (← get).rest then
    modify (·.skip s.length)
    return true
  else return false

/-- Reads characters of a kind, with blanks and comments after each, but not more than so many. -/
def chars (p : Char → Bool) : Nat → Read (List Char)
  | 0 => return []
  | n + 1 => do
    match ← next? with
    | some c =>
      if p c then
        advance
        return c :: (← chars p n)
      else return []
    | none => return []

def charsWhile (p : Char → Bool) : Read (List Char) := do chars p (← left)

end Read

end RegularLanguages.Pattern
