/-!
# Patterns

A pattern describes the texts of the messages that a log filter lets through. `Pattern` is a
pattern as it is written: literal characters, sets of characters, repetitions, groups, alternatives
and sequences, each with its place in the text. Nothing is matched against a pattern here; it is
only asked whether a pattern can be used.
-/

namespace RegularLanguages

/-- A part of a text, from where it starts to where it stops. Places count the characters before
them. -/
structure Span where
  start : Nat
  stop : Nat
deriving DecidableEq, Inhabited, Repr

def Span.empty (place : Nat) : Span := ⟨place, place⟩

def Span.one (place : Nat) : Span := ⟨place, place + 1⟩

namespace Pattern

inductive Flag where
  /-- Letters match those of either case. -/
  | ignoreCase
  /-- Edges of lines are found inside a text. -/
  | multiLine
  /-- A dot matches line feeds. -/
  | dotAll
  /-- Repetitions are short unless marked. -/
  | swapGreed
  /-- Sets and edges of words are those of all characters, not of bytes. -/
  | unicode
  /-- A carriage return ends a line as well. -/
  | returnBreaks
  /-- Blanks and comments between the parts of a pattern are skipped. -/
  | spaced
deriving DecidableEq, Inhabited, Repr

def Flag.ofLetter? : Char → Option Flag
  | 'i' => some ignoreCase
  | 'm' => some multiLine
  | 's' => some dotAll
  | 'U' => some swapGreed
  | 'u' => some unicode
  | 'R' => some returnBreaks
  | 'x' => some spaced
  | _ => none

abbrev Switches := List (Flag × Bool)

abbrev CharRanges := List (Char × Char)

def namedSets : List (String × CharRanges) :=
  [("alnum", [('0', '9'), ('A', 'Z'), ('a', 'z')]),
   ("alpha", [('A', 'Z'), ('a', 'z')]),
   ("ascii", [('\x00', '\x7F')]),
   ("blank", [('\t', '\t'), (' ', ' ')]),
   ("cntrl", [('\x00', '\x1F'), ('\x7F', '\x7F')]),
   ("digit", [('0', '9')]),
   ("graph", [('!', '~')]),
   ("lower", [('a', 'z')]),
   ("print", [(' ', '~')]),
   ("punct", [('!', '/'), (':', '@'), ('[', '\x60'), ('\x7B', '~')]),
   ("space", [('\t', '\r'), (' ', ' ')]),
   ("upper", [('A', 'Z')]),
   ("word", [('0', '9'), ('A', 'Z'), ('_', '_'), ('a', 'z')]),
   ("xdigit", [('0', '9'), ('A', 'F'), ('a', 'f')])]

/-- The name of the set that a letter after a backslash stands for; a capital stands for all
else. -/
def shorthandName? : Char → Option String
  | 'd' | 'D' => some "digit"
  | 's' | 'S' => some "space"
  | 'w' | 'W' => some "word"
  | _ => none

structure Literal where
  span : Span
  char : Char
  /-- Whether it is written as a byte, with two hexadecimal digits. -/
  isByte : Bool := false
deriving DecidableEq, Inhabited, Repr

inductive Atom where
  | literal (l : Literal)
  | dot (span : Span)
  /-- The edge of a text, of a line or of a word. -/
  | edge (span : Span) (ofWord : Bool)
  /-- A set of characters that is known by a property. -/
  | property (span : Span) (name : String)
  /-- A set that a letter stands for, or all else. -/
  | shorthand (span : Span) (ranges : CharRanges) (negated : Bool)
deriving DecidableEq, Inhabited, Repr

def Atom.span : Atom → Span
  | literal l => l.span
  | dot span | edge span _ | property span _ | shorthand span _ _ => span

inductive SetOperation where
  | intersection
  | difference
  | symmetricDifference
deriving DecidableEq, Inhabited, Repr

inductive ClassTree where
  | nothing (span : Span)
  | literal (l : Literal)
  | range (span : Span) (first last : Literal)
  | named (span : Span) (ranges : CharRanges) (negated : Bool)
  | property (span : Span) (name : String)
  | shorthand (span : Span) (ranges : CharRanges) (negated : Bool)
  | bracketed (span : Span) (negated : Bool) (body : ClassTree)
  | union (span : Span) (items : List ClassTree)
  | combined (span : Span) (operation : SetOperation) (left right : ClassTree)
deriving Inhabited, Repr

def ClassTree.span : ClassTree → Span
  | literal l => l.span
  | nothing span | range span _ _ | named span _ _ | property span _ | shorthand span _ _
      | bracketed span _ _
  | union span _ | combined span _ _ _ => span

end Pattern

open Pattern in
inductive Pattern where
  | nothing (span : Span)
  /-- Flags that are switched from here on. -/
  | flags (span : Span) (switches : Switches)
  | atom (a : Atom)
  | chars (c : ClassTree)
  | repeated (span : Span) (least : Nat) (most : Option Nat) (body : Pattern)
  | group (span : Span) (capturing : Bool) (switches : Switches) (body : Pattern)
  | branches (span : Span) (items : List Pattern)
  | sequence (span : Span) (items : List Pattern)
deriving Inhabited, Repr

namespace Pattern

def span : Pattern → Span
  | atom a => a.span
  | chars c => c.span
  | nothing span | flags span _ | repeated span _ _ _ | group span _ _ _ | branches span _
      | sequence span _ => span

def maxDepth : Nat := 250

mutual

def ClassTree.tooDeep? (depth : Nat) : ClassTree → Option Span
  | .bracketed span _ body => if maxDepth ≤ depth then some span else body.tooDeep? (depth + 1)
  | .union span items =>
    if maxDepth ≤ depth then some span else ClassTree.anyTooDeep? (depth + 1) items
  | .combined span _ l r =>
    if maxDepth ≤ depth then some span else (l.tooDeep? (depth + 1)).or (r.tooDeep? (depth + 1))
  | _ => none

def ClassTree.anyTooDeep? (depth : Nat) : List ClassTree → Option Span
  | [] => none
  | c :: cs => (c.tooDeep? depth).or (ClassTree.anyTooDeep? depth cs)

end

mutual

def tooDeep? (depth : Nat) : Pattern → Option Span
  | .chars c => c.tooDeep? depth
  | .repeated span _ _ body | .group span _ _ body =>
    if maxDepth ≤ depth then some span else body.tooDeep? (depth + 1)
  | .branches span items | .sequence span items =>
    if maxDepth ≤ depth then some span else anyTooDeep? (depth + 1) items
  | _ => none

def anyTooDeep? (depth : Nat) : List Pattern → Option Span
  | [] => none
  | p :: ps => (p.tooDeep? depth).or (anyTooDeep? depth ps)

end

end Pattern

end RegularLanguages
