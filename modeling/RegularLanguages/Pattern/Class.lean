import RegularLanguages.Pattern.Escape

/-!
# Reading sets in brackets

Brackets hold characters, ranges, escapes, named sets and other brackets. Two ampersands, hyphens
or tildes combine all that is before them in the brackets with what comes after them, from the left
to the right.
-/

namespace RegularLanguages.Pattern

/-- The set of some items, the latest first. A set without items is at the given place. -/
def ClassTree.ofItems (place : Nat) : List ClassTree → ClassTree
  | [] => .nothing (.empty place)
  | [item] => item
  | last :: before =>
    let items := (last :: before).reverse
    .union ⟨(items.head?.elim last.span.start (·.span.start)), last.span.stop⟩ items

structure OpenClass where
  opening : Span
  negated : Bool
  /-- The set that the next one is combined with, and how. -/
  left : Option (SetOperation × ClassTree) := none
  /-- The items of the set that is being read, the latest first. -/
  items : List ClassTree
  place : Nat

def OpenClass.add (o : OpenClass) (item : ClassTree) : OpenClass :=
  { o with items := item :: o.items }

def OpenClass.value (o : OpenClass) : ClassTree :=
  let right := ClassTree.ofItems o.place o.items
  match o.left with
  | none => right
  | some (operation, left) => .combined ⟨left.span.start, right.span.stop⟩ operation left right

/-- The length of a named set at the front of a text, and the set, as an item at the given place. -/
def namedSet? (place : Nat) : List Char → Option (Nat × ClassTree)
  | '[' :: ':' :: cs =>
    let negated := cs.head? == some '^'
    let name := (if negated then cs.drop 1 else cs).takeWhile (· ≠ ':')
    let length := (if negated then 3 else 2) + name.length
    if [':', ']'].isPrefixOf (cs.drop (length - 2)) then
      (namedSets.lookup (String.ofList name)).map fun ranges =>
        (length + 2, .named ⟨place, place + length + 2⟩ ranges negated)
    else none
  | _ => none

def SetOperation.ofChars? : List Char → Option SetOperation
  | '&' :: '&' :: _ => some intersection
  | '-' :: '-' :: _ => some difference
  | '~' :: '~' :: _ => some symmetricDifference
  | _ => none

/-- The first character after the next one. Where blanks are skipped, those before it are, and one
number sign; where there are only blanks, it is the first of these. -/
def charAfterNext? (spaced : Bool) (text : List Char) : Option Char :=
  let rest := text.drop 1
  if spaced then
    let ahead := rest.dropWhile Text.isBlank
    let ahead := if ahead.head? = some '#' then (ahead.drop 1).dropWhile Text.isBlank else ahead
    ahead.head?.or rest.head?
  else rest.head?

namespace Read

def classAtom : Read Atom := do
  let span ← charSpan
  match ← next? with
  | some c =>
    if c = '\\' then escape
    else
      pass
      return .literal { span, char := c }
  | none => fail .unclosedClass span

def rangeEnd : Atom → Read Literal
  | .literal l => return l
  | a => fail .badRangeEnd a.span

def classItem (opening : Span) : Read ClassTree := do
  let first ← classAtom
  skipBlanks
  if ← atEnd then fail .unclosedClass opening
  let after := charAfterNext? (← get).spaced (← get).rest
  if (← next?) ≠ some '-' ∨ after = some ']' ∨ after = some '-' then
    match first with
    | .literal l => return .literal l
    | .property span name => return .property span name
    | .shorthand span ranges negated => return .shorthand span ranges negated
    | .dot span | .edge span _ => fail .edgeInClass span
  else
    advance
    if ← atEnd then fail .unclosedClass opening
    let second ← classAtom
    let first ← rangeEnd first
    let last ← rangeEnd second
    let span := ⟨first.span.start, last.span.stop⟩
    if last.char < first.char then fail .badRange span
    return .range span first last

def hyphens (start : Nat) : Nat → Read (List ClassTree)
  | 0 => return []
  | n + 1 => do
    if (← next?) ≠ some '-' then return []
    let item := .literal { span := ← charSpan, char := '-' }
    advance
    if ← atEnd then fail .unclosedClass (.empty start)
    return item :: (← hyphens start n)

/-- Reads an opening bracket and what belongs to it: a caret, and hyphens or a closing bracket,
which stand for themselves here. -/
def openClass : Read OpenClass := do
  let start ← here
  advance
  if ← atEnd then fail .unclosedClass (← spanFrom start)
  let negated := (← next?) == some '^'
  if negated then
    advance
    if ← atEnd then fail .unclosedClass (← spanFrom start)
  let place ← here
  let items ← hyphens start (← left)
  if items.isEmpty ∧ (← next?) = some ']' then
    let item := .literal { span := ← charSpan, char := ']' }
    advance
    if ← atEnd then fail .unclosedClass (← spanFrom start)
    return { opening := ← spanFrom start, negated, items := [item], place }
  else return { opening := ← spanFrom start, negated, items := items.reverse, place }

def closeClass (o : OpenClass) : Nat → Read ClassTree
  | 0 => fail .unclosedClass o.opening
  | n + 1 => do
    skipBlanks
    let rest := (← get).rest
    match rest with
    | [] => fail .unclosedClass o.opening
    | '[' :: _ =>
      match namedSet? (← here) rest with
      | some (length, item) =>
        modify (·.skip length)
        closeClass (o.add item) n
      | none => closeClass (o.add (← closeClass (← openClass) n)) n
    | ']' :: _ =>
      pass
      return .bracketed (← spanFrom o.opening.start) o.negated o.value
    | _ =>
      match SetOperation.ofChars? rest with
      | some operation =>
        modify (·.skip 2)
        closeClass { o with left := some (operation, o.value), items := [], place := ← here } n
      | none => closeClass (o.add (← classItem o.opening)) n

def charClass : Read ClassTree := do
  closeClass (← openClass) ((← left) + 1)

end Read

end RegularLanguages.Pattern
