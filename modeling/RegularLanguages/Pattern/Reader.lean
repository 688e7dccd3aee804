import RegularLanguages.Pattern.Class
import RegularLanguages.Text.Letter

/-!
# Reading patterns

Alternatives are made of sequences, and these of atoms, sets, groups and repetitions. A group may
have a name, or flags that hold inside it; flags without a group hold up to the end of the group
that they are in. The first fault from the left is reported; of groups that are never closed it is
the innermost one.
-/

namespace RegularLanguages.Pattern

namespace Read

/-! ## Counts -/

def countBound : Nat := 4294967296

/-- Reads a count with blanks around it. What is wrong with it is told, but does not end the
reading. -/
def count : Read (Except Fault Nat) := do
  modify fun r => r.skip (r.rest.takeWhile Text.isBlank).length
  let start ← here
  let digits ← charsWhile Char.isDigit
  let span ← spanFrom start
  let _ ← charsWhile Text.isBlank
  let value := Text.ofDigits 10 (digits.filterMap Text.hexValue?)
  return if digits.isEmpty then .error ⟨.noCount, span, none⟩
    else if countBound ≤ value then .error ⟨.largeCount, span, none⟩
    else .ok value

/-- Reads the least and the greatest count of a repetition up to the closing brace. The opening
brace is at the given place. -/
def bounds (start : Nat) : Read (Nat × Option Nat) := do
  let least ← count
  match ← next? with
  | none => fail .unclosedCounts (← spanFrom start)
  | some ',' =>
    advance
    match ← next? with
    | none => fail .unclosedCounts (← spanFrom start)
    | some '}' => return (← liftM least, none)
    | some _ =>
      let least ← liftM least
      let most ← liftM (← count)
      return (least, some most)
  | some _ =>
    let least ← liftM least
    return (least, some least)

def counts : Read (Nat × Option Nat) := do
  let start ← here
  advance
  if ← atEnd then fail .unclosedCounts (← spanFrom start)
  let (least, most) ← bounds start
  if (← next?) ≠ some '}' then fail .unclosedCounts (← spanFrom start)
  advance
  if (← next?) = some '?' then pass
  if most.any (· < least) then fail .badCounts (← spanFrom start)
  return (least, most)

def repetition (c : Char) : Read (Nat × Option Nat) := do
  if c = '{' then counts
  else
    pass
    if (← next?) = some '?' then pass
    return if c = '?' then (0, some 1) else if c = '*' then (0, none) else (1, none)

/-! ## Groups -/

def isNameChar (atStart : Bool) (c : Char) : Bool :=
  if atStart then c = '_' || Text.isLetter c
  else c = '_' || c = '.' || c = '[' || c = ']' || Text.isLetterOrNumber c

def nameChars (atStart : Bool) : Nat → Read (List Char)
  | 0 => return []
  | n + 1 => do
    match ← next? with
    | none | some '>' => return []
    | some c =>
      unless isNameChar atStart c do fail .badNameChar (← charSpan)
      pass
      return c :: (← nameChars false n)

def groupName : Read Unit := do
  let start ← here
  let name := String.ofList (← nameChars true (← left))
  let span ← spanFrom start
  if ← atEnd then fail .unclosedName (.empty (← here))
  pass
  if name = "" then fail .emptyName span
  if let some before := (← get).names.lookup name then fail .repeatedName span before
  modify fun r => { r with names := (name, span) :: r.names }

/-- Reads letters of flags and hyphens up to a colon or a closing bracket, in at most so many
steps. Those that were read before are given, the latest first, with `none` for a hyphen. -/
def flagLetters (before : List (Option Flag × Span)) : Nat → Read (List (Option Flag × Span))
  | 0 => return before
  | n + 1 => do
    let span ← charSpan
    match ← next? with
    | none => fail .unfinishedFlags (.empty (← here))
    | some c =>
      if c = ':' ∨ c = ')' then
        match before with
        | (none, hyphen) :: _ => fail .danglingNegation hyphen
        | _ => return before
      else
        let item := if c = '-' then none else Flag.ofLetter? c
        if c ≠ '-' ∧ item = none then fail .unknownFlag span
        if let some first := before.lookup item then
          fail (if c = '-' then .repeatedNegation else .repeatedFlag) span first
        pass
        flagLetters ((item, span) :: before) n

/-- The flags that letters switch: on before a hyphen, and off after it. -/
def switches (on : Bool) : List (Option Flag × Span) → Switches
  | [] => []
  | (none, _) :: rest => switches false rest
  | (some flag, _) :: rest => (flag, on) :: switches on rest

inductive Opening where
  /-- Flags, and nothing that is still open. -/
  | flags (s : Switches)
  | group (capturing : Bool) (s : Switches)

def opening : Read Opening := do
  let start ← here
  advance
  if ← ["?=", "?!", "?<=", "?<!"].anyM passText then fail .lookAround (← spanFrom start)
  let mark ← here
  if ← ["?P<", "?<"].anyM passText then
    groupName
    return .group true []
  else if ← passText "?" then
    if ← atEnd then fail .unclosedGroup (.one start)
    let letters ← flagLetters [] ((← left) + 1)
    let isGroup := (← next?) == some ':'
    pass
    if isGroup then return .group false (switches true letters.reverse)
    if letters.isEmpty then fail .nothingRepeated (.empty mark)
    return .flags (switches true letters.reverse)
  else return .group true []

/-! ## Sequences and alternatives -/

/-- What is known of a group that is still open, or of a whole pattern. -/
structure Body where
  /-- The finished alternatives, the latest first. -/
  finished : List Pattern := []
  start : Nat
  /-- The parts of the alternative that is being read, the latest first. -/
  items : List Pattern := []
  /-- Where this alternative begins. -/
  place : Nat

def Body.add (b : Body) (p : Pattern) : Body := { b with items := p :: b.items }

def Body.current (b : Body) (stop : Nat) : Pattern :=
  match b.items with
  | [] => .nothing ⟨b.place, stop⟩
  | [p] => p
  | ps => .sequence ⟨b.place, stop⟩ ps.reverse

def Body.bar (b : Body) (stop : Nat) : Body :=
  { finished := b.current stop :: b.finished, start := b.start, place := stop + 1 }

def Body.value (b : Body) (stop : Nat) : Pattern :=
  if b.finished.isEmpty then b.current stop
  else .branches ⟨b.start, stop⟩ (b.current stop :: b.finished).reverse

def setSpaced (s : Switches) : Read Unit :=
  modify fun r => { r with spaced := (s.lookup .spaced).getD r.spaced }

def Body.operand (b : Body) : Read (Pattern × Body) := do
  match b.items with
  | [] | .flags .. :: _ => fail .nothingRepeated (.empty (← here))
  | p :: before => return (p, { b with items := before })

def body (b : Body) : Nat → Read Pattern
  | 0 => return b.value (← here)
  | n + 1 => do
    skipBlanks
    match ← next? with
    | none | some ')' => return b.value (← here)
    | some '(' =>
      let start ← here
      match ← opening with
      | .flags s =>
        setSpaced s
        body (b.add (.flags (← spanFrom start) s)) n
      | .group capturing s =>
        let outside := (← get).spaced
        setSpaced s
        let inside ← body { start := ← here, place := ← here } n
        if ← atEnd then fail .unclosedGroup (.one start)
        pass
        modify fun r => { r with spaced := outside }
        body (b.add (.group (← spanFrom start) capturing s inside)) n
    | some '|' =>
      let stop ← here
      pass
      body (b.bar stop) n
    | some '[' => body (b.add (.chars (← charClass))) n
    | some c =>
      if c = '?' ∨ c = '*' ∨ c = '+' ∨ c = '{' then
        let (operand, b) ← b.operand
        let (least, most) ← repetition c
        body (b.add (.repeated (← spanFrom operand.span.start) least most operand)) n
      else body (b.add (.atom (← atom c))) n

end Read

def parse (text : String) : Except Fault Pattern := do
  let start : Reading := { size := text.length, rest := text.toList }
  let (p, r) ← (Read.body { start := 0, place := 0 } (start.size + 1)).run start
  unless r.rest.isEmpty do throw ⟨.unopenedGroup, .one r.place, none⟩
  if let some span := p.tooDeep? 0 then throw ⟨.tooDeep, span, none⟩
  return p

end RegularLanguages.Pattern
