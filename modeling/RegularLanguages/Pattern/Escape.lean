import RegularLanguages.Pattern.Reading
import RegularLanguages.Text.Hexadecimal

/-!
# Reading atoms

An atom is one character that stands for itself, or a backslash with what belongs to it: a
character that would mean something else without it, a letter for a control character, a set or an
edge, or hexadecimal digits.
-/

namespace RegularLanguages.Pattern.Read

def charSpan : Read Span := return .one (← here)

def hexDigits : Nat → Read (List Nat)
  | 0 => return []
  | n + 1 => do
    match ← next? with
    | none => fail .unfinishedEscape (.empty (← here))
    | some c =>
      match Text.hexValue? c with
      | none => fail .badHexDigit (← charSpan)
      | some d =>
        advance
        return d :: (← hexDigits n)

def ofHexDigits (digits : List Nat) (span : Span) : Read Char := do
  let value := Text.ofDigits 16 digits
  if value.isValidChar then return Char.ofNat value else fail .badHexValue span

def bracedHex (start : Nat) : Read Atom := do
  let brace ← here
  advance
  let digits ← charsWhile fun c => (Text.hexValue? c).isSome
  match ← next? with
  | none => fail .unfinishedEscape (← spanFrom brace)
  | some '}' =>
    let span ← spanFrom (brace + 1)
    advance
    if digits.isEmpty then fail .noHexDigits (← spanFrom brace)
    let c ← ofHexDigits (digits.filterMap Text.hexValue?) span
    return .literal { span := ← spanFrom start, char := c }
  | some _ => fail .badHexDigit (← charSpan)

def hex (start : Nat) (letter : Char) : Read Atom := do
  advance
  match ← next? with
  | none => fail .unfinishedEscape (.empty (← here))
  | some '{' => bracedHex start
  | some _ =>
    let first ← here
    let digits ← hexDigits (if letter = 'x' then 2 else if letter = 'u' then 4 else 8)
    let c ← ofHexDigits digits (← spanFrom first)
    return .literal { span := ← spanFrom start, char := c, isByte := letter = 'x' }

def property (start : Nat) : Read Atom := do
  advance
  match ← next? with
  | none => fail .unfinishedEscape (.empty (← here))
  | some '{' =>
    advance
    let name ← charsWhile (· ≠ '}')
    if ← atEnd then fail .unfinishedEscape (.empty (← here))
    pass
    return .property (← spanFrom start) (String.ofList name)
  | some c =>
    if c = '\\' then fail .badProperty (← charSpan)
    advance
    return .property (← spanFrom start) (String.singleton c)

def isEdgeNameChar (c : Char) : Bool := c.isAlpha || c == '-'

/-- Reads the name of an edge of a word in braces, unless the braces hold the counts of a
repetition. The backslash is at the given place. -/
def edgeName (start : Nat) : Read Unit := do
  if (← next?) ≠ some '{' then return
  let before ← get
  let brace ← here
  advance
  match ← next? with
  | none => fail .wordEdgeOrCounts (← spanFrom start)
  | some c =>
    if isEdgeNameChar c then
      let first ← here
      let name ← charsWhile isEdgeNameChar
      if (← next?) ≠ some '}' then fail .unclosedWordEdge (← spanFrom brace)
      let span ← spanFrom first
      pass
      unless ["start", "end", "start-half", "end-half"].contains (String.ofList name) do
        fail .unknownWordEdge span
    else set before

/-- Whether a character stands for itself after a backslash: anything in ASCII but letters, digits
and angles. -/
def isPlainEscaped (c : Char) : Bool := c.toNat < 128 && !c.isAlphanum && c != '<' && c != '>'

def controlChar? : Char → Option Char
  | 'a' => some '\x07'
  | 'f' => some '\x0C'
  | 't' => some '\t'
  | 'n' => some '\n'
  | 'r' => some '\r'
  | 'v' => some '\x0B'
  | _ => none

def escape : Read Atom := do
  let start ← here
  pass
  match ← next? with
  | none => fail .unfinishedEscape (← spanFrom start)
  | some c =>
    if c.isDigit then fail .backreference ⟨start, start + 2⟩
    if c = 'x' ∨ c = 'u' ∨ c = 'U' then hex start c
    else if c = 'p' ∨ c = 'P' then property start
    else
      pass
      let span ← spanFrom start
      if isPlainEscaped c then return .literal { span, char := c }
      if let some control := controlChar? c then return .literal { span, char := control }
      if let some ranges := (shorthandName? c).bind (namedSets.lookup ·) then
        return .shorthand span ranges c.isUpper
      match c with
      | 'A' | 'z' => return .edge span false
      | 'b' =>
        edgeName start
        return .edge (← spanFrom start) true
      | 'B' | '<' | '>' => return .edge span true
      | _ => fail .unknownEscape span

def atom (c : Char) : Read Atom := do
  if c = '\\' then escape
  else
    let span ← charSpan
    pass
    if c = '.' then return .dot span
    else if c = '^' ∨ c = '$' then return .edge span false
    else return .literal { span, char := c }

end RegularLanguages.Pattern.Read
