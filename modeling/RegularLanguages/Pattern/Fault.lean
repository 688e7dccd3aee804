import RegularLanguages.Pattern.Basic

/-!
# Faults of patterns

A fault is why a pattern cannot be used, with its place. `Fault.notice` shows the pattern with
marks below the place. The lines of a pattern of several lines are numbered; a fault that reaches
over several of them is not marked, but its lines are named.
-/

namespace RegularLanguages.Pattern

inductive FaultKind where
  | edgeInClass
  | badRange
  | badRangeEnd
  | unclosedClass
  | largeCount
  | noHexDigits
  | badHexValue
  | badHexDigit
  | unfinishedEscape
  | unknownEscape
  | danglingNegation
  | repeatedFlag
  | repeatedNegation
  | unfinishedFlags
  | unknownFlag
  | repeatedName
  | emptyName
  | badNameChar
  | unclosedName
  | unclosedGroup
  | unopenedGroup
  | tooDeep
  | badCounts
  | noCount
  | unclosedCounts
  | nothingRepeated
  | unclosedWordEdge
  | unknownWordEdge
  | wordEdgeOrCounts
  | badProperty
  | backreference
  | lookAround
  | onlyBytes
  | brokenChars
  | unknownProperty
  | unknownPropertyValue
  | unknownShorthand
  | unknownCases
deriving DecidableEq, Inhabited, Repr

def FaultKind.message : FaultKind → String
  | edgeInClass => "invalid escape sequence found in character class"
  | badRange => "invalid character class range, the start must be <= the end"
  | badRangeEnd => "invalid range boundary, must be a literal"
  | unclosedClass => "unclosed character class"
  | largeCount => "decimal literal invalid"
  | noHexDigits => "hexadecimal literal empty"
  | badHexValue => "hexadecimal literal is not a Unicode scalar value"
  | badHexDigit => "invalid hexadecimal digit"
  | unfinishedEscape => "incomplete escape sequence, reached end of pattern prematurely"
  | unknownEscape => "unrecognized escape sequence"
  | danglingNegation => "dangling flag negation operator"
  | repeatedFlag => "duplicate flag"
  | repeatedNegation => "flag negation operator repeated"
  | unfinishedFlags => "expected flag but got end of regex"
  | unknownFlag => "unrecognized flag"
  | repeatedName => "duplicate capture group name"
  | emptyName => "empty capture group name"
  | badNameChar => "invalid capture group character"
  | unclosedName => "unclosed capture group name"
  | unclosedGroup => "unclosed group"
  | unopenedGroup => "unopened group"
  | tooDeep =>
    "exceed the maximum number of nested parentheses/brackets (" ++ toString maxDepth ++ ")"
  | badCounts => "invalid repetition count range, the start must be <= the end"
  | noCount => "repetition quantifier expects a valid decimal"
  | unclosedCounts => "unclosed counted repetition"
  | nothingRepeated => "repetition operator missing expression"
  | unclosedWordEdge =>
    "special word boundary assertion is either unclosed or contains an invalid character"
  | unknownWordEdge =>
    "unrecognized special word boundary assertion, valid choices are: " ++
      "start, end, start-half or end-half"
  | wordEdgeOrCounts =>
    "found either the beginning of a special word boundary or a bounded repetition " ++
      "on a \\b with an opening brace, but no closing brace"
  | badProperty => "invalid Unicode character class"
  | backreference => "backreferences are not supported"
  | lookAround => "look-around, including look-ahead and look-behind, is not supported"
  | onlyBytes => "Unicode not allowed here"
  | brokenChars => "pattern can match invalid UTF-8"
  | unknownProperty => "Unicode property not found"
  | unknownPropertyValue => "Unicode property value not found"
  | unknownShorthand =>
    "Unicode-aware Perl class not found (make sure the unicode-perl feature is enabled)"
  | unknownCases =>
    "Unicode-aware case insensitivity matching is not available " ++
      "(make sure the unicode-case feature is enabled)"

/-- A fault with its place, and that of a part before it that it repeats. -/
structure Fault where
  kind : FaultKind
  span : Span
  repeats : Option Span := none
deriving DecidableEq, Inhabited, Repr

/-! ## Showing the place -/

/-- A place by line and column, both counted from one. -/
structure Position where
  line : Nat
  column : Nat
deriving DecidableEq, Inhabited, Repr

def Position.ofPlace (text : List Char) (place : Nat) : Position :=
  let before := text.take place
  ⟨before.count '\n' + 1, (before.reverse.takeWhile (· ≠ '\n')).length + 1⟩

/-- The lines of a text, without what ends them: a line feed, and a carriage return before it. -/
def linesOf (text : List Char) : List (List Char) :=
  match text.splitOn '\n' |>.reverse with
  | [] => []
  | last :: before =>
    let ended :=
      before.reverse.map fun line => if line.getLast? = some '\r' then line.dropLast else line
    if last = [] then ended else ended ++ [last]

def times (n : Nat) (s : String) : String := String.join (List.replicate n s)

def marks (spans : List (Position × Position)) : String :=
  (spans.foldl (fun (out, column) (start, stop) =>
    let width := max 1 (stop.column - start.column)
    (out ++ times (start.column - column) " " ++ times width "^", max column start.column + width))
      ("", 1)).1

def Fault.places (text : List Char) (f : Fault) : List (Position × Position) :=
  let spans := match f.repeats with
    | some s => if s.start ≤ f.span.start then [s, f.span] else [f.span, s]
    | none => [f.span]
  spans.map fun s => (.ofPlace text s.start, .ofPlace text s.stop)

def Fault.notice (f : Fault) (pattern : String) : String :=
  let text := pattern.toList
  let lines := linesOf text
  let (inLine, overLines) := (f.places text).partition fun (start, stop) => start.line = stop.line
  let isLong := text.contains '\n'
  let width := (toString (lines.length + if text.getLast? = some '\n' then 1 else 0)).length
  let head := fun (n : Nat) =>
    if isLong then times (width - (toString n).length) " " ++ toString n ++ ": " else times 4 " "
  let shown := lines.zipIdx 1 |>.map fun (line, n) =>
    let here := inLine.filter fun (start, _) => start.line = n
    head n ++ String.ofList line ++ "\n" ++
      if here.isEmpty then "" else times (if isLong then width + 2 else 4) " " ++ marks here ++ "\n"
  let divider := if isLong then times 79 "~" ++ "\n" else ""
  let named := overLines.map fun (start, stop) =>
    "on line " ++ toString start.line ++ " (column " ++ toString start.column ++
      ") through line " ++ toString stop.line ++ " (column " ++ toString (stop.column - 1) ++ ")\n"
  "regex parse error:\n" ++ divider ++ String.join shown ++ divider ++ String.join named ++
    "error: " ++ f.kind.message

end RegularLanguages.Pattern
