import RegularLanguages.Pattern.Footprint
import RegularLanguages.Pattern.Reader

/-!
# Whether a pattern can be used

A pattern cannot be used if it cannot be read, if it needs what is not known of characters (their
properties and cases, and which of them make up words), if it could match a part of a character, or
if its machine would take too much room. `Pattern.trouble?` tells the first of these.
-/

namespace RegularLanguages.Pattern

abbrev Flags := List Flag

def Flags.switch (flags : Flags) (s : Switches) : Flags :=
  s.foldl (fun flags (flag, on) => if on then flag :: flags else flags.filter (· ≠ flag)) flags

def Flags.start : Flags := [.unicode]

/-! ## Sets -/

/-- The number of the last member of any set: characters, or bytes. -/
def Flags.last (flags : Flags) : Nat := if flags.contains .unicode then lastChar else 0xFF

/-- Adds the letters of the other case to a set of bytes. -/
def bothCases (s : Ranges) : Ranges :=
  let within := fun (low high : Char) => s.map fun r => (max r.1 low.toNat, min r.2 high.toNat)
  .ofList (s ++ ((within 'A' 'Z').filter fun r => r.1 ≤ r.2).map (fun r => (r.1 + 32, r.2 + 32)) ++
    ((within 'a' 'z').filter fun r => r.1 ≤ r.2).map fun r => (r.1 - 32, r.2 - 32))

/-- A set with the letters of either case if case does not matter. The cases of letters beyond
ASCII are unknown. -/
def withCases (flags : Flags) (span : Span) (s : Ranges) : Except Fault Ranges :=
  if !flags.contains .ignoreCase then .ok s
  else if !flags.contains .unicode then .ok (bothCases s)
  else if s.isEmpty then .ok s
  else .error ⟨.unknownCases, span, none⟩

/-- A set or all else. A set of bytes must not have any that are only parts of characters. -/
def negateIf (flags : Flags) (span : Span) (negated : Bool) (s : Ranges) : Except Fault Ranges :=
  let s := if negated then s.complement flags.last else s
  if !flags.contains .unicode && s.any (128 ≤ ·.2) then .error ⟨.brokenChars, span, none⟩ else .ok s

def propertyFault (flags : Flags) (span : Span) (name : String) : Fault :=
  let letters :=
    (name.toList.filter fun c => c.toNat < 128 && c != ' ' && c != '_' && c != '-').map Char.toLower
  let bare :=
    if name.toList.take 2 |>.map Char.toLower |> (· == ['i', 's']) then letters.drop 2 else letters
  let isCategory := ["cf", "sc", "lc"].contains (String.ofList bare)
  if !flags.contains .unicode then ⟨.onlyBytes, span, none⟩
  else if isCategory then ⟨.unknownPropertyValue, span, none⟩
  else ⟨.unknownProperty, span, none⟩

def numbersOf (ranges : CharRanges) : Ranges :=
  .ofList (ranges.map fun (a, b) => (charNumber a, charNumber b))

def literalNumber (flags : Flags) (l : Literal) : Except Fault Nat :=
  if flags.contains .unicode || l.char.toNat < 128 then .ok (charNumber l.char)
  else .error ⟨if l.isByte then .brokenChars else .onlyBytes, l.span, none⟩

def shorthandSet (flags : Flags) (span : Span) (ranges : CharRanges) (negated : Bool) :
    Except Fault Ranges :=
  if flags.contains .unicode then .error ⟨.unknownShorthand, span, none⟩
  else negateIf flags span negated (numbersOf ranges)

def SetOperation.apply (flags : Flags) (l r : Ranges) : SetOperation → Ranges
  | .intersection => .intersection flags.last l r
  | .difference => .difference flags.last l r
  | .symmetricDifference => .symmetricDifference flags.last l r

mutual

def ClassTree.set (flags : Flags) : ClassTree → Except Fault Ranges
  | .nothing _ => .ok []
  | .literal l => do
    let n ← literalNumber flags l
    return [(n, n)]
  | .range _ first last => do
    let a ← literalNumber flags first
    let b ← literalNumber flags last
    return [(a, b)]
  | .named span ranges negated =>
    do negateIf flags span negated (← withCases flags span (numbersOf ranges))
  | .property span name => .error (propertyFault flags span name)
  | .shorthand span ranges negated => shorthandSet flags span ranges negated
  | .bracketed span negated body =>
    do negateIf flags span negated (← withCases flags span (← body.set flags))
  | .union _ items => do return .ofList (← ClassTree.sets flags items).flatten
  | .combined _ operation l r => do
    let left ← l.set flags
    let right ← r.set flags
    let right ← withCases flags r.span right
    let left ← withCases flags l.span left
    return operation.apply flags left right

def ClassTree.sets (flags : Flags) : List ClassTree → Except Fault (List Ranges)
  | [] => .ok []
  | c :: cs => do
    let s ← c.set flags
    return s :: (← ClassTree.sets flags cs)

end

/-! ## Footprints -/

def literalFootprint (flags : Flags) (l : Literal) : Except Fault Footprint := do
  let isAscii := l.char.toNat < 128
  if !flags.contains .unicode && l.isByte && !isAscii then throw ⟨.brokenChars, l.span, none⟩
  if flags.contains .ignoreCase && (flags.contains .unicode || isAscii) then
    return .ofSet (← withCases flags l.span [(charNumber l.char, charNumber l.char)])
  else return .ofWord [l.char]

def notDot (flags : Flags) : Ranges :=
  if flags.contains .dotAll then []
  else if flags.contains .returnBreaks then [(10, 10), (13, 13)]
  else [(10, 10)]

def Atom.footprint (flags : Flags) : Atom → Except Fault Footprint
  | .literal l => literalFootprint flags l
  | .dot span =>
    if flags.contains .unicode then .ok (.ofSet ((notDot flags).complement lastChar))
    else .error ⟨.brokenChars, span, none⟩
  | .edge _ ofWord => .ok (.ofEdge (ofWord && flags.contains .unicode))
  | .property span name => .error (propertyFault flags span name)
  | .shorthand span ranges negated => return .ofSet (← shorthandSet flags span ranges negated)

abbrev Weigh := StateT Flags (Except Fault)

mutual

def footprint : Pattern → Weigh Footprint
  | .nothing _ => return .ofWord []
  | .flags _ s => do
    modify (·.switch s)
    return .ofWord []
  | .atom a => do a.footprint (← get)
  | .chars c => do return .ofSet (← c.set (← get))
  | .repeated _ least most body => do return (← footprint body).repeated least most
  | .group _ capturing s body => do
    let outside ← get
    modify (·.switch s)
    let f ← footprint body
    set outside
    return if capturing then f.captured else f
  | .branches _ items => do return .choice (← footprints items)
  | .sequence _ items => do return .sequence (← footprints items)

def footprints : List Pattern → Weigh (List Footprint)
  | [] => return []
  | p :: ps => do
    let f ← footprint p
    return f :: (← footprints ps)

end

/-! ## The verdict -/

def maxRoom : Nat := 10485760

inductive Trouble where
  | fault (f : Fault)
  | tooLarge
  /-- Edges of words are to be found among all characters, but it is not known which of them make
  up words. -/
  | unknownWords
deriving DecidableEq, Inhabited, Repr

def Trouble.message (pattern : String) : Trouble → String
  | fault f => f.notice pattern
  | tooLarge => "Compiled regex exceeds size limit of " ++ toString maxRoom ++ " bytes."
  | unknownWords => "error building NFA"

/-- Why a pattern cannot be used, if so. The machine that reads backward is made last. -/
def trouble? (pattern : String) : Option Trouble :=
  match (do (footprint (← parse pattern)).run Flags.start) with
  | .error f => some (.fault f)
  | .ok (f, _) =>
    if maxRoom < f.wholeForward then some .tooLarge
    else if f.findsWords then some .unknownWords
    else if maxRoom < f.wholeBackward then some .tooLarge
    else none

end RegularLanguages.Pattern
