import RegularLanguages.Pattern.ByteRanges

/-!
# Footprints

The footprint of a pattern is the room that the machine for it takes, which reads bytes. A second
machine reads them backward. A machine is made of states of one size; moves with one range of bytes
need no more room, a choice of moves and a choice of ways do. `Footprint` holds what has to be
known of the parts of a pattern to find the room of the whole.
-/

namespace RegularLanguages.Pattern

/-- The room of a state, in bytes. -/
def stateRoom : Nat := 32

def forkRoom (ways : Nat) : Nat := stateRoom + 4 * ways

def movesRoom (moves : Nat) : Nat := stateRoom + 8 * moves

inductive Shape where
  /-- Only a word, which may be empty. -/
  | word (w : List Char)
  /-- One character of a set, given by numbers. -/
  | char (s : Ranges)
  /-- One of some words. -/
  | words (ws : List (List Char))
  /-- Anything else. -/
  | other
deriving DecidableEq, Inhabited, Repr

/-- What has to be known of a pattern to find the room of those that it is part of. -/
structure Footprint where
  shape : Shape
  /-- The fewest bytes that a match has, if there is any match. -/
  least : Option Nat
  /-- The most bytes that a match has, if there is a bound. -/
  most : Option Nat
  /-- The room of the machine that reads forward. -/
  forward : Nat
  backward : Nat
  /-- Whether the edges of words are found among all characters. -/
  findsWords : Bool := false
deriving DecidableEq, Inhabited, Repr

namespace Footprint

def total (l : List Nat) : Nat := l.foldl (· + ·) 0

def total? (l : List (Option Nat)) : Option Nat := (l.mapM id).map total

def bytesOf (w : List Char) : List Nat :=
  w.flatMap fun c => (String.utf8EncodeChar c).map UInt8.toNat

def ofWord (w : List Char) : Footprint :=
  let n := (bytesOf w).length
  let room := stateRoom * max n 1
  { shape := .word w, least := some n, most := some n, forward := room, backward := room }

def ofEdge (findsWords : Bool) : Footprint :=
  { shape := .other, least := some 0, most := some 0, forward := stateRoom, backward := stateRoom,
    findsWords }

/-- The room for a set of characters when bytes are read forward: ends of sequences are shared. -/
def forwardRoom (s : Ranges) : Nat :=
  stateRoom + total ((continuations 4 (sequencesOf s)).eraseDups.map fun rest =>
    movesRoom (byFirst rest).length)

/-- The room for a set of characters when bytes are read backward: starts of sequences are
shared. -/
def backwardRoom (s : Ranges) : Nat :=
  let sequences := sequencesOf s
  stateRoom + forkRoom sequences.length +
    total ((continuations 4 sequences).map fun rest => stateRoom * (byFirst rest).length)

def ofSet (s : Ranges) : Footprint :=
  match s with
  | [] =>
    { shape := .char [], least := none, most := none, forward := stateRoom, backward := stateRoom }
  | (first, last) :: rest =>
    if rest = [] ∧ first = last then ofWord ((codePoints (first, last)).map fun p => Char.ofNat p.1)
    else
      let last := rest.getLast?.elim last (·.2)
      let isAscii := last < 128
      let room := stateRoom + movesRoom s.length
      { shape := .char s
        least := some 1
        most := some 4
        forward := if isAscii then room else forwardRoom s
        backward := if isAscii then room else backwardRoom s }

def captured (f : Footprint) : Footprint :=
  { f with shape := .other, forward := f.forward + 2 * stateRoom }

def joinShapes (shapes : List Shape) : Shape :=
  match shapes.mapM fun | .word w => some w | _ => none with
  | some ws => .word ws.flatten
  | none => .other

def sequence (fs : List Footprint) : Footprint :=
  match fs.filter fun f => f.shape ≠ .word [] with
  | [] => ofWord []
  | [f] => f
  | fs =>
    { shape := joinShapes (fs.map (·.shape))
      least := total? (fs.map (·.least))
      most := total? (fs.map (·.most))
      forward := total (fs.map (·.forward))
      backward := total (fs.map (·.backward))
      findsWords := fs.any (·.findsWords) }

/-- The room of the states that tell some words of bytes apart, none of which has more bytes than
given. -/
def wordsRoom : Nat → List (List Nat) → Nat
  | 0, _ => 0
  | n + 1, words =>
    match (words.filterMap List.head?).eraseDups with
    | [] => 0
    | heads =>
      let here := forkRoom (if words.contains [] then 2 else 1)
      let moves := if heads.length = 1 then stateRoom else movesRoom heads.length
      let after := heads.map fun b =>
        wordsRoom n (words.filterMap fun w => if w.head? = some b then w.tail? else none)
      here + moves + total after

def ofWords (ws : List (List Char)) : Footprint :=
  let words := ws.map bytesOf
  let lengths := words.map List.length
  let most := lengths.foldl max 0
  { shape := .words ws
    least := lengths.min?
    most := some most
    forward := stateRoom + wordsRoom most words
    backward := stateRoom + wordsRoom most (words.map List.reverse) }

def onlyChar? : Shape → Option Char
  | .word [c] => some c
  | _ => none

def set? : Shape → Option Ranges
  | .char s => some s
  | _ => none

def words? : Shape → Option (List (List Char))
  | .word (c :: w) => some [c :: w]
  | .words ws => some ws
  | _ => none

/-- The footprint of a choice between parts. A choice between characters is a set of them. -/
def choice (fs : List Footprint) : Footprint :=
  let shapes := fs.map (·.shape)
  match shapes.mapM onlyChar?, shapes.mapM set?, shapes.mapM words? with
  | some cs, _, _ => ofSet (.ofList (cs.map fun c => (charNumber c, charNumber c)))
  | none, some ss, _ => ofSet (.ofList ss.flatten)
  | none, none, some wss => ofWords wss.flatten
  | none, none, none =>
    let own := forkRoom fs.length + stateRoom
    { shape := .other
      least := (fs.mapM Footprint.least).bind List.min?
      most := (fs.mapM Footprint.most).bind List.max?
      forward := own + total (fs.map (·.forward))
      backward := own + total (fs.map (·.backward))
      findsWords := fs.any (·.findsWords) }

/-- The room for a part of the given room that is repeated, and that has a byte at least if
`consumes` holds. -/
def repeatedRoom (consumes : Bool) (least : Nat) (most : Option Nat) (room : Nat) : Nat :=
  match most with
  | none =>
    if least = 0 then if consumes then room + forkRoom 2 else room + 2 * forkRoom 2 + stateRoom
    else least * room + forkRoom 2
  | some most =>
    if least = most then least * room
    else
      let start := if least = 0 ∧ most ≠ 1 then stateRoom else 0
      start + least * room + stateRoom + (most - least) * (room + forkRoom 2)

/-- The footprint of a part that is repeated. What has no byte is not repeated more than once. -/
def repeated (least : Nat) (most : Option Nat) (f : Footprint) : Footprint :=
  let (least, most) :=
    if f.most = some 0 then (min least 1, some (min (most.getD 1) 1)) else (least, most)
  if most = some 0 then ofWord []
  else if least = 1 ∧ most = some 1 then f
  else
    let consumes := f.least.any (0 < ·)
    { shape := .other
      least := f.least.map (least * ·)
      most := f.most.bind fun n => most.map (· * n)
      forward := repeatedRoom consumes least most f.forward
      backward := repeatedRoom consumes least most f.backward
      findsWords := f.findsWords }

/-- The room of the machine that reads forward, with what leads to the start of a match and from
its end. -/
def wholeForward (f : Footprint) : Nat :=
  forkRoom 2 + stateRoom + movesRoom 1 + f.forward + 3 * stateRoom

def wholeBackward (f : Footprint) : Nat :=
  forkRoom 2 + stateRoom + movesRoom 1 + f.backward + stateRoom

end Footprint

end RegularLanguages.Pattern
