import RegularLanguages.Pattern.Ranges

/-!
# Characters as bytes

A range of characters is written in bytes as a few sequences of ranges: each takes one byte of
every range in turn. Characters are numbered here without a gap for the surrogates, which are none.
-/

namespace RegularLanguages.Pattern

def lastChar : Nat := 0x10F7FF

def charNumber (c : Char) : Nat := if c.toNat < 0xE000 then c.toNat else c.toNat - 0x800

def codePoints (r : Nat × Nat) : List (Nat × Nat) :=
  [(r.1, min r.2 0xD7FF), (max r.1 0xD800 + 0x800, r.2 + 0x800)].filter
    fun (first, last) => first ≤ last

abbrev ByteRanges := List (Nat × Nat)

/-- The sequences for the numbers of a range that begin with a byte from `mark` on. The digits
after it are worth the given units, down to one, and every digit but the first is a byte from 128
on. -/
def sequencesFrom (mark : Nat) (first last : Nat) : List Nat → List ByteRanges
  | [] => [[(mark + first, mark + last)]]
  | unit :: units =>
    let begins := first / unit
    let ends := last / unit
    let within := fun (digit low high : Nat) =>
      (sequencesFrom 0x80 low high units).map ((mark + digit, mark + digit) :: ·)
    if begins = ends then within begins (first % unit) (last % unit)
    else
      let startsWhole := first % unit = 0
      let endsWhole := last % unit + 1 = unit
      let firstWhole := if startsWhole then begins else begins + 1
      let afterWhole := if endsWhole then ends + 1 else ends
      let whole :=
        (mark + firstWhole, mark + afterWhole - 1) :: (units ++ [1]).map fun _ => (0x80, 0xBF)
      (if startsWhole then [] else within begins (first % unit) (unit - 1)) ++
        (if firstWhole < afterWhole then [whole] else []) ++
        (if endsWhole then [] else within ends 0 (last % unit))

def sequencesOfCodePoints (first last : Nat) : List ByteRanges :=
  [(0, 0x7F, 0, []), (0x80, 0x7FF, 0xC0, [0x40]), (0x800, 0xFFFF, 0xE0, [0x1000, 0x40]),
    (0x10000, 0x10FFFF, 0xF0, [0x40000, 0x1000, 0x40])].flatMap fun (low, high, mark, units) =>
      if max first low ≤ min last high then sequencesFrom mark (max first low) (min last high) units
      else []

def sequencesOf (s : Ranges) : List ByteRanges :=
  (s.flatMap codePoints).flatMap fun (first, last) => sequencesOfCodePoints first last

/-- The first ranges of sequences, each with what follows it in those that begin with it. -/
def byFirst : List ByteRanges → List ((Nat × Nat) × List ByteRanges)
  | [] => []
  | [] :: rest => byFirst rest
  | (r :: rs) :: rest =>
    match byFirst rest with
    | (q, tails) :: groups =>
      if q = r then (r, rs :: tails) :: groups else (r, [rs]) :: (q, tails) :: groups
    | [] => [(r, [rs])]

/-- The sequences that can still follow after some bytes, for all that may have been read, up to a
depth. -/
def continuations : Nat → List ByteRanges → List (List ByteRanges)
  | 0, _ => []
  | depth + 1, sequences =>
    if sequences.all List.isEmpty then []
    else sequences :: (byFirst sequences).flatMap fun group => continuations depth group.2

end RegularLanguages.Pattern
