import RegularLanguages.BitRow

/-!
# Growing sets of states

A set of states in a row of bits, which grows when a state past its end is added. States are
numbers of 32 bits, and the bit of a state stands at its number. A place is read back as a state by
its lowest 32 bits, so that states repeat in a row with bits past the last state. Only
`GrowingSet.full` makes such rows, from counts that are greater than the number of states.

The length of the row depends on how a set was made. It is no part of the set: sets with the same
members are equal, and are hashed alike.
-/

namespace RegularLanguages

structure GrowingSet (ρ : Type) where
  row : ρ

namespace GrowingSet

variable {ρ : Type} [BitRow ρ]

def withCapacity (capacity : Nat) : GrowingSet ρ := ⟨BitRow.clear capacity⟩

def full (count : Nat) : GrowingSet ρ := ⟨BitRow.fill (BitRow.clear count)⟩

def insert (s : GrowingSet ρ) (q : UInt32) : Option (Bool × GrowingSet ρ) := do
  let place := q.toNat
  let row := if BitRow.length s.row ≤ place then BitRow.grow s.row (place + 1) else s.row
  let (was, row) ← BitRow.put row place
  return (!was, ⟨row⟩)

def extend (s : GrowingSet ρ) (l : List UInt32) : Option (GrowingSet ρ) :=
  l.foldlM (fun s q => (s.insert q).map Prod.snd) s

def ofList (l : List UInt32) : Option (GrowingSet ρ) := extend (withCapacity 0) l

def singleton (q : UInt32) (capacity : Nat) : Option (GrowingSet ρ) :=
  ((withCapacity capacity).insert q).map Prod.snd

def contains (s : GrowingSet ρ) (q : UInt32) : Bool :=
  decide (q.toNat < BitRow.length s.row) && BitRow.contains s.row q.toNat

def remove (s : GrowingSet ρ) (q : UInt32) : Option (GrowingSet ρ) :=
  if q.toNat < BitRow.length s.row then (BitRow.set s.row q.toNat false).map mk else some s

def isEmpty (s : GrowingSet ρ) : Bool := BitRow.isClear s.row

def size (s : GrowingSet ρ) : Nat := BitRow.count s.row

/-- The states at the places of the set bits, in the order of the row. -/
def toList (s : GrowingSet ρ) : List UInt32 := (BitRow.ones s.row).map UInt32.ofNat

def first? (s : GrowingSet ρ) : Option UInt32 := s.toList.head?

/-- Adds the members of another set, and tells whether the set has more members now. -/
def unionWith (s t : GrowingSet ρ) : Bool × GrowingSet ρ :=
  let row :=
    if BitRow.length s.row < BitRow.length t.row then BitRow.grow s.row (BitRow.length t.row)
    else s.row
  let u : GrowingSet ρ := ⟨BitRow.union row t.row⟩
  (u.size != s.size, u)

def intersects (s t : GrowingSet ρ) : Bool := !BitRow.isDisjoint s.row t.row

def isSubset (s t : GrowingSet ρ) : Bool := s.toList.all t.contains

def inter (s t : GrowingSet ρ) : GrowingSet ρ := ⟨BitRow.inter s.row t.row⟩

def diff (s t : GrowingSet ρ) : GrowingSet ρ := ⟨BitRow.diff s.row t.row⟩

instance : BEq (GrowingSet ρ) := ⟨fun s t => s.toList == t.toList⟩

inductive HashPart where
  | state (q : UInt32)
  | size (k : Nat)
deriving DecidableEq

def hashParts (s : GrowingSet ρ) : List HashPart := s.toList.map .state ++ [.size s.size]

def text (s : GrowingSet ρ) : String := StateSet.braced (s.toList.map toString)

end GrowingSet

end RegularLanguages
