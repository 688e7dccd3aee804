import RegularLanguages.Index

/-!
# Labels of states

A table of labels names the states by their position. A label is entered once; a state past the end
of the table is shown by its number. Many labels are entered by way of a `LabelRegister`, which
finds a label that is in use without going through the table; `ofList_eq_foldl` and
`internAllFresh_eq_foldl` say that this makes no difference.
-/

namespace RegularLanguages

structure LabelTable where
  toList : List String
deriving DecidableEq, Inhabited, Repr

namespace LabelTable

def empty : LabelTable := ⟨[]⟩

def sequential (n : Nat) : LabelTable := ⟨(List.range n).map toString⟩

def size (t : LabelTable) : Nat := t.toList.length

def id? (t : LabelTable) (label : String) : Option Nat := t.toList.idxOf? label

def get? (t : LabelTable) (q : Nat) : Option String := t.toList[q]?

/-- The label of a state, or its number where there is none. -/
def display (t : LabelTable) (q : Nat) : String := (t.get? q).getD (toString q)

def uses (t : LabelTable) (label : String) : Bool := (t.id? label).isSome

/-- Enters a label at the end, unless the table has it already. -/
def intern (t : LabelTable) (label : String) : LabelTable :=
  if t.uses label then t else ⟨t.toList ++ [label]⟩

/-- Adds primes to a label as long as it is in use, at most as many as the first number says. -/
def prime (t : LabelTable) : Nat → String → String
  | 0, label => label
  | fuel + 1, label => if t.uses label then prime t fuel (label ++ "'") else label

/-- The label itself if it is not in use, else with the fewest primes that make it unused. -/
def fresh (t : LabelTable) (base : String) : String := t.prime t.size base

/-- Enters a label that is in use with primes, so that the table always grows by one. -/
def internFresh (t : LabelTable) (label : String) : LabelTable := ⟨t.toList ++ [t.fresh label]⟩

def displayIn (labels : Array String) (q : Nat) : String := labels[q]?.getD (toString q)

theorem toString_injective {a b : Nat} (h : toString a = toString b) : a = b := by
  have hdigits : Nat.toDigits 10 a = Nat.toDigits 10 b := by
    rw [← Nat.toList_repr, ← Nat.toList_repr]
    exact congrArg String.toList h
  rw [← Nat.ofDigitChars_toDigits (b := 10) (n := a) (by decide) (by decide), hdigits,
    Nat.ofDigitChars_toDigits (by decide) (by decide)]

theorem size_sequential (n : Nat) : (sequential n).size = n := by
  simp [sequential, size]

theorem nodup_sequential (n : Nat) : (sequential n).toList.Nodup :=
  List.Pairwise.map toString (fun _ _ hne heq => hne (toString_injective heq)) List.nodup_range

theorem displayIn_toArray (t : LabelTable) (q : Nat) :
    displayIn t.toList.toArray q = t.display q := by
  rw [displayIn, display, get?, List.getElem?_toArray]

def displayAll (t : LabelTable) (states : List Nat) : List String :=
  states.map (displayIn t.toList.toArray)

def index (t : LabelTable) : Index String := .ofList t.toList

theorem place?_index (t : LabelTable) (label : String) : t.index.place? label = t.id? label :=
  Index.place?_ofList t.toList label

end LabelTable

structure LabelRegister where
  /-- The labels, the latest one first. -/
  latestFirst : List String
  count : Nat
  known : KeySet String

namespace LabelRegister

def ofTable (t : LabelTable) : LabelRegister :=
  ⟨t.toList.reverse, t.size, t.toList.foldl (·.insert ·) ∅⟩

def table (r : LabelRegister) : LabelTable := ⟨r.latestFirst.reverse⟩

def enter (r : LabelRegister) (label : String) : LabelRegister :=
  ⟨label :: r.latestFirst, r.count + 1, r.known.insert label⟩

def intern (r : LabelRegister) (label : String) : LabelRegister :=
  if r.known.contains label then r else r.enter label

def prime (r : LabelRegister) : Nat → String → String
  | 0, label => label
  | fuel + 1, label => if r.known.contains label then prime r fuel (label ++ "'") else label

def internFresh (r : LabelRegister) (label : String) : LabelRegister :=
  r.enter (r.prime r.count label)

structure Describes (r : LabelRegister) (t : LabelTable) : Prop where
  table_eq : r.table = t
  count_eq : r.count = t.size
  contains_eq : ∀ label, r.known.contains label = t.uses label

private theorem uses_iff {t : LabelTable} {label : String} :
    t.uses label = true ↔ label ∈ t.toList := by
  rw [LabelTable.uses, LabelTable.id?, List.isSome_idxOf?]

private theorem contains_foldl_insert (l : List String) (s : KeySet String) (label : String) :
    (l.foldl (·.insert ·) s).contains label = true ↔ label ∈ l ∨ s.contains label = true := by
  induction l generalizing s with
  | nil => simp
  | cons x xs ih =>
    rw [List.foldl_cons, ih, KeySet.contains_insert_iff, List.mem_cons, or_left_comm, or_assoc]

theorem describes_ofTable (t : LabelTable) : (ofTable t).Describes t where
  table_eq := by rw [table, ofTable, List.reverse_reverse]
  count_eq := rfl
  contains_eq label := by
    rw [Bool.eq_iff_iff, uses_iff, ofTable, contains_foldl_insert]
    simp

theorem Describes.enter {r : LabelRegister} {t : LabelTable} (h : r.Describes t) (label : String) :
    (r.enter label).Describes ⟨t.toList ++ [label]⟩ where
  table_eq := by
    rw [← h.table_eq]
    simp [table, LabelRegister.enter]
  count_eq := by simp [LabelRegister.enter, h.count_eq, LabelTable.size]
  contains_eq other := by
    rw [Bool.eq_iff_iff, uses_iff, LabelRegister.enter, KeySet.contains_insert_iff, h.contains_eq,
      uses_iff, List.mem_append, List.mem_singleton]
    exact or_comm

theorem Describes.intern {r : LabelRegister} {t : LabelTable} (h : r.Describes t) (label : String) :
    (r.intern label).Describes (t.intern label) := by
  rw [LabelRegister.intern, LabelTable.intern, h.contains_eq]
  split
  · exact h
  · exact h.enter label

theorem Describes.prime_eq {r : LabelRegister} {t : LabelTable} (h : r.Describes t) (fuel : Nat)
    (label : String) :
    r.prime fuel label = t.prime fuel label := by
  induction fuel generalizing label with
  | zero => rfl
  | succ fuel ih => rw [LabelRegister.prime, LabelTable.prime, h.contains_eq, ih]

theorem Describes.internFresh {r : LabelRegister} {t : LabelTable} (h : r.Describes t)
    (label : String) :
    (r.internFresh label).Describes (t.internFresh label) := by
  rw [LabelRegister.internFresh, LabelTable.internFresh, LabelTable.fresh, h.prime_eq, h.count_eq]
  exact h.enter _

theorem Describes.foldl {step : LabelRegister → String → LabelRegister}
    {step' : LabelTable → String → LabelTable}
    (hstep : ∀ {r t}, Describes r t → ∀ label, (step r label).Describes (step' t label))
    {r : LabelRegister} {t : LabelTable} (h : r.Describes t) (labels : List String) :
    (labels.foldl step r).Describes (labels.foldl step' t) := by
  induction labels generalizing r t with
  | nil => exact h
  | cons label labels ih => exact ih (hstep h label)

end LabelRegister

namespace LabelTable

def ofList (labels : List String) : LabelTable :=
  (labels.foldl LabelRegister.intern (.ofTable empty)).table

theorem ofList_eq_foldl (labels : List String) : ofList labels = labels.foldl intern empty :=
  ((LabelRegister.describes_ofTable empty).foldl LabelRegister.Describes.intern labels).table_eq

/-- Enters labels, those that are in use with primes. A register is not worth its making for a
few. -/
def internAllFresh (t : LabelTable) (labels : List String) : LabelTable :=
  if labels.length ≤ 4 then labels.foldl internFresh t
  else (labels.foldl LabelRegister.internFresh (.ofTable t)).table

theorem internAllFresh_eq_foldl (t : LabelTable) (labels : List String) :
    t.internAllFresh labels = labels.foldl internFresh t := by
  unfold internAllFresh
  split
  · rfl
  · exact ((LabelRegister.describes_ofTable t).foldl LabelRegister.Describes.internFresh
      labels).table_eq

def reserve (t : LabelTable) (q : Nat) : LabelTable :=
  if q < t.size then t else t.internAllFresh ((List.range' t.size (q + 1 - t.size)).map toString)

/-- The labels of a selection of states, which are numbered anew in the order of the selection. -/
def project (t : LabelTable) (states : List Nat) : LabelTable :=
  empty.internAllFresh (t.displayAll states)

end LabelTable

end RegularLanguages
