import RegularLanguages.Regex.Basic

/-!
# Expressions up to the laws of units

Building an expression with `plus`, `times` and `iterate` drops the empty language and the empty
word where they change nothing. Only the root is looked at, so the result need not be small.
-/

namespace RegularLanguages.Regex

/-- The union, without an empty side and without a repetition of the same expression. -/
def plus (l r : Regex) : Regex :=
  if l = emptySet then r else if r = emptySet then l else if l = r then l else union l r

/-- The concatenation, empty if a side is, and without a side that is the empty word. -/
def times (l r : Regex) : Regex :=
  if l = emptySet ∨ r = emptySet then emptySet
  else if l = emptyWord then r else if r = emptyWord then l else concat l r

/-- The star, which is the empty word for the trivial languages and adds nothing to a star. -/
def iterate : Regex → Regex
  | emptySet | emptyWord => emptyWord
  | star e => star e
  | e => star e

@[simp] theorem plus_emptySet (r : Regex) : r.plus emptySet = r := by
  by_cases h : r = emptySet <;> simp [plus, h]

@[simp] theorem emptySet_times (r : Regex) : emptySet.times r = emptySet := by
  simp [times]

@[simp] theorem times_emptySet (r : Regex) : r.times emptySet = emptySet := by
  simp [times]

end RegularLanguages.Regex
