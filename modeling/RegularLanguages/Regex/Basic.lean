/-!
# Regular expressions

The syntax tree of a regular expression over single characters, and the language that it denotes.
-/

namespace RegularLanguages

/-- A regular expression. Equality is equality of the trees, whatever languages they denote. -/
inductive Regex where
  | emptySet
  | emptyWord
  | char (c : Char)
  | concat (left right : Regex)
  | union (left right : Regex)
  | star (inner : Regex)
deriving DecidableEq, Inhabited, Repr

namespace Regex

inductive Matches : Regex → List Char → Prop
  | emptyWord : Matches emptyWord []
  | char (c : Char) : Matches (char c) [c]
  | concat {l r : Regex} {u v : List Char} : Matches l u → Matches r v →
      Matches (concat l r) (u ++ v)
  | unionLeft {l r : Regex} {w : List Char} : Matches l w → Matches (union l r) w
  | unionRight {l r : Regex} {w : List Char} : Matches r w → Matches (union l r) w
  | starNil {e : Regex} : Matches (star e) []
  | starCons {e : Regex} {u v : List Char} :
    u ≠ [] → Matches e u → Matches (star e) v → Matches (star e) (u ++ v)

end Regex

end RegularLanguages
