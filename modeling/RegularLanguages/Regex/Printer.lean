import RegularLanguages.Regex.Basic

/-!
# The text of regular expressions

A star binds tighter than juxtaposition, and juxtaposition tighter than the bar. An operand is put
in brackets only where it binds looser than its place asks for, so chains of one operator are
written without brackets.
-/

namespace RegularLanguages.Regex

def level : Regex → Nat
  | union .. => 0
  | concat .. => 1
  | star _ => 2
  | emptySet | emptyWord | char _ => 3

def group (needed : Bool) (text : List Char) : List Char :=
  if needed then '(' :: text ++ [')'] else text

def chars : Regex → List Char
  | emptySet => ['∅']
  | emptyWord => ['~']
  | char c => [c]
  | concat l r => group (l.level < 1) l.chars ++ group (r.level < 1) r.chars
  | union l r => l.chars ++ '|' :: r.chars
  | star e => group (e.level < 2) e.chars ++ ['*']

def text (r : Regex) : String := String.ofList r.chars

end RegularLanguages.Regex
