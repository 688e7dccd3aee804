import RegularLanguages.Json.Basic

/-!
# Writing JSON

Strings escape quotes, backslashes and control characters, and nothing else. A value is written
either without any blanks, or with every item and field on a line of its own and two blanks for
each level around it.
-/

namespace RegularLanguages.Json

def hexDigit (n : Nat) : Char := (Nat.toDigits 16 n).headD '0'

def escape (c : Char) : List Char :=
  match c with
  | '"' => ['\\', '"']
  | '\\' => ['\\', '\\']
  | '\x08' => ['\\', 'b']
  | '\x0c' => ['\\', 'f']
  | '\n' => ['\\', 'n']
  | '\r' => ['\\', 'r']
  | '\t' => ['\\', 't']
  | c =>
    if c.toNat < 32 then ['\\', 'u', '0', '0', hexDigit (c.toNat / 16), hexDigit (c.toNat % 16)]
    else [c]

def quote (s : String) : List Char := '"' :: s.toList.flatMap escape ++ ['"']

def enclose (opening closing : Char) (separator last : List Char) : List (List Char) → List Char
  | [] => [opening, closing]
  | items => opening :: separator ++ List.intercalate (',' :: separator) items ++ last ++ [closing]

def lineBreak (level : Nat) : List Char := '\n' :: List.replicate (2 * level) ' '

mutual

/-- The characters of a value. The layout is without blanks, or else begins at a level. -/
def chars (level : Option Nat) : Json → List Char
  | null => ['n', 'u', 'l', 'l']
  | bool true => ['t', 'r', 'u', 'e']
  | bool false => ['f', 'a', 'l', 's', 'e']
  | number digits => digits.toList
  | string s => quote s
  | array items =>
    enclose '[' ']' (breakFor (level.map (· + 1))) (breakFor level)
      (itemsChars (level.map (· + 1)) items)
  | object fields =>
    enclose '\x7b' '\x7d' (breakFor (level.map (· + 1))) (breakFor level)
      (fieldsChars (level.map (· + 1)) fields)
  | garbled => quote ""
where
  breakFor : Option Nat → List Char
    | none => []
    | some level => lineBreak level

def itemsChars (level : Option Nat) : List Json → List (List Char)
  | [] => []
  | item :: items => chars level item :: itemsChars level items

def fieldsChars (level : Option Nat) : List (String × Json) → List (List Char)
  | [] => []
  | (name, value) :: fields =>
    (quote name ++ (if level.isSome then [':', ' '] else [':']) ++ chars level value) ::
      fieldsChars level fields

end

def compact (j : Json) : String := String.ofList (j.chars none)

def pretty (j : Json) : String := String.ofList (j.chars (some 0))

end RegularLanguages.Json
