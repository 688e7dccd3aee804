import RegularLanguages.Text.Extending
import RegularLanguages.Text.Unprintable

/-!
# Quoted text

Text is quoted so that every character of it can be seen: quotes, backslashes and line breaks are
written with a backslash, and characters that cannot be shown on their own by their code point.
-/

namespace RegularLanguages.Text

def codePoint (c : Char) : List Char := '\\' :: 'u' :: '\x7b' :: Nat.toDigits 16 c.toNat ++ ['\x7d']

def escape (c : Char) : List Char :=
  match c with
  | '"' => ['\\', '"']
  | '\\' => ['\\', '\\']
  | '\n' => ['\\', 'n']
  | '\r' => ['\\', 'r']
  | '\t' => ['\\', 't']
  | '\x00' => ['\\', '0']
  | c => if isExtending c || isUnprintable c then codePoint c else [c]

def quoted (s : String) : String := String.ofList ('"' :: s.toList.flatMap escape ++ ['"'])

end RegularLanguages.Text
