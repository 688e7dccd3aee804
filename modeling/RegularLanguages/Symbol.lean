import RegularLanguages.Key

/-!
# Symbols on the edges of automata

A symbol is the empty move or one input character. The characters that the notation of regular
expressions needs for itself are reserved: written symbols never use them.
-/

namespace RegularLanguages

/-- What an edge consumes: nothing, or one character. -/
inductive Symbol where
  | epsilon
  | char (c : Char)
deriving DecidableEq, Repr

namespace Symbol

/-- Whether a character may stand for itself in regular expressions and in snapshots. -/
def isInput (c : Char) : Bool :=
  !(c == '(' || c == ')' || c == '*' || c == '|' || c == '~' || c == '∅')

def text : Symbol → String
  | epsilon => "~"
  | char c => String.singleton c

/-- Reads the written form of a symbol: a tilde, or one character that is not reserved. -/
def ofText? (s : String) : Option Symbol :=
  match s.toList with
  | [c] => if c = '~' then some epsilon else if isInput c then some (char c) else none
  | _ => none

def char? : Symbol → Option Char
  | epsilon => none
  | char c => some c

theorem char?_eq_some_iff {a : Symbol} {c : Char} : a.char? = some c ↔ a = .char c := by
  cases a <;> simp [char?]

/-- The place of a symbol in the order: the empty move first, then the characters by code point. -/
def rank : Symbol → Nat
  | epsilon => 0
  | char c => c.toNat + 1

theorem rank_inj {a b : Symbol} (h : a.rank = b.rank) : a = b := by
  cases a <;> cases b <;> simp_all [rank, Char.toNat_inj]

instance : Key Symbol := Key.ofInjective rank rank_inj

theorem ofText?_text_epsilon : ofText? epsilon.text = some epsilon := by decide

theorem ofText?_text_char {c : Char} (h : isInput c = true) :
    ofText? (char c).text = some (char c) := by
  have hc : c ≠ '~' := by
    rintro rfl
    simp [isInput] at h
  simp [ofText?, text, hc, h]

end Symbol

end RegularLanguages
