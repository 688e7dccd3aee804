import RegularLanguages.Proofs.Regex.Grammar
import RegularLanguages.Proofs.Regex.Language
import RegularLanguages.Regex.Printer

/-!
# Printed expressions are read again

The text of an expression is a phrase of the grammar. Its tree may be another one: sequences come
back nested to the left, alternatives to the right, and an empty word in front of a factor is gone.
The language stays (`Regex.denotes_chars`).
-/

namespace RegularLanguages.Regex

variable {u v : List Char} {a b e l r : Regex} {p : Phrase}

def letters : Regex → List Char
  | emptySet | emptyWord => []
  | char c => [c]
  | concat l r | union l r => l.letters ++ r.letters
  | star e => e.letters

/-- The kind of phrase that binds as tightly as a level says. -/
def Phrase.ofLevel : Nat → Phrase
  | 0 => alternation
  | 1 => sequence
  | _ => factor

theorem Phrase.ofLevel_of_two_le {n : Nat} (h : 2 ≤ n) : ofLevel n = factor :=
  match n, h with
  | _ + 2, _ => rfl

/-- A phrase that binds tightly can stand where a looser one can. -/
theorem Derives.loosen {m n : Nat} (h : Derives (.ofLevel n) u r) (hmn : m ≤ n) :
    Derives (.ofLevel m) u r :=
  match m, n with
  | 0, 0 | 1, 1 | _ + 2, _ + 2 => h
  | 0, 1 => sequence h
  | 0, _ + 2 => sequence (factor h)
  | 1, _ + 2 => factor h
  | 1, 0 | _ + 2, 0 | _ + 2, 1 => absurd hmn (by omega)

/-- Brackets let a phrase stand where a tighter one is asked for. -/
theorem Derives.grouped {m n : Nat} (h : Derives (.ofLevel n) u r) (hm : m ≤ 2) :
    Derives (.ofLevel m) (Regex.group (n < m) u) r := by
  unfold Regex.group
  split
  · have hfactor : Derives (.ofLevel 2) ('(' :: (u ++ [')'])) r :=
      .atom (.group (h.loosen (Nat.zero_le _)))
    exact hfactor.loosen hm
  · rename_i hlevel
    rw [decide_eq_true_eq, Nat.not_lt] at hlevel
    exact h.loosen hlevel

/-! ## Phrases up to the language of their trees -/

/-- `Denotes p u r` says that the text `u` is a phrase of the kind `p`, and that its tree has the
language of `r`. -/
def Denotes (p : Phrase) (u : List Char) (r : Regex) : Prop := ∃ t, Derives p u t ∧ SameLanguage t r

namespace Denotes

theorem congr (h : Denotes p u a) (hab : SameLanguage a b) : Denotes p u b := by
  obtain ⟨t, ht, hta⟩ := h
  exact ⟨t, ht, hta.trans hab⟩

theorem atom (h : Derives .atom u r) : Denotes .factor u r := ⟨r, .atom h, .refl r⟩

theorem star (h : Denotes .factor u e) : Denotes .factor (u ++ ['*']) (star e) := by
  obtain ⟨t, ht, hte⟩ := h
  exact ⟨_, .star ht, hte.star⟩

theorem snoc (hl : Denotes .sequence u l) (hr : Denotes .factor v r) :
    Denotes .sequence (u ++ v) (concat l r) := by
  obtain ⟨s, hs, hsl⟩ := hl
  obtain ⟨t, ht, htr⟩ := hr
  exact ⟨_, hs.juxtapose ht, (juxtapose_sameLanguage s t).trans (hsl.concat htr)⟩

theorem concat (hl : Denotes .sequence u l) (hr : Denotes .sequence v r) :
    Denotes .sequence (u ++ v) (concat l r) := by
  have hnext : ∀ {x y : List Char} {s t : Regex}, Denotes .sequence (u ++ x) (.concat l s) →
      Derives .factor y t → Denotes .sequence (u ++ (x ++ y)) (.concat l (.concat s t)) := by
    intro x y s t hs ht
    rw [← List.append_assoc]
    exact (hs.snoc ⟨t, ht, .refl t⟩).congr (concat_assoc l s t)
  obtain ⟨t, ht, htr⟩ := hr
  apply congr ?_ ((SameLanguage.refl l).concat htr)
  clear htr
  generalize hp : Phrase.sequence = p at ht
  induction ht with
  | factor hv => exact hl.snoc ⟨_, hv, .refl _⟩
  | dropUnit _ hv ih =>
    exact (hnext (ih hp) hv).congr ((SameLanguage.refl l).concat (emptyWord_concat _))
  | concat _ _ hv ih => exact hnext (ih hp) hv
  | _ => cases hp

theorem union (hl : Denotes .alternation u l) (hr : Denotes .alternation v r) :
    Denotes .alternation (u ++ '|' :: v) (union l r) := by
  obtain ⟨s, hs, hsl⟩ := hl
  apply congr ?_ (hsl.union (.refl r))
  clear hsl
  obtain ⟨t, ht, htr⟩ := hr
  generalize hp : Phrase.alternation = p at hs
  induction hs with
  | @sequence x s hx => exact ⟨_, .union hx ht, (SameLanguage.refl s).union htr⟩
  | @union x y s s' hx _ _ ih =>
      obtain ⟨t', ht', hsame⟩ := ih hp
      rw [List.append_assoc, List.cons_append]
      exact ⟨_, .union hx ht', ((SameLanguage.refl s).union hsame).trans (union_assoc s s' r).symm⟩
  | _ => cases hp

theorem loosen {m n : Nat} (h : Denotes (.ofLevel n) u r) (hmn : m ≤ n) :
    Denotes (.ofLevel m) u r := by
  obtain ⟨t, ht, htr⟩ := h
  exact ⟨t, ht.loosen hmn, htr⟩

theorem group {m : Nat} (h : Denotes (.ofLevel r.level) u r) (hm : m ≤ 2) :
    Denotes (.ofLevel m) (group (r.level < m) u) r := by
  obtain ⟨t, ht, htr⟩ := h
  exact ⟨t, ht.grouped hm, htr⟩

end Denotes

/-! ## The text of an expression -/

/-- The text of an expression is a phrase that binds as tightly as the outermost operator. -/
theorem denotes_chars (hr : ∀ c ∈ r.letters, Symbol.isInput c = true) :
    Denotes (.ofLevel r.level) r.chars r := by
  induction r with
  | emptySet => exact .atom .emptySet
  | emptyWord => exact .atom .emptyWord
  | char c => exact .atom (.char (hr c List.mem_cons_self))
  | concat l r ihl ihr =>
      have hl := ihl fun c hc => hr c (List.mem_append_left _ hc)
      have hr := ihr fun c hc => hr c (List.mem_append_right _ hc)
      exact Denotes.concat (hl.group (m := 1) (by decide)) (hr.group (m := 1) (by decide))
  | union l r ihl ihr =>
      have hl := ihl fun c hc => hr c (List.mem_append_left _ hc)
      have hr := ihr fun c hc => hr c (List.mem_append_right _ hc)
      exact Denotes.union (hl.loosen (Nat.zero_le _)) (hr.loosen (Nat.zero_le _))
  | star e ih => exact Denotes.star ((ih hr).group (m := 2) (Nat.le_refl 2))

/-- The text of an expression is read as an expression of the same language. -/
theorem parse_text_sameLanguage (r : Regex) (hr : ∀ c ∈ r.letters, Symbol.isInput c = true) :
    ∃ t, parse r.text = .ok t ∧ ∀ w, t.Matches w ↔ r.Matches w := by
  obtain ⟨t, ht, hsame⟩ := (denotes_chars hr).loosen (Nat.zero_le _)
  refine ⟨t, parse_of_derives ?_, hsame⟩
  rw [text, String.toList_ofList]
  exact .alternation ht

/-- Alternatives nested to the left, sequences nested to the right, an empty word in front and
stars in each other: the tree that comes back is another one. -/
theorem parse_text_sameLanguage_nested :
    let r : Regex := .concat (.union (.union (.char 'a') .emptySet) (.char 'b'))
      (.concat .emptyWord (.concat (.star (.star (.concat .emptyWord (.char 'a')))) (.char 'b')))
    parse r.text ≠ .ok r ∧ ∃ t, parse r.text = .ok t ∧ ∀ w, t.Matches w ↔ r.Matches w :=
  ⟨by decide +kernel, parse_text_sameLanguage _ (List.all_eq_true.1 (by decide +kernel))⟩

end RegularLanguages.Regex
