import RegularLanguages.Proofs.Nfa.Composition
import RegularLanguages.Proofs.Regex.Printing

/-!
# What expressions inherit from their parts

A property that sequences, unions and stars have if their parts have it is kept by the functions
that build an expression and drop units on the way (`Regex.Inherited.kept`), and it holds of every
tree that is read from a text if it holds of the characters (`Regex.Inherited.of_parse`). Two such
properties are that no sequence begins with the empty word, and that all letters are of some kind.
-/

namespace RegularLanguages

namespace Regex

/-- Whether expressions have a property if their parts have it. A sequence need not have it if it
begins with the empty word. -/
structure Inherited (P : Regex → Prop) : Prop where
  emptySet : P emptySet
  emptyWord : P emptyWord
  concat : ∀ {l r : Regex}, l ≠ .emptyWord → P l → P r → P (concat l r)
  union : ∀ {l r : Regex}, P l → P r → P (union l r)
  star : ∀ {e : Regex}, P e → P (star e)

/-- Whether the functions that drop units on the way keep a property. -/
structure Kept (P : Regex → Prop) : Prop where
  emptySet : P emptySet
  emptyWord : P emptyWord
  plus : ∀ {l r : Regex}, P l → P r → P (l.plus r)
  times : ∀ {l r : Regex}, P l → P r → P (l.times r)
  iterate : ∀ {e : Regex}, P e → P e.iterate

variable {P : Regex → Prop} {e l r : Regex}

namespace Inherited

theorem plus (hP : Inherited P) (hl : P l) (hr : P r) : P (l.plus r) := by
  unfold Regex.plus
  split_ifs
  · exact hr
  · exact hl
  · exact hl
  · exact hP.union hl hr

theorem times (hP : Inherited P) (hl : P l) (hr : P r) : P (l.times r) := by
  unfold Regex.times
  split_ifs with _ hunit
  · exact hP.emptySet
  · exact hr
  · exact hl
  · exact hP.concat hunit hl hr

theorem iterate (hP : Inherited P) (he : P e) : P e.iterate := by
  cases e with
  | emptySet | emptyWord => exact hP.emptyWord
  | star e => exact he
  | char | concat | union => exact hP.star he

theorem kept (hP : Inherited P) : Kept P :=
  ⟨hP.emptySet, hP.emptyWord, hP.plus, hP.times, hP.iterate⟩

theorem of_derives (hP : Inherited P) (hchar : ∀ c, Symbol.isInput c = true → P (.char c))
    {p : Phrase} {u : List Char} (h : Derives p u e) : P e := by
  induction h with
  | emptyWord | unit | nothing => exact hP.emptyWord
  | emptySet => exact hP.emptySet
  | char hc => exact hchar _ hc
  | group _ ih | atom _ ih | factor _ ih | sequence _ ih | alternation _ ih => exact ih
  | star _ ih => exact hP.star ih
  | dropUnit _ _ _ ih => exact ih
  | concat _ hl _ ihl ihr => exact hP.concat hl ihl ihr
  | union _ _ ihl ihr => exact hP.union ihl ihr

theorem of_parse (hP : Inherited P) (hchar : ∀ c, Symbol.isInput c = true → P (.char c))
    {text : String} (h : parse text = .ok e) : P e :=
  hP.of_derives hchar (derives_of_parse h)

end Inherited

/-! ## Sequences without the empty word in front -/

/-- Whether no sequence in an expression begins with the empty word. -/
def NoLeadingUnit : Regex → Prop
  | emptySet | emptyWord | char _ => True
  | concat l r => l ≠ emptyWord ∧ l.NoLeadingUnit ∧ r.NoLeadingUnit
  | union l r => l.NoLeadingUnit ∧ r.NoLeadingUnit
  | star e => e.NoLeadingUnit

theorem inherited_noLeadingUnit : Inherited NoLeadingUnit where
  emptySet := trivial
  emptyWord := trivial
  concat := fun hunit hl hr => ⟨hunit, hl, hr⟩
  union := fun hl hr => ⟨hl, hr⟩
  star := fun he => he

/-! ## Letters -/

theorem inherited_letters (kind : Char → Prop) : Inherited fun r => ∀ c ∈ r.letters, kind c where
  emptySet := fun _ hc => absurd hc List.not_mem_nil
  emptyWord := fun _ hc => absurd hc List.not_mem_nil
  concat := fun _ hl hr c hc => (List.mem_append.1 hc).elim (hl c) (hr c)
  union := fun hl hr c hc => (List.mem_append.1 hc).elim (hl c) (hr c)
  star := fun he => he

theorem isInput_of_parse {text : String} (h : parse text = .ok e) :
    ∀ c ∈ e.letters, Symbol.isInput c = true := by
  apply (inherited_letters fun c => Symbol.isInput c = true).of_parse ?_ h
  intro c hc d hd
  rw [List.mem_singleton.1 hd]
  exact hc

theorem mem_letters_of_mem_compose {c : Char} {p q : Nat} (h : ⟨p, .char c, q⟩ ∈ e.compose.edges) :
    c ∈ e.letters := by
  induction e generalizing p q with
  | emptySet | emptyWord => exact absurd h (SortedSet.not_mem_empty _)
  | char d =>
      cases SortedSet.mem_singleton.1 h
      exact List.mem_singleton_self c
  | concat l r ihl ihr =>
      rcases Nfa.mem_edges_concat.1 h with hl | ⟨-, heq, -⟩ | ⟨p', q', -, -, hr⟩
      · exact List.mem_append_left _ (ihl hl)
      · cases heq
      · exact List.mem_append_right _ (ihr hr)
  | union l r ihl ihr =>
      rcases Nfa.mem_edges_union.1 h with ⟨-, heq, -⟩ | ⟨p', q', -, -, hl⟩ | ⟨p', q', -, -, hr⟩
      · cases heq
      · exact List.mem_append_left _ (ihl hl)
      · exact List.mem_append_right _ (ihr hr)
  | star e ih =>
      rcases Nfa.mem_edges_star.1 h with ⟨-, heq, -⟩ | ⟨p', q', -, -, he⟩
      · cases heq
      · exact ih he

theorem mem_letters_of_mem_alphabet {c : Char} (h : c ∈ e.toNfa.alphabet) : c ∈ e.letters := by
  rw [toNfa_eq_compose] at h
  obtain ⟨p, q, he⟩ := Nfa.mem_alphabet.1 h
  exact mem_letters_of_mem_compose he

end Regex

end RegularLanguages
