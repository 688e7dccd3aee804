import RegularLanguages.Proofs.Regex.Inherited

/-!
# The tree that a printed expression is read as

A text does not show how sequences and alternatives are nested. The reader nests sequences to the
left and alternatives to the right, whatever the tree was that the text was printed from; if no
sequence in it begins with the empty word, it does nothing else (`parse_text`). The tree that comes
back has the text and the language of the one that was printed (`text_renest`,
`renest_sameLanguage`), so printing and reading once settles an expression: from then on it is read
as it was printed (`text_settles`).
-/

namespace RegularLanguages.Regex

variable {l r s t : Regex} {u v : List Char}

/-- An expression followed by the factors of another, which are joined to it one by one. -/
def chain (l : Regex) : Regex → Regex
  | concat a b => concat (chain l a) b
  | r => concat l r

/-- The alternatives of an expression followed by another, to which they are joined from the
right. -/
def branch : Regex → Regex → Regex
  | union a b, r => union a (branch b r)
  | l, r => union l r

/-- The expression with its sequences nested to the left and its alternatives to the right. -/
def renest : Regex → Regex
  | concat l r => chain l.renest r.renest
  | union l r => branch l.renest r.renest
  | star e => star e.renest
  | r => r

/-! ## Nesting -/

@[simp] theorem level_concat (l r : Regex) : (concat l r).level = 1 := rfl

@[simp] theorem level_union (l r : Regex) : (union l r).level = 0 := rfl

theorem chain_of_level_ne (h : r.level ≠ 1) : chain l r = concat l r := by
  cases r with
  | concat => exact absurd rfl h
  | _ => rfl

theorem branch_of_level_ne (h : l.level ≠ 0) : branch l r = union l r := by
  cases l with
  | union => exact absurd rfl h
  | _ => rfl

theorem chain_chain (l s r : Regex) : chain (chain l s) r = chain l (chain s r) := by
  induction r with
  | concat a b ih => simp [chain, ih]
  | _ => rfl

theorem branch_branch (l s r : Regex) : branch (branch l s) r = branch l (branch s r) := by
  induction l with
  | union a b _ ih => simp [branch, ih]
  | _ => rfl

@[simp] theorem level_chain (l r : Regex) : (chain l r).level = 1 := by
  cases r <;> rfl

@[simp] theorem level_branch (l r : Regex) : (branch l r).level = 0 := by
  cases l <;> rfl

@[simp] theorem level_renest (r : Regex) : r.renest.level = r.level := by
  cases r <;> simp [renest]
  rfl

theorem chain_ne_emptyWord (l r : Regex) : chain l r ≠ emptyWord := by
  cases r <;> simp [chain]

theorem chars_chain (l r : Regex) :
    (chain l r).chars = group (l.level < 1) l.chars ++ group (r.level < 1) r.chars := by
  induction r with
  | concat a b ih => simp [chain, chars, ih, group]
  | _ => rfl

theorem chars_branch (l r : Regex) : (branch l r).chars = l.chars ++ '|' :: r.chars := by
  induction l with
  | union a b _ ih => simp [branch, chars, ih]
  | _ => rfl

theorem chars_renest (r : Regex) : r.renest.chars = r.chars := by
  induction r with
  | concat l r ihl ihr => rw [renest, chars_chain, level_renest, level_renest, ihl, ihr, chars]
  | union l r ihl ihr => rw [renest, chars_branch, ihl, ihr, chars]
  | star e ih => rw [renest, chars, level_renest, ih, chars]
  | _ => rfl

/-- Another nesting is not seen in the text. -/
theorem text_renest (r : Regex) : r.renest.text = r.text := congrArg String.ofList r.chars_renest

theorem chain_sameLanguage (l r : Regex) : SameLanguage (chain l r) (concat l r) := by
  induction r with
  | concat a b ih => exact (ih.concat (.refl b)).trans (concat_assoc l a b)
  | _ => exact .refl _

theorem branch_sameLanguage (l r : Regex) : SameLanguage (branch l r) (union l r) := by
  induction l with
  | union a b _ ih => exact ((SameLanguage.refl a).union ih).trans (union_assoc a b r).symm
  | _ => exact .refl _

theorem renest_sameLanguage (r : Regex) : SameLanguage r.renest r := by
  induction r with
  | concat l r ihl ihr => exact (chain_sameLanguage _ _).trans (ihl.concat ihr)
  | union l r ihl ihr => exact (branch_sameLanguage _ _).trans (ihl.union ihr)
  | star e ih => exact ih.star
  | _ => exact .refl _

theorem renest_eq_iff (hs : s.level = 3) : r.renest = s ↔ r = s := by
  have hleaf : ∀ {r : Regex}, r.level = 3 → r.renest = r := by
    intro r hr
    cases r with
    | emptySet | emptyWord | char => rfl
    | concat | union | star => cases hr
  constructor
  · rintro rfl
    rw [level_renest] at hs
    exact (hleaf hs).symm
  · rintro rfl
    exact hleaf hs

/-! ## Reading -/

/-- `Rereads r` says that the text of `r` is a phrase with the tree `r.renest`, also after a
sequence, to which it adds factors, and before alternatives, to which it adds some in front. -/
structure Rereads (r : Regex) : Prop where
  alone : Derives (.ofLevel r.level) r.chars r.renest
  after {u : List Char} {l : Regex} : Derives .sequence u l → l ≠ emptyWord →
    Derives .sequence (u ++ group (r.level < 1) r.chars) (chain l r.renest)
  before {v : List Char} {t : Regex} : Derives .alternation v t →
    Derives .alternation (r.chars ++ '|' :: v) (branch r.renest t)

theorem Rereads.of_level_ne_one (h : Derives (.ofLevel r.level) r.chars r.renest)
    (hlevel : r.level ≠ 1)
    (hu : Derives .sequence u l) (hl : l ≠ emptyWord) :
    Derives .sequence (u ++ group (r.level < 1) r.chars) (chain l r.renest) := by
  have hfactor : Derives .factor (group (r.level < 2) r.chars) r.renest := h.grouped (Nat.le_refl 2)
  have hbrackets : (r.level < 1) = (r.level < 2) := by
    rw [eq_iff_iff]
    omega
  rw [chain_of_level_ne (by rwa [level_renest])]
  simp only [hbrackets]
  exact .concat hu hl hfactor

theorem Rereads.of_level_ne_zero (h : Derives (.ofLevel r.level) r.chars r.renest)
    (hlevel : r.level ≠ 0)
    (hv : Derives .alternation v t) :
    Derives .alternation (r.chars ++ '|' :: v) (branch r.renest t) := by
  have hsequence : Derives .sequence r.chars r.renest := h.loosen (m := 1) (by omega)
  rw [branch_of_level_ne (by rwa [level_renest])]
  exact .union hsequence hv

theorem Rereads.of_factor (h : Derives .factor r.chars r.renest) (hlevel : 2 ≤ r.level) :
    Rereads r := by
  have halone : Derives (.ofLevel r.level) r.chars r.renest := by
    rwa [Phrase.ofLevel_of_two_le hlevel]
  exact ⟨halone, of_level_ne_one halone (by omega), of_level_ne_zero halone (by omega)⟩

theorem rereads (hr : ∀ c ∈ r.letters, Symbol.isInput c = true) (hunit : r.NoLeadingUnit) :
    Rereads r := by
  induction r with
  | emptySet => exact .of_factor (.atom .emptySet) (by decide)
  | emptyWord => exact .of_factor (.atom .emptyWord) (by decide)
  | char c => exact .of_factor (.atom (.char (hr c List.mem_cons_self))) (by simp [level])
  | star e ih =>
    exact .of_factor (.star ((ih hr hunit).alone.grouped (Nat.le_refl 2))) (by simp [level])
  | concat l r ihl ihr =>
      obtain ⟨hne, hunitl, hunitr⟩ := hunit
      have hl := ihl (fun c hc => hr c (List.mem_append_left _ hc)) hunitl
      have hr := ihr (fun c hc => hr c (List.mem_append_right _ hc)) hunitr
      -- The left side is not empty, so the first factor of the right side is joined to it.
      have halone : Derives (.ofLevel (concat l r).level) (concat l r).chars (concat l r).renest :=
        hr.after (hl.alone.grouped (m := 1) (by decide)) (mt (renest_eq_iff rfl).1 hne)
      refine ⟨halone, ?_, Rereads.of_level_ne_zero halone (by simp [level])⟩
      intro u s hu hs
      have hafter := hr.after (hl.after hu hs) (chain_ne_emptyWord s l.renest)
      rw [chain_chain, List.append_assoc] at hafter
      simpa [group, level, chars, renest] using hafter
  | union l r ihl ihr =>
      have hl := ihl (fun c hc => hr c (List.mem_append_left _ hc)) hunit.1
      have hr := ihr (fun c hc => hr c (List.mem_append_right _ hc)) hunit.2
      have halone : Derives (.ofLevel (union l r).level) (union l r).chars (union l r).renest :=
        hl.before (hr.alone.loosen (Nat.zero_le _))
      refine ⟨halone, Rereads.of_level_ne_one halone (by simp [level]), ?_⟩
      intro v t hv
      have hbefore := hl.before (hr.before hv)
      rw [← branch_branch] at hbefore
      simpa [chars, renest] using hbefore

/-- A printed expression is read as the same expression in another nesting. -/
theorem parse_text (hr : ∀ c ∈ r.letters, Symbol.isInput c = true) (hunit : r.NoLeadingUnit) :
    parse r.text = .ok r.renest := by
  apply parse_of_derives
  rw [text, String.toList_ofList]
  exact .alternation ((rereads hr hunit).alone.loosen (Nat.zero_le _))

/-! ## Printing and reading again and again -/

/-- Whether an expression is one that can be read from a text, up to the nesting of its sequences
and alternatives. -/
structure Readable (r : Regex) : Prop where
  letters : ∀ c ∈ r.letters, Symbol.isInput c = true
  noLeadingUnit : r.NoLeadingUnit

theorem readable_of_parse {source : String} (h : parse source = .ok r) : Readable r where
  letters := isInput_of_parse h
  noLeadingUnit := inherited_noLeadingUnit.of_parse (fun _ _ => trivial) h

/-- A text that was printed is read as an expression with the same text, which is then read as
itself. All expressions that are read from texts are of this kind. -/
theorem text_settles :
    (∀ r : Regex, Readable r → ∃ t, parse r.text = .ok t ∧ t.text = r.text ∧ parse t.text = .ok t) ∧
      ∀ source r, parse source = .ok r → Readable r := by
  constructor
  · intro r hr
    have hparse : parse r.text = .ok r.renest := parse_text hr.letters hr.noLeadingUnit
    have htext : r.renest.text = r.text := r.text_renest
    refine ⟨r.renest, hparse, htext, ?_⟩
    rw [htext]
    exact hparse
  · intro source r h
    exact readable_of_parse h

/-- Sequences nested to the right with an empty word that is not the first, and alternatives nested
to the left: what is read is another tree, and it is read from its own text. -/
theorem text_settles_nested :
    let r : Regex :=
      .union (.union (.concat (.char 'a') (.concat (.char 'b') .emptyWord)) (.star .emptyWord))
      (.concat (.union (.char 'a') .emptySet) (.concat (.star (.concat (.char 'a') .emptyWord))
        (.char 'b')))
    Readable r ∧ parse r.text ≠ .ok r ∧
      ∃ t, parse r.text = .ok t ∧ t.text = r.text ∧ parse t.text = .ok t := by
  intro r
  have hr : Readable r := ⟨List.all_eq_true.1 (by decide +kernel), by simp [r, NoLeadingUnit]⟩
  exact ⟨hr, by decide +kernel, text_settles.1 r hr⟩

/-- An empty word in front is dropped, so the text does not come back. -/
example :
    let r : Regex := .concat .emptyWord (.char 'a')
    r.text = "~a" ∧ parse r.text = .ok (.char 'a') := by
  decide +kernel

end RegularLanguages.Regex
