import RegularLanguages.Regex.Algebra
import RegularLanguages.Regex.Reader

/-!
# The languages of expressions

The words of an expression by its outermost constructor. The functions that build an expression and
drop units on the way denote what the constructors do, and the constructors go along with equality
of languages.
-/

namespace RegularLanguages.Regex

variable {a b l r : Regex} {w : List Char}

/-! ## Constructors -/

theorem not_matches_emptySet (w : List Char) : ¬ Matches emptySet w := by
  intro h
  cases h

theorem matches_emptyWord_iff : Matches emptyWord w ↔ w = [] := by
  constructor
  · intro h
    cases h
    rfl
  · rintro rfl
    exact .emptyWord

theorem matches_char_iff {c : Char} : Matches (char c) w ↔ w = [c] := by
  constructor
  · intro h
    cases h
    rfl
  · rintro rfl
    exact .char c

theorem matches_concat_iff :
    Matches (concat l r) w ↔ ∃ u v, w = u ++ v ∧ Matches l u ∧ Matches r v := by
  constructor
  · intro h
    cases h with
    | concat hu hv => exact ⟨_, _, rfl, hu, hv⟩
  · rintro ⟨u, v, rfl, hu, hv⟩
    exact .concat hu hv

theorem matches_union_iff : Matches (union l r) w ↔ Matches l w ∨ Matches r w := by
  constructor
  · intro h
    cases h with
    | unionLeft h => exact .inl h
    | unionRight h => exact .inr h
  · rintro (h | h)
    · exact .unionLeft h
    · exact .unionRight h

theorem Matches.star_append {e : Regex} {u v : List Char} (hu : Matches e u)
    (hv : Matches (star e) v) : Matches (star e) (u ++ v) := by
  cases u with
  | nil => exact hv
  | cons c u => exact .starCons (List.cons_ne_nil c u) hu hv

theorem Matches.star_single {e : Regex} {u : List Char} (hu : Matches e u) :
    Matches (star e) u := by
  have h := hu.star_append .starNil
  rwa [List.append_nil] at h

theorem Matches.star_induction {e : Regex} {motive : List Char → Prop} (hnil : motive [])
    (happend : ∀ u v, Matches e u → motive v → motive (u ++ v))
    (h : Matches (star e) w) : motive w := by
  generalize hr : star e = r at h
  induction h with
  | starNil => exact hnil
  | starCons _ hu _ _ ih =>
      cases hr
      exact happend _ _ hu (ih rfl)
  | _ => cases hr

/-! ## Equality of languages -/

def SameLanguage (a b : Regex) : Prop := ∀ w, Matches a w ↔ Matches b w

namespace SameLanguage

variable {a' b' : Regex}

theorem refl (a : Regex) : SameLanguage a a := fun _ => Iff.rfl

theorem symm (h : SameLanguage a b) : SameLanguage b a := fun w => (h w).symm

theorem trans {c : Regex} (hab : SameLanguage a b) (hbc : SameLanguage b c) : SameLanguage a c :=
  fun w => (hab w).trans (hbc w)

theorem concat (ha : SameLanguage a a') (hb : SameLanguage b b') :
    SameLanguage (concat a b) (concat a' b') := by
  intro w
  simp only [matches_concat_iff, ha _, hb _]

theorem union (ha : SameLanguage a a') (hb : SameLanguage b b') :
    SameLanguage (union a b) (union a' b') := by
  intro w
  rw [matches_union_iff, matches_union_iff, ha, hb]

theorem star (h : SameLanguage a b) : SameLanguage (star a) (star b) := by
  have himp : ∀ {a b : Regex}, SameLanguage a b →
      ∀ w, Matches (.star a) w → Matches (.star b) w := by
    intro a b h w hw
    exact hw.star_induction .starNil fun u v hu hv => ((h u).1 hu).star_append hv
  exact fun w => ⟨himp h w, himp h.symm w⟩

end SameLanguage

theorem concat_assoc (a b c : Regex) :
    SameLanguage (concat (concat a b) c) (concat a (concat b c)) := by
  intro w
  simp only [matches_concat_iff]
  constructor
  · rintro ⟨_, z, rfl, ⟨x, y, rfl, hx, hy⟩, hz⟩
    exact ⟨x, y ++ z, List.append_assoc x y z, hx, y, z, rfl, hy, hz⟩
  · rintro ⟨x, _, rfl, hx, y, z, rfl, hy, hz⟩
    exact ⟨x ++ y, z, (List.append_assoc x y z).symm, ⟨x, y, rfl, hx, hy⟩, hz⟩

theorem union_assoc (a b c : Regex) : SameLanguage (union (union a b) c) (union a (union b c)) := by
  intro w
  rw [matches_union_iff, matches_union_iff, matches_union_iff, matches_union_iff, or_assoc]

theorem emptyWord_concat (a : Regex) : SameLanguage (concat emptyWord a) a := by
  intro w
  simp only [matches_concat_iff, matches_emptyWord_iff]
  constructor
  · rintro ⟨_, v, rfl, rfl, hv⟩
    exact hv
  · intro hw
    exact ⟨[], w, rfl, rfl, hw⟩

theorem concat_emptyWord (a : Regex) : SameLanguage (concat a emptyWord) a := by
  intro w
  simp only [matches_concat_iff, matches_emptyWord_iff]
  constructor
  · rintro ⟨u, _, rfl, hu, rfl⟩
    rw [List.append_nil]
    exact hu
  · intro hw
    exact ⟨w, [], (List.append_nil w).symm, hw, rfl⟩

/-! ## Expressions up to the laws of units -/

theorem juxtapose_sameLanguage (l r : Regex) : SameLanguage (juxtapose l r) (concat l r) := by
  unfold juxtapose
  split
  · rename_i hl
    rw [hl]
    exact (emptyWord_concat r).symm
  · exact .refl _

theorem plus_sameLanguage (l r : Regex) : SameLanguage (plus l r) (union l r) := by
  intro w
  rw [matches_union_iff]
  unfold plus
  split
  · rename_i hl
    rw [hl]
    exact (or_iff_right (not_matches_emptySet w)).symm
  · split
    · rename_i hr
      rw [hr]
      exact (or_iff_left (not_matches_emptySet w)).symm
    · split
      · rename_i heq
        rw [heq, or_self]
      · exact matches_union_iff

theorem times_sameLanguage (l r : Regex) : SameLanguage (times l r) (concat l r) := by
  unfold times
  split
  · rename_i hempty
    intro w
    constructor
    · intro h
      cases h
    · intro h
      obtain ⟨u, v, rfl, hu, hv⟩ := matches_concat_iff.1 h
      rcases hempty with rfl | rfl
      · exact absurd hu (not_matches_emptySet u)
      · exact absurd hv (not_matches_emptySet v)
  · split
    · rename_i hl
      rw [hl]
      exact (emptyWord_concat r).symm
    · split
      · rename_i hr
        rw [hr]
        exact (concat_emptyWord l).symm
      · exact .refl _

theorem emptyWord_sameLanguage_star {e : Regex} (h : ∀ u, Matches e u → u = []) :
    SameLanguage emptyWord (star e) := by
  intro w
  rw [matches_emptyWord_iff]
  constructor
  · rintro rfl
    exact .starNil
  · intro hw
    apply hw.star_induction (motive := fun w => w = []) rfl
    rintro u v hu rfl
    rw [h u hu]
    rfl

theorem star_star (e : Regex) : SameLanguage (star e) (star (star e)) := by
  intro w
  constructor
  · exact Matches.star_single
  · intro h
    apply h.star_induction .starNil
    intro u v hu hv
    apply hu.star_induction (motive := fun u => Matches (star e) (u ++ v)) hv
    intro x y hx hy
    rw [List.append_assoc]
    exact hx.star_append hy

theorem iterate_sameLanguage (e : Regex) : SameLanguage e.iterate (star e) := by
  cases e with
  | emptySet => exact emptyWord_sameLanguage_star fun u hu => absurd hu (not_matches_emptySet u)
  | emptyWord => exact emptyWord_sameLanguage_star fun u hu => matches_emptyWord_iff.1 hu
  | star e => exact star_star e
  | char c => exact .refl _
  | concat l r => exact .refl _
  | union l r => exact .refl _

end RegularLanguages.Regex
