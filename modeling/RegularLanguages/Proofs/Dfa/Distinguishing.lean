import Mathlib.Data.List.ProdSigma
import RegularLanguages.Dfa.Distinguish
import RegularLanguages.Proofs.Dfa.Determinization

/-!
# Words that tell two automata apart

Two automata are run side by side until one of them accepts and the other does not. A search finds
such a pair of states if the languages differ, and the word by which it does so is the least of
their difference (`Dfa.leastDifference_of_wellFormed`). The search comes to its end after as many
layers as there are pairs of states, those with a side that is out among them.
-/

namespace RegularLanguages

/-! ## The least word of a difference -/

/-- `LeastDifference f g d` says that `d` is the least word that only one of two languages has, by
length first and then by the code points of its characters; it is none if they are the same. -/
def LeastDifference (f g : List Char → Bool) : Option (List Char) → Prop
  | none => ∀ w, f w = g w
  | some w => f w ≠ g w ∧ ∀ u, f u ≠ g u → u = w ∨ List.Shortlex (· < ·) w u

namespace LeastDifference

variable {f g : List Char → Bool} {d e : Option (List Char)}

theorem eq_none_iff (h : LeastDifference f g d) : d = none ↔ ∀ w, f w = g w := by
  cases d with
  | none => exact iff_of_true rfl h
  | some w =>
      constructor
      · intro hnone
        cases hnone
      · intro hsame
        exact absurd (hsame w) h.1

theorem symm (h : LeastDifference f g d) : LeastDifference g f d := by
  cases d with
  | none => exact fun w => (h w).symm
  | some w => exact ⟨h.1.symm, fun u hu => h.2 u hu.symm⟩

theorem unique (hd : LeastDifference f g d) (he : LeastDifference f g e) : d = e := by
  cases d with
  | none => exact (he.eq_none_iff.2 hd).symm
  | some u =>
      cases e with
      | none => exact hd.eq_none_iff.2 he
      | some v =>
          rcases hd.2 v he.1 with heq | huv
          · rw [heq]
          · rcases he.2 u hd.1 with heq | hvu
            · rw [heq]
            · exact absurd (Search.shortlex_trans huv hvu) (Search.shortlex_irrefl u)

end LeastDifference

namespace Dfa

open Search

variable {l r : Dfa}

/-! ## Both automata side by side -/

/-- The edges of the search: what the characters of both alphabets do to a pair of states. -/
def pairEdges (l r : Dfa) : Option Nat × Option Nat → List (Char × (Option Nat × Option Nat)) :=
  pairMoves (rowStep l.moveRows) (rowStep r.moveRows) (l.alphabet ∪ r.alphabet).toList

def pairVisits (l r : Dfa) (layers : Nat) : List (Visit (Option Nat × Option Nat) Char) :=
  explore (pairEdges l r) (differs l r) layers (some l.start, some r.start)

/-- The pairs of the states of the automata and of being out. -/
def pairCount (l r : Dfa) : Nat := (l.size + 1) * (r.size + 1)

theorem distinguishingWord_eq_find? (l r : Dfa) :
    l.distinguishingWord r =
      ((l.pairVisits r (l.pairCount r)).find? fun v => differs l r v.node).map (·.word) := rfl

/-- Where a word leads from a state, or from being out. -/
def runSide (d : Dfa) (side : Option Nat) (w : List Char) : Option Nat := side.bind (d.run · w)

theorem runSide_nil (d : Dfa) (side : Option Nat) : d.runSide side [] = side := by
  cases side <;> rfl

theorem runSide_cons (d : Dfa) (side : Option Nat) (c : Char) (w : List Char) :
    d.runSide side (c :: w) = d.runSide (side.bind (d.step · c)) w := by
  cases side <;> rfl

theorem mem_alphabet_of_runSide_cons {d : Dfa} {side : Option Nat} {c : Char} {w : List Char}
    (h : d.runSide side (c :: w) ≠ none) : c ∈ d.alphabet := by
  cases side with
  | none => exact absurd rfl h
  | some p =>
      cases hstep : d.step p c with
      | none =>
          rw [runSide_cons, Option.bind_some, hstep] at h
          exact absurd rfl h
      | some q => exact mem_alphabet.2 ⟨p, q, hstep⟩

theorem mem_pairEdges {p q : Option Nat × Option Nat} {c : Char} :
    (c, q) ∈ pairEdges l r p ↔
      p ≠ (none, none) ∧ c ∈ l.alphabet ∪ r.alphabet ∧
        (p.1.bind (l.step · c), p.2.bind (r.step · c)) = q := by
  simp only [pairEdges, pairMoves, rowStep_moveRows]
  split
  · rename_i hout
    simp [hout]
  · rename_i hin
    simp [hin, SortedSet.mem_toList]

theorem ascendingRows_pairEdges (l r : Dfa) : AscendingRows (pairEdges l r) := by
  intro p
  unfold pairEdges pairMoves
  split
  · exact List.Pairwise.nil
  · rw [List.pairwise_map]
    exact SortedSet.pairwise_lt _

theorem eq_of_spells_pairEdges {p q : Option Nat × Option Nat} {w : List Char}
    (h : Spells (pairEdges l r) p w q) : (l.runSide p.1 w, r.runSide p.2 w) = q := by
  induction h with
  | refl p => rw [runSide_nil, runSide_nil]
  | step he _ ih =>
    rw [runSide_cons, runSide_cons, ← ih, ← (mem_pairEdges.1 he).2.2]

/-- The search goes along with every word that does not lead both automata out. -/
theorem spells_pairEdges {p : Option Nat × Option Nat} {w : List Char}
    (h : (l.runSide p.1 w, r.runSide p.2 w) ≠ (none, none)) :
    Spells (pairEdges l r) p w (l.runSide p.1 w, r.runSide p.2 w) := by
  induction w generalizing p with
  | nil =>
      rw [runSide_nil, runSide_nil]
      exact .refl p
  | cons c w ih =>
      have hin : p ≠ (none, none) := by
        rintro rfl
        exact h rfl
      have hc : c ∈ l.alphabet ∪ r.alphabet := by
        rw [Ne, Prod.mk.injEq, not_and_or] at h
        exact SortedSet.mem_union.2
          (h.imp mem_alphabet_of_runSide_cons mem_alphabet_of_runSide_cons)
      rw [runSide_cons, runSide_cons] at h ⊢
      exact .step (mem_pairEdges.2 ⟨hin, hc, rfl⟩) (ih h)

theorem differs_runSide (l r : Dfa) (w : List Char) :
    differs l r (l.runSide (some l.start) w, r.runSide (some r.start) w) =
      (l.accepts w != r.accepts w) := by
  have hside : ∀ d : Dfa, (d.runSide (some d.start) w).any (fun q => decide (q ∈ d.accepting)) =
      d.accepts w := by
    intro d
    unfold accepts acceptsFrom runSide
    rw [Option.bind_some]
    cases d.run d.start w <;> rfl
  rw [differs, hside, hside]

theorem accepts_ne_iff_spells {w : List Char} :
    l.accepts w ≠ r.accepts w ↔
      ∃ q, Spells (pairEdges l r) (some l.start, some r.start) w q ∧ differs l r q = true := by
  rw [← bne_iff_ne, ← differs_runSide]
  constructor
  · intro h
    refine ⟨_, spells_pairEdges fun hout => ?_, h⟩
    rw [hout] at h
    cases h
  · rintro ⟨q, hw, hq⟩
    rw [eq_of_spells_pairEdges hw]
    exact hq

/-! ## The number of pairs -/

def sides (d : Dfa) : List (Option Nat) := none :: (List.range d.size).map some

theorem WellFormed.runSide_mem_sides {d : Dfa} (hd : d.WellFormed) (w : List Char) :
    d.runSide (some d.start) w ∈ d.sides := by
  unfold sides
  cases h : d.runSide (some d.start) w with
  | none => exact List.mem_cons_self
  | some q =>
      apply List.mem_cons_of_mem
      exact List.mem_map.2 ⟨q, List.mem_range.2 (hd.run_lt hd.start_lt h), rfl⟩

theorem reachesAtMost_pairCount (hl : l.WellFormed) (hr : r.WellFormed) :
    ReachesAtMost (pairEdges l r) (some l.start, some r.start) (l.pairCount r) := by
  have hbound : ReachesAtMost (pairEdges l r) (some l.start, some r.start)
      (l.sides ×ˢ r.sides).length := by
    apply reachesAtMost_length
    intro w q hw
    rw [← eq_of_spells_pairEdges hw]
    exact List.mem_product.2 ⟨hl.runSide_mem_sides w, hr.runSide_mem_sides w⟩
  rw [List.length_product] at hbound
  simpa [sides, pairCount] using hbound

/-! ## The least word of the difference -/

theorem leastDifference_of_wellFormed (hl : l.WellFormed) (hr : r.WellFormed) :
    LeastDifference l.accepts r.accepts (l.distinguishingWord r) := by
  have hrows := ascendingRows_pairEdges l r
  have hbound := reachesAtMost_pairCount hl hr
  rw [distinguishingWord_eq_find?]
  cases hfind : (l.pairVisits r (l.pairCount r)).find? fun v => differs l r v.node with
  | none =>
      intro w
      by_contra hne
      obtain ⟨q, hw, hq⟩ := accepts_ne_iff_spells.1 hne
      rw [stop_eq_false_of_explore hrows hbound hfind hw] at hq
      cases hq
  | some v =>
      obtain ⟨hv, hleast⟩ := least_of_explore hrows hbound hfind
      refine ⟨accepts_ne_iff_spells.2 ⟨_, hv⟩, fun u hu => ?_⟩
      obtain ⟨q, hq, hdiffers⟩ := accepts_ne_iff_spells.1 hu
      exact hleast u q hq hdiffers

/-- The search ends by itself: more layers than there are pairs make no difference. -/
theorem pairVisits_eq_of_le (hl : l.WellFormed) (hr : r.WellFormed) {layers : Nat}
    (h : l.pairCount r ≤ layers) : l.pairVisits r layers = l.pairVisits r (l.pairCount r) :=
  explore_eq_of_le (ascendingRows_pairEdges l r) _ (reachesAtMost_pairCount hl hr) h

end Dfa

/-! ## Comparing automata -/

/-- What the comparison of two automata has to find, given how automata of their kind accept. -/
structure ComparesLanguages {α : Type} (accepts : α → List Char → Bool)
    (distinguish : α → α → Option (List Char)) (equivalent : α → α → Bool) (l r : α) : Prop where
  leastDifference : LeastDifference (accepts l) (accepts r) (distinguish l r)
  equivalent_iff : equivalent l r = true ↔ ∀ w, accepts l w = accepts r w
  comm : distinguish l r = distinguish r l

theorem comparesLanguages_of_leastDifference {α : Type} {accepts : α → List Char → Bool}
    {distinguish : α → α → Option (List Char)} {l r : α}
    (hlr : LeastDifference (accepts l) (accepts r) (distinguish l r))
    (hrl : LeastDifference (accepts r) (accepts l) (distinguish r l)) :
    ComparesLanguages accepts distinguish (fun l r => (distinguish l r).isNone) l r where
  leastDifference := hlr
  equivalent_iff := by
    rw [Option.isNone_iff_eq_none]
    exact hlr.eq_none_iff
  comm := hlr.unique hrl.symm

theorem Dfa.comparesLanguages {l r : Dfa} (hl : l.WellFormed) (hr : r.WellFormed) :
    ComparesLanguages accepts distinguishingWord isEquivalent l r :=
  comparesLanguages_of_leastDifference (leastDifference_of_wellFormed hl hr)
    (leastDifference_of_wellFormed hr hl)

theorem Nfa.comparesLanguages {l r : Nfa} (hl : l.WellFormed) (hr : r.WellFormed) :
    ComparesLanguages accepts distinguishingWord isEquivalent l r := by
  have hleast : ∀ {m n : Nfa}, m.WellFormed → n.WellFormed →
      LeastDifference m.accepts n.accepts (m.distinguishingWord n) := by
    intro m n hm hn
    rw [← funext (accepts_determinize hm), ← funext (accepts_determinize hn)]
    exact Dfa.leastDifference_of_wellFormed (wellFormed_determinize hm) (wellFormed_determinize hn)
  exact comparesLanguages_of_leastDifference (hleast hl hr) (hleast hr hl)

/-- The search finds the least word that only one of two automata accepts, or none if there is no
such word, and it ends by itself. -/
theorem comparesLanguages_distinguishingWord :
    (∀ l r : Dfa, l.WellFormed → r.WellFormed →
      ComparesLanguages Dfa.accepts Dfa.distinguishingWord Dfa.isEquivalent l r ∧
        ∀ layers, l.pairCount r ≤ layers → l.pairVisits r layers = l.pairVisits r (l.pairCount r)) ∧
      ∀ l r : Nfa, l.WellFormed → r.WellFormed →
        ComparesLanguages Nfa.accepts Nfa.distinguishingWord Nfa.isEquivalent l r := by
  constructor
  · intro l r hl hr
    exact ⟨Dfa.comparesLanguages hl hr, fun layers h => Dfa.pairVisits_eq_of_le hl hr h⟩
  · intro l r hl hr
    exact Nfa.comparesLanguages hl hr

/-- Automata of `a*` and of `a*` or `ab`. On `b` the first one has no move at all. -/
theorem comparesLanguages_distinguishingWord_loop :
    let l : Dfa := ⟨.sequential 1, 0, .singleton 0, .ofList [((0, 'a'), 0)], none⟩
    let r : Dfa := ⟨.sequential 4, 0, .ofList [0, 1, 2, 3],
      .ofList [((0, 'a'), 1), ((1, 'a'), 2), ((1, 'b'), 3), ((2, 'a'), 2)], none⟩
    l.distinguishingWord r = some ['a', 'b'] ∧
      ComparesLanguages Dfa.accepts Dfa.distinguishingWord Dfa.isEquivalent l r ∧
      ComparesLanguages Nfa.accepts Nfa.distinguishingWord Nfa.isEquivalent l.toNfa r.toNfa := by
  intro l r
  refine ⟨by decide +kernel, ?_, ?_⟩
  · exact (comparesLanguages_distinguishingWord.1 l r (by decide +kernel) (by decide +kernel)).1
  · exact comparesLanguages_distinguishingWord.2 l.toNfa r.toNfa (by decide +kernel)
      (by decide +kernel)

end RegularLanguages
