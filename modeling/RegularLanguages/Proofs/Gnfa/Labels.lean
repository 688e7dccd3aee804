import RegularLanguages.Proofs.Gnfa.Structure
import RegularLanguages.Proofs.Regex.Inherited

/-!
# The labels of generalized automata

Labels are built from the characters of an automaton, or are read from a text, and grow with every
elimination. A property that is kept where expressions are built therefore stays with all labels
(`Gnfa.Labelled.bypass`). Together with the structure of the automaton this gives its shape after
any number of reductions (`Gnfa.shape_of_reductions`).
-/

namespace RegularLanguages

namespace Gnfa

open Regex

/-! ## Stored labels -/

/-- Whether all labels that are stored are other than the empty language and have a property. -/
def Labelled (P : Regex → Prop) (edges : SortedMap (Nat × Nat) Regex) : Prop :=
  ∀ e ∈ edges.toList, e.2 ≠ .emptySet ∧ P e.2

variable {P : Regex → Prop} {edges : SortedMap (Nat × Nat) Regex} {g : Gnfa} {n : Nfa}

namespace Labelled

theorem labelIn (hP : Kept P) (h : Labelled P edges) (pair : Nat × Nat) :
    P (labelIn edges pair) := by
  unfold Gnfa.labelIn
  cases hget : edges.get? pair with
  | none => exact hP.emptySet
  | some r => exact (h _ (SortedMap.get?_eq_some_iff.1 hget)).2

theorem joinEdge (hP : Kept P) (h : Labelled P edges) {d : (Nat × Nat) × Regex} (hd : P d.2) :
    Labelled P (joinEdge edges d) := by
  intro e he
  have hplus : P ((Gnfa.labelIn edges d.1).plus d.2) := hP.plus (h.labelIn hP d.1) hd
  rw [Gnfa.joinEdge, setLabel] at he
  split at he
  · exact h e (List.mem_filter.1 he).1
  · rename_i hne
    rcases SortedMap.mem_place he with rfl | he
    · exact ⟨hne, hplus⟩
    · exact h e he

theorem foldl_joinEdge (hP : Kept P) (h : Labelled P edges) {es : List ((Nat × Nat) × Regex)}
    (hes : ∀ e ∈ es, P e.2) : Labelled P (es.foldl Gnfa.joinEdge edges) := by
  induction es generalizing edges with
  | nil => exact h
  | cons d es ih =>
      exact ih (h.joinEdge hP (hes d List.mem_cons_self)) fun e he =>
        hes e (List.mem_cons_of_mem d he)

theorem bypass (hP : Kept P) (h : Labelled P g.edges) (r : Nat) :
    Labelled P (g.bypass r).edges := by
  have hkept : Labelled P (g.edges.filter fun pair _ => pair.1 != r && pair.2 != r) :=
    fun e he => h e (List.mem_filter.1 he).1
  apply hkept.foldl_joinEdge hP
  intro e he
  obtain ⟨i, j, a, b, hin, -, hout, -, rfl⟩ := mem_detours.1 he
  have hloop : P (g.label r r).iterate := hP.iterate (h.labelIn hP (r, r))
  exact hP.times (h _ hin).2 (hP.times hloop (h _ hout).2)

end Labelled

theorem Labelled.foldl_bypass (hP : Kept P) (h : Labelled P g.edges) (qs : List Nat) :
    Labelled P (qs.foldl Gnfa.bypass g).edges := by
  induction qs generalizing g with
  | nil => exact h
  | cons q qs ih => exact ih (h.bypass hP q)

theorem Labelled.eliminateList (hP : Kept P) (h : Labelled P g.edges) {qs : List Nat} {g' : Gnfa}
    (hqs : g.eliminateList qs = .ok g') : Labelled P g'.edges := by
  induction qs generalizing g with
  | nil =>
      cases hqs
      exact h
  | cons q qs ih =>
      obtain ⟨g₁, hq, hqs⟩ := bind_eq_ok_iff.1 hqs
      obtain ⟨-, rfl⟩ := eliminate_eq_ok_iff.1 hq
      exact ih (h.bypass hP q) hqs

theorem Labelled.toRegex (hP : Kept P) (h : Labelled P g.edges) {order : List Nat} {r : Regex}
    (hr : g.toRegex order = .ok r) : P r := by
  obtain ⟨g₁, horder, heq⟩ := bind_eq_ok_iff.1 hr
  cases heq
  exact ((h.eliminateList hP horder).foldl_bypass hP g₁.interior).labelIn hP _

theorem labelled_ofNfa (hP : Kept P) (hchar : ∀ c ∈ n.alphabet, P (.char c)) :
    Labelled P (ofNfa n).edges := by
  have hempty : Labelled P ∅ := fun e he => absurd he List.not_mem_nil
  rw [edges_ofNfa]
  apply hempty.foldl_joinEdge hP
  rintro ⟨⟨p, q⟩, r⟩ he
  rcases mem_symbolEdges.1 he with ⟨-, -, rfl⟩ | ⟨a, ha, rfl⟩ | ⟨-, -, rfl⟩
  · exact hP.emptyWord
  · cases a with
    | epsilon => exact hP.emptyWord
    | char c => exact hchar c (Nfa.mem_alphabet.2 ⟨p, q, ha⟩)
  · exact hP.emptyWord

theorem labelled_ofSnapshot (hP : Inherited P) (hchar : ∀ c, Symbol.isInput c = true → P (.char c))
    {s : Snapshot} (h : ofSnapshot s = .ok g) : Labelled P g.edges := by
  intro e he
  obtain ⟨entry, -, -, -, hparse, hne, -⟩ := (mem_edges_ofSnapshot h).1 he
  exact ⟨hne, hP.of_parse hchar hparse⟩

/-! ## Reductions -/

/-- `Reduces g q g'` says that `g'` is what the elimination of the state `q`, named by its number
or by its label, leaves of `g`. -/
inductive Reduces (g : Gnfa) (q : Nat) (g' : Gnfa) : Prop
  | state : g.eliminate q = .ok g' → Reduces g q g'
  | label {label : String} : g.labels.id? label = some q → g.eliminateLabel label = .ok g' →
      Reduces g q g'

/-- `Reductions g qs g'` says that the states `qs`, eliminated one after another, leave `g'` of
`g`. -/
inductive Reductions : Gnfa → List Nat → Gnfa → Prop
  | refl (g : Gnfa) : Reductions g [] g
  | step {g h g' : Gnfa} {q : Nat} {qs : List Nat} :
    Reduces g q h → Reductions h qs g' → Reductions g (q :: qs) g'

/-- The shape of a generalized automaton that reductions have led to: which states are left, how
they are joined, and by which labels. -/
structure Shape (g : Gnfa) (qs : List Nat) (g' : Gnfa) : Prop extends WellFormed g' where
  labelled : ∀ e ∈ g'.edges.toList, e.2 ≠ .emptySet ∧ e.2.NoLeadingUnit
  mem_states : ∀ q, q ∈ g'.states ↔ q ∈ g.states ∧ q ∉ qs
  removes_one : ∀ q g'', Reduces g' q g'' → q ∈ g'.interior ∧
    ∀ p, p ∈ g''.states ↔ p ∈ g'.states ∧ p ≠ q
  length_interior : g'.interior.length + qs.length = g.interior.length
  isFinal_iff : g'.isFinal = true ↔ qs.length = g.interior.length

theorem reduces_iff {g g' : Gnfa} {q : Nat} :
    Reduces g q g' ↔ q ∈ g.interior ∧ g.bypass q = g' := by
  rw [← eliminate_eq_ok_iff]
  constructor
  · rintro (h | ⟨hlabel, h⟩)
    · exact h
    · rwa [eliminateLabel, hlabel] at h
  · exact .state

theorem WellFormed.shape {g' : Gnfa} {qs : List Nat} (hg : g.WellFormed)
    (hlabels : Labelled NoLeadingUnit g.edges) (h : Reductions g qs g') : Shape g qs g' := by
  induction h with
  | refl g =>
      refine ⟨hg, hlabels, fun q => by simp, fun q g' hq => ?_, rfl, ?_⟩
      · obtain ⟨hinterior, rfl⟩ := reduces_iff.1 hq
        exact ⟨hinterior, fun p => StateSet.mem_erase⟩
      · rw [Gnfa.isFinal_iff, List.length_nil, eq_comm]
  | @step g _ g' q qs hq _ ih =>
      obtain ⟨hinterior, rfl⟩ := reduces_iff.1 hq
      have hlength := length_interior_bypass hinterior
      obtain ⟨hwell, hlabelled, hstates, hremoves, hinteriors, hfinal⟩ :=
        ih (hg.bypass hinterior) (hlabels.bypass inherited_noLeadingUnit.kept q)
      refine ⟨hwell, hlabelled, fun p => ?_, hremoves, ?_, ?_⟩
      · -- A state stays if it is neither the first one taken out nor one of the others.
        have hmem : p ∈ (g.bypass q).states ↔ p ∈ g.states ∧ p ≠ q := StateSet.mem_erase
        rw [hstates, hmem, List.mem_cons, not_or, and_assoc]
      · rw [List.length_cons]
        omega
      · rw [hfinal, List.length_cons]
        omega

/-- However a generalized automaton came about, any number of reductions leaves it in shape: each
takes out the state that it was given and no other, and once as many have been made as there were
states between the start and the accepting state, none is left there. -/
theorem shape_of_reductions :
    (∀ n : Nfa, n.WellFormed → ∀ qs g, Reductions (ofNfa n) qs g → Shape (ofNfa n) qs g) ∧
      ∀ s g₀, ofSnapshot s = .ok g₀ → ∀ qs g, Reductions g₀ qs g → Shape g₀ qs g := by
  constructor
  · intro n hn qs g
    exact (wellFormed_ofNfa hn).shape (labelled_ofNfa inherited_noLeadingUnit.kept
      fun c _ => trivial)
  · intro s g₀ hs qs g
    exact (wellFormed_ofSnapshot hs).shape (labelled_ofSnapshot inherited_noLeadingUnit
      (fun c _ => trivial) hs)

/-- Two states with moves both ways, and a snapshot with one state between the others. A union, a
loop and a sequence with an empty word in front end up in labels. -/
theorem shape_of_reductions_loop :
    let n : Nfa := ⟨.sequential 2, 0, .singleton 1,
      .ofList [⟨0, .epsilon, 1⟩, ⟨0, .char 'b', 1⟩, ⟨1, .char 'a', 0⟩, ⟨1, .char 'b', 1⟩]⟩
    let s : Snapshot := ⟨"s", "f", .ofList [("s", .ofList [("p", "~(a|b)")]),
      ("p", .ofList [("p", "∅"), ("f", "b*")])]⟩
    let g₀ : Gnfa := ⟨.ofList ["s", "p", "f"], .below 3, 0, 2,
      .ofList [((0, 1), .union (.char 'a') (.char 'b')), ((1, 2), .star (.char 'b'))]⟩
    n.WellFormed ∧ ofSnapshot s = .ok g₀ ∧
      Reductions (ofNfa n) [1, 0] (((ofNfa n).bypass 1).bypass 0) ∧
      Shape (ofNfa n) [1, 0] (((ofNfa n).bypass 1).bypass 0) ∧
      Reductions g₀ [1] (g₀.bypass 1) ∧ Shape g₀ [1] (g₀.bypass 1) := by
  intro n s g₀
  have hn : n.WellFormed := by decide +kernel
  have hs : ofSnapshot s = .ok g₀ := by decide +kernel
  have hreductions : Reductions (ofNfa n) [1, 0] (((ofNfa n).bypass 1).bypass 0) :=
    .step (reduces_iff.2 ⟨by decide +kernel, rfl⟩) <|
      .step (reduces_iff.2 ⟨by decide +kernel, rfl⟩) (.refl _)
  have hlabel : Reductions g₀ [1] (g₀.bypass 1) :=
    .step (.label (show g₀.labels.id? "p" = some 1 by decide +kernel) (by decide +kernel)) (.refl _)
  obtain ⟨hofNfa, hofSnapshot⟩ := shape_of_reductions
  exact ⟨hn, hs, hreductions, hofNfa n hn _ _ hreductions, hlabel, hofSnapshot s g₀ hs _ _ hlabel⟩

end Gnfa

end RegularLanguages
