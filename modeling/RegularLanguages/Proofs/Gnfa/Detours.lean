import Mathlib.Data.List.ProdSigma
import RegularLanguages.Proofs.Gnfa.Structure

/-!
# The labels after an elimination

The elimination of a state looks only at the edges that are stored: those into the state, those out
of it, and those that are replaced. A pair that no edge through the state joins has a detour by the
empty language, which changes nothing, and no pair has two detours. So every label that is left is
the union of the old one with the detour, as a tree and not only as a language
(`Gnfa.WellFormed.label_bypass`).
-/

namespace RegularLanguages.Gnfa

open Regex

variable {g : Gnfa} {i j r : Nat} {edges : SortedMap (Nat × Nat) Regex}
  {es : List ((Nat × Nat) × Regex)} {k : Nat × Nat}

/-! ## Edges that are stored -/

theorem label_eq_of_mem {e : Regex} (h : ((i, j), e) ∈ g.edges.toList) : g.label i j = e := by
  rw [label, SortedMap.get?_eq_some_iff.2 h, Option.getD_some]

theorem label_eq_emptySet (h : ∀ e, ((i, j), e) ∉ g.edges.toList) : g.label i j = .emptySet := by
  rw [label]
  cases hget : g.edges.get? (i, j) with
  | none => rfl
  | some e => exact absurd (SortedMap.get?_eq_some_iff.1 hget) (h e)

theorem nodup_ends (g : Gnfa) : (g.edges.toList.map (·.1)).Nodup := by
  rw [List.Nodup, List.pairwise_map]
  exact g.edges.ascending.imp Key.ne_of_before

/-! ## Edges that are joined to others -/

theorem labelIn_foldl_joinEdge_of_forall_ne (h : ∀ e ∈ es, e.1 ≠ k) :
    labelIn (es.foldl joinEdge edges) k = labelIn edges k := by
  induction es generalizing edges with
  | nil => rfl
  | cons e es ih =>
      rw [List.forall_mem_cons] at h
      rw [List.foldl_cons, ih h.2, labelIn_joinEdge, if_neg h.1]

/-- Of edges between different pairs, only that of a pair is joined to its label. -/
theorem labelIn_foldl_joinEdge_of_mem (hnodup : (es.map (·.1)).Nodup) {e : Regex}
    (h : (k, e) ∈ es) :
    labelIn (es.foldl joinEdge edges) k = (labelIn edges k).plus e := by
  induction es generalizing edges with
  | nil => exact absurd h List.not_mem_nil
  | cons d es ih =>
      rw [List.map_cons, List.nodup_cons] at hnodup
      rw [List.foldl_cons]
      rcases List.mem_cons.1 h with rfl | h
      · have hothers : ∀ d ∈ es, d.1 ≠ k := by
          rintro d hd rfl
          exact hnodup.1 (List.mem_map.2 ⟨d, hd, rfl⟩)
        rw [labelIn_foldl_joinEdge_of_forall_ne hothers, labelIn_joinEdge, if_pos rfl]
      · have hne : d.1 ≠ k := by
          intro heq
          exact hnodup.1 (heq ▸ List.mem_map_of_mem h)
        rw [ih hnodup.2 h, labelIn_joinEdge, if_neg hne]

/-! ## Detours -/

/-- An edge into a state and one out of it meet once, since neither has another beside it. -/
theorem nodup_detours (g : Gnfa) (r : Nat) : ((g.detours r).map (·.1)).Nodup := by
  have hends := List.pairwise_map.1 g.nodup_ends
  have hincoming : ((g.edges.toList.filter fun e =>
      e.1.2 = r && e.1.1 != r && decide (e.1.1 ∈ g.states)).map (·.1.1)).Nodup := by
    rw [List.Nodup, List.pairwise_map]
    apply (hends.filter _).imp_of_mem
    intro d e hd he hne hsource
    simp only [List.mem_filter, Bool.and_eq_true, decide_eq_true_eq] at hd he
    exact hne (Prod.ext hsource (hd.2.1.1.trans he.2.1.1.symm))
  have houtgoing : ((g.edges.toList.filter fun e =>
      e.1.1 = r && e.1.2 != r && decide (e.1.2 ∈ g.states)).map (·.1.2)).Nodup := by
    rw [List.Nodup, List.pairwise_map]
    apply (hends.filter _).imp_of_mem
    intro d e hd he hne htarget
    simp only [List.mem_filter, Bool.and_eq_true, decide_eq_true_eq] at hd he
    exact hne (Prod.ext (hd.2.1.1.trans he.2.1.1.symm) htarget)
  have hproduct := hincoming.product houtgoing
  simpa [detours, SProd.sprod, List.product, List.map_flatMap, List.flatMap_map, Function.comp_def]
    using hproduct

theorem labelIn_filter (hi : i ≠ r) (hj : j ≠ r) :
    labelIn (g.edges.filter fun pair _ => pair.1 != r && pair.2 != r) (i, j) = g.label i j := by
  have hget : (g.edges.filter fun pair _ => pair.1 != r && pair.2 != r).get? (i, j) =
      g.edges.get? (i, j) := by
    ext e
    simp [SortedMap.get?_filter, hi, hj]
  rw [labelIn, hget, label]

theorem label_bypass_of_no_detour (hi : i ≠ r) (hj : j ≠ r) (h : ∀ e ∈ g.detours r, e.1 ≠ (i, j)) :
    (g.bypass r).label i j = g.label i j := by
  change labelIn (g.bypass r).edges (i, j) = _
  rw [bypass, labelIn_foldl_joinEdge_of_forall_ne h, labelIn_filter hi hj]

namespace WellFormed

/-- What the label of a pair becomes is the formula of the textbooks. -/
theorem label_bypass (hg : g.WellFormed) (hi : i ≠ r) (hj : j ≠ r) :
    (g.bypass r).label i j =
      (g.label i j).plus ((g.label i r).times ((g.label r r).iterate.times (g.label r j))) := by
  by_cases hin : ∃ a, ((i, r), a) ∈ g.edges.toList
  · by_cases hout : ∃ b, ((r, j), b) ∈ g.edges.toList
    · obtain ⟨a, ha⟩ := hin
      obtain ⟨b, hb⟩ := hout
      have hdetour : ((i, j), a.times ((g.label r r).iterate.times b)) ∈ g.detours r :=
        mem_detours.2 ⟨i, j, a, b, ha, ⟨hi, (hg.leaves _ ha).1⟩, hb, ⟨hj, (hg.enters _ hb).1⟩, rfl⟩
      change labelIn (g.bypass r).edges (i, j) = _
      rw [Gnfa.bypass, labelIn_foldl_joinEdge_of_mem (g.nodup_detours r) hdetour,
        labelIn_filter hi hj, label_eq_of_mem ha, label_eq_of_mem hb]
    · rw [label_eq_emptySet (not_exists.1 hout), times_emptySet, times_emptySet, plus_emptySet]
      apply label_bypass_of_no_detour hi hj
      intro e he hends
      obtain ⟨_, _, _, b, -, -, hb, -, rfl⟩ := mem_detours.1 he
      cases hends
      exact hout ⟨b, hb⟩
  · rw [label_eq_emptySet (not_exists.1 hin), emptySet_times, plus_emptySet]
    apply label_bypass_of_no_detour hi hj
    intro e he hends
    obtain ⟨_, _, a, _, ha, -, -, -, rfl⟩ := mem_detours.1 he
    cases hends
    exact hin ⟨a, ha⟩

theorem label_bypass_self (hg : g.WellFormed) (r q : Nat) :
    (g.bypass r).label q r = .emptySet ∧ (g.bypass r).label r q = .emptySet := by
  constructor
  · apply label_eq_emptySet
    intro e he
    exact (StateSet.mem_erase.1 (hg.ends_bypass he).2.1).2 rfl
  · apply label_eq_emptySet
    intro e he
    exact (StateSet.mem_erase.1 (hg.ends_bypass he).1.1).2 rfl

end WellFormed

/-! ## The elimination of a state -/

/-- A state that is eliminated leaves the others, with the labels of the textbooks between them,
and no edge of its own. -/
theorem label_eliminate :
    ∀ g : Gnfa, Made g → ∀ r ∈ g.interior, ∃ g', g.eliminate r = .ok g' ∧
      (∀ q, q ∈ g'.states ↔ q ∈ g.states ∧ q ≠ r) ∧
      (∀ i ∈ g'.states, ∀ j ∈ g'.states, g'.label i j =
        (g.label i j).plus ((g.label i r).times ((g.label r r).iterate.times (g.label r j)))) ∧
      ∀ q, g'.label q r = .emptySet ∧ g'.label r q = .emptySet := by
  intro g hg r hr
  have hmem : ∀ q, q ∈ (g.bypass r).states ↔ q ∈ g.states ∧ q ≠ r := fun q => StateSet.mem_erase
  refine ⟨g.bypass r, eliminate_eq_ok_iff.2 ⟨hr, rfl⟩, hmem, ?_, hg.wellFormed.label_bypass_self r⟩
  intro i hi j hj
  exact hg.wellFormed.label_bypass ((hmem i).1 hi).2 ((hmem j).1 hj).2

/-- Two states with moves both ways, two of them side by side, and a loop. What led through the
second state is now on a loop at the first one. -/
theorem label_eliminate_loop :
    let n : Nfa := ⟨.sequential 2, 0, .singleton 1,
      .ofList [⟨0, .epsilon, 1⟩, ⟨0, .char 'b', 1⟩, ⟨1, .char 'a', 0⟩, ⟨1, .char 'b', 1⟩]⟩
    Made (ofNfa n) ∧ 1 ∈ (ofNfa n).interior ∧ ∃ g, (ofNfa n).eliminate 1 = .ok g ∧
      (∀ i ∈ g.states, ∀ j ∈ g.states, g.label i j = ((ofNfa n).label i j).plus
        (((ofNfa n).label i 1).times (((ofNfa n).label 1 1).iterate.times ((ofNfa n).label 1 j)))) ∧
      g.label 0 0 = .concat (.union .emptyWord (.char 'b'))
        (.concat (.star (.char 'b')) (.char 'a')) ∧
      ∀ q, g.label q 1 = .emptySet ∧ g.label 1 q = .emptySet := by
  intro n
  have hmade : Made (ofNfa n) := .ofNfa (by decide +kernel)
  have hinterior : 1 ∈ (ofNfa n).interior := by decide +kernel
  obtain ⟨g, hg, hstates, hlabels, hgone⟩ := label_eliminate (ofNfa n) hmade 1 hinterior
  have hzero : 0 ∈ g.states := (hstates 0).2 ⟨by decide +kernel, by decide⟩
  refine ⟨hmade, hinterior, g, hg, hlabels, ?_, hgone⟩
  rw [hlabels 0 hzero 0 hzero]
  decide +kernel

end RegularLanguages.Gnfa
