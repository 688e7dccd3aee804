import Mathlib.Tactic.TFAE
import RegularLanguages.Proofs.Dfa.Determinization
import RegularLanguages.Proofs.Dfa.Minimization
import RegularLanguages.Proofs.Gnfa.Elimination
import RegularLanguages.Proofs.Gnfa.Orders
import RegularLanguages.Proofs.Nfa.DeadStates

/-!
# Automata without words

Whether an automaton accepts nothing is answered by a search from the start, by one from the
accepting states, after making it deterministic or minimal, and by its expression, which is then
the empty language itself. No part of another expression is the empty language: labels are either
the empty language or free of it, however they are put together (`Regex.kept_eq_emptySet_or`).
-/

namespace RegularLanguages

namespace Regex

variable {e r : Regex}

def NoEmptySet : Regex → Prop
  | emptySet => False
  | emptyWord | char _ => True
  | concat l r | union l r => l.NoEmptySet ∧ r.NoEmptySet
  | star e => e.NoEmptySet

theorem NoEmptySet.exists_matches (h : r.NoEmptySet) : ∃ w, r.Matches w := by
  induction r with
  | emptySet => exact h.elim
  | emptyWord => exact ⟨[], .emptyWord⟩
  | char c => exact ⟨[c], .char c⟩
  | concat l r ihl ihr =>
      obtain ⟨u, hu⟩ := ihl h.1
      obtain ⟨v, hv⟩ := ihr h.2
      exact ⟨u ++ v, .concat hu hv⟩
  | union l r ihl _ =>
      obtain ⟨w, hw⟩ := ihl h.1
      exact ⟨w, .unionLeft hw⟩
  | star => exact ⟨[], .starNil⟩

theorem kept_eq_emptySet_or : Kept fun r => r = emptySet ∨ r.NoEmptySet where
  emptySet := .inl rfl
  emptyWord := .inr trivial
  plus := by
    intro l r hl hr
    unfold plus
    split_ifs with hleft hright
    · exact hr
    · exact hl
    · exact hl
    · exact .inr ⟨hl.resolve_left hleft, hr.resolve_left hright⟩
  times := by
    intro l r hl hr
    unfold times
    split_ifs with hempty
    · exact .inl rfl
    · exact hr
    · exact hl
    · rw [not_or] at hempty
      exact .inr ⟨hl.resolve_left hempty.1, hr.resolve_left hempty.2⟩
  iterate := by
    intro e he
    cases e with
    | emptySet | emptyWord => exact .inr trivial
    | char | concat | union | star => exact .inr (he.resolve_left nofun)

end Regex

namespace Nfa

variable {n : Nfa}

theorem isEmpty_iff : n.isEmpty = true ↔ ∀ w, n.accepts w = false := by
  have hreach : n.isEmpty = false ↔ ∃ w, n.accepts w = true := by
    rw [isEmpty, Bool.not_eq_false', StateSet.intersects_iff]
    simp only [StateSet.mem_reach, StateSet.mem_singleton, exists_eq_left, leads_iff,
      accepts_iff_path]
    constructor
    · rintro ⟨q, ⟨w, hw⟩, hq⟩
      exact ⟨w, q, hq, hw⟩
    · rintro ⟨w, q, hq, hw⟩
      exact ⟨q, ⟨w, hw⟩, hq⟩
  rw [← Bool.not_eq_false, hreach]
  simp

theorem start_mem_liveStates_iff : n.start ∈ n.liveStates ↔ ∃ w, n.accepts w = true := by
  simp only [mem_liveStates, accepts_iff_path]
  constructor
  · rintro ⟨q, hq, w, hw⟩
    exact ⟨w, q, hq, hw⟩
  · rintro ⟨w, q, hq, hw⟩
    exact ⟨q, hq, w, hw⟩

end Nfa

namespace Dfa

variable {d : Dfa}

theorem isEmpty_iff_accepts : d.isEmpty = true ↔ ∀ w, d.accepts w = false := by
  simp only [isEmpty, StateSet.isEmpty_iff_forall, StateSet.mem_inter, mem_reachable,
    ← Bool.not_eq_true, accepts_iff]
  constructor
  · rintro h w ⟨q, hq, hrun⟩
    exact h q ⟨⟨w, hrun⟩, hq⟩
  · rintro h q ⟨⟨w, hrun⟩, hq⟩
    exact h w ⟨q, hq, hrun⟩

theorem WellFormed.accepting_minimize_eq_empty_iff (hd : d.WellFormed) :
    d.minimize.accepting = ∅ ↔ ∀ w, d.accepts w = false := by
  constructor
  · intro h w
    rw [← hd.accepts_minimize w]
    exact accepts_of_accepting_eq_empty h w
  · intro h
    exact (hd.minimize_of_empty h).2.1

end Dfa

namespace Gnfa

open Regex

variable {n : Nfa} {order : List Nat} {r : Regex}

/-- The expression that is left of an automaton is the empty language or free of it. -/
theorem eq_emptySet_or_of_toRegex (h : (ofNfa n).toRegex order = .ok r) :
    r = .emptySet ∨ r.NoEmptySet :=
  (labelled_ofNfa kept_eq_emptySet_or fun _ _ => .inr trivial).toRegex kept_eq_emptySet_or h

end Gnfa

namespace Nfa

variable {n : Nfa}

theorem WellFormed.toRegex_eq_emptySet_iff (hn : n.WellFormed) :
    n.toRegex = .emptySet ↔ ∀ w, n.accepts w = false := by
  constructor
  · intro h w
    rw [← Bool.not_eq_true, ← Gnfa.matches_toRegex_iff hn, h]
    exact Regex.not_matches_emptySet w
  · intro h
    apply (Gnfa.eq_emptySet_or_of_toRegex (Gnfa.toRegex_nil_ofNfa n)).resolve_right
    intro hfree
    obtain ⟨w, hw⟩ := hfree.exists_matches
    rw [Gnfa.matches_toRegex_iff hn, h w] at hw
    cases hw

/-- All ways of asking whether an automaton accepts nothing agree. If it accepts a word, no part of
its expression is the empty language, in whatever order the states are eliminated. -/
theorem emptiness_agrees (hn : n.WellFormed) :
    [∀ w, n.accepts w = false, n.isEmpty = true, n.start ∉ n.liveStates,
      n.determinize.isEmpty = true, n.minimize.accepting = ∅, n.toRegex = .emptySet].TFAE ∧
    ((∃ w, n.accepts w = true) → n.toRegex.NoEmptySet ∧
      ∀ order : List Nat, order.Nodup → (∀ q ∈ order, q ∈ (Gnfa.ofNfa n).interior) →
        ∃ r, (Gnfa.ofNfa n).toRegex order = .ok r ∧ r.NoEmptySet) := by
  have hd := wellFormed_determinize hn
  constructor
  · tfae_have 1 ↔ 2 := isEmpty_iff.symm
    tfae_have 1 ↔ 3 := by simp [start_mem_liveStates_iff]
    tfae_have 1 ↔ 4 := by simp only [Dfa.isEmpty_iff_accepts, accepts_determinize hn]
    tfae_have 1 ↔ 5 := by
      simp only [minimize, hd.accepting_minimize_eq_empty_iff, accepts_determinize hn]
    tfae_have 1 ↔ 6 := hn.toRegex_eq_emptySet_iff.symm
    tfae_finish
  · -- An expression with a word is not the empty language, so it is free of it.
    rintro ⟨w, hw⟩
    have hfree : ∀ {order : List Nat} {r : Regex},
        (Gnfa.ofNfa n).toRegex order = .ok r → r.Matches w →
        r.NoEmptySet := by
      intro order r hr hmatches
      apply (Gnfa.eq_emptySet_or_of_toRegex hr).resolve_left
      rintro rfl
      exact Regex.not_matches_emptySet w hmatches
    refine ⟨hfree (Gnfa.toRegex_nil_ofNfa n) ((Gnfa.matches_toRegex_iff hn).2 hw), ?_⟩
    intro order hnodup horder
    obtain ⟨r, hr, hmatches⟩ := (Gnfa.wellFormed_ofNfa hn).toRegex_eq_ok hnodup horder
    exact ⟨r, hr, hfree hr ((hmatches w).2 ((Gnfa.accepts_ofNfa_iff hn).2 hw))⟩

/-- An automaton from whose start no move leads to the accepting state, and the same automaton with
such a move, of which the states are eliminated from the last one on. -/
theorem emptiness_agrees_unreached :
    let n : Nfa :=
      ⟨.sequential 3, 0, .singleton 2,
        .ofList [⟨0, .char 'a', 1⟩, ⟨1, .epsilon, 0⟩, ⟨2, .char 'b', 2⟩]⟩
    let m : Nfa := { n with edges := n.edges.insert ⟨1, .char 'b', 2⟩ }
    n.WellFormed ∧ m.WellFormed ∧
      (∀ w, n.accepts w = false) ∧ n.start ∉ n.liveStates ∧ n.determinize.isEmpty = true ∧
      n.minimize.accepting = ∅ ∧ n.toRegex = .emptySet ∧ m.toRegex.NoEmptySet ∧
      ∃ r, (Gnfa.ofNfa m).toRegex [2, 1, 0] = .ok r ∧ r.NoEmptySet := by
  intro n m
  have hn : n.WellFormed := by decide +kernel
  have hm : m.WellFormed := by decide +kernel
  have hempty : n.isEmpty = true := by decide +kernel
  obtain ⟨hagree, -⟩ := emptiness_agrees hn
  obtain ⟨hwhole, horders⟩ := (emptiness_agrees hm).2 ⟨['a', 'b'], by decide +kernel⟩
  have horder := horders [2, 1, 0] (by decide) (by decide +kernel)
  clear_value n m
  exact ⟨hn, hm, (hagree.out 1 0).1 hempty, (hagree.out 1 2).1 hempty, (hagree.out 1 3).1 hempty,
    (hagree.out 1 4).1 hempty, (hagree.out 1 5).1 hempty, hwhole, horder⟩

end Nfa

end RegularLanguages
