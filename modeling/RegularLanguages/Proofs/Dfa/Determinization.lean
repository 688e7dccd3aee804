import RegularLanguages.Proofs.Dfa.Numbering
import RegularLanguages.Proofs.Nfa.Paths

/-!
# Determinization keeps the active sets

The deterministic automaton walks through the nonempty sets of states that words lead to. After a
word it is in the state of the set that is active after the word, or out if that set is empty
(`run_determinize_eq_some_iff`). The whole of what the construction promises is `SubsetAutomaton`.
-/

namespace RegularLanguages

/-! ## Sets of states below a bound -/

theorem StateSet.bits_lt {s : StateSet} {k : Nat} (h : ∀ q ∈ s, q < k) : s.bits < 2 ^ k := by
  apply Nat.lt_pow_two_of_testBit
  intro q hq
  rw [← Bool.not_eq_true]
  intro hmem
  have := h q hmem
  omega

theorem StateSet.length_le_two_pow {l : List StateSet} {k : Nat} (hl : l.Nodup)
    (h : ∀ s ∈ l, ∀ q ∈ s, q < k) : l.length ≤ 2 ^ k := by
  have hnodup : (l.map bits).Nodup := by
    apply hl.map
    intro s t hst
    cases s
    cases t
    exact congrArg mk hst
  have hsub : l.map bits ⊆ List.range (2 ^ k) := by
    intro b hb
    obtain ⟨s, hs, rfl⟩ := List.mem_map.1 hb
    exact List.mem_range.2 (bits_lt (h s hs))
  have hle := hnodup.length_le_of_subset hsub
  rw [List.length_map, List.length_range] at hle
  exact hle

namespace Nfa

open Search

/-! ## The search through the sets -/

/-- The edges of the search: the nonempty sets that the characters lead to. -/
def setMoves (n : Nfa) : StateSet → List (Char × StateSet) :=
  subsetMoves n.stepTable n.alphabet.toList

theorem step_empty (n : Nfa) (c : Char) : n.step ∅ c = ∅ := by
  apply StateSet.ext
  intro q
  rw [mem_step]
  simp

theorem stepAll_empty (n : Nfa) (w : List Char) : n.stepAll ∅ w = ∅ := by
  induction w with
  | nil => rfl
  | cons c w ih =>
      rw [stepAll_cons, step_empty]
      exact ih

theorem step_eq_empty_of_not_mem_alphabet {n : Nfa} {c : Char} (h : c ∉ n.alphabet) (s : StateSet) :
    n.step s c = ∅ := by
  rw [← StateSet.isEmpty_iff, StateSet.isEmpty_iff_forall]
  intro q hq
  obtain ⟨p, -, r, he, -⟩ := mem_step.1 hq
  exact h (mem_alphabet.2 ⟨p, r, he⟩)

theorem mem_setMoves {n : Nfa} {s t : StateSet} {c : Char} :
    (c, t) ∈ n.setMoves s ↔ n.step s c = t ∧ t ≠ ∅ := by
  rw [setMoves, subsetMoves_stepTable, List.mem_filterMap]
  constructor
  · rintro ⟨a, -, ha⟩
    rw [Option.ite_none_left_eq_some, StateSet.isEmpty_iff] at ha
    obtain ⟨hne, heq⟩ := ha
    cases heq
    exact ⟨rfl, hne⟩
  · rintro ⟨rfl, hne⟩
    refine ⟨c, ?_, ?_⟩
    · by_contra hc
      exact hne (step_eq_empty_of_not_mem_alphabet hc s)
    · rw [Option.ite_none_left_eq_some, StateSet.isEmpty_iff]
      exact ⟨hne, rfl⟩

theorem pairwise_setMoves (n : Nfa) (s : StateSet) :
    (n.setMoves s).Pairwise fun d e => d.1 < e.1 := by
  rw [setMoves, subsetMoves_stepTable]
  apply pairwise_filterMap_alphabet
  intro c e he
  rw [Option.ite_none_left_eq_some] at he
  cases he.2
  rfl

/-- The search walks along the steps of a run, as long as the active set is not empty. -/
theorem spells_setMoves_iff {n : Nfa} {s t : StateSet} {w : List Char} (hs : s ≠ ∅) :
    Spells n.setMoves s w t ↔ n.stepAll s w = t ∧ t ≠ ∅ := by
  induction w generalizing s with
  | nil =>
      constructor
      · intro h
        cases h
        exact ⟨rfl, hs⟩
      · rintro ⟨rfl, -⟩
        exact .refl s
  | cons c w ih =>
      rw [stepAll_cons]
      constructor
      · intro h
        cases h with
        | step he hw =>
            obtain ⟨rfl, hne⟩ := mem_setMoves.1 he
            exact (ih hne).1 hw
      · intro h
        have hne : n.step s c ≠ ∅ := by
          intro hempty
          rw [hempty, stepAll_empty] at h
          exact h.2 h.1.symm
        exact .step (mem_setMoves.2 ⟨rfl, hne⟩) ((ih hne).2 h)

theorem initial_ne_empty (n : Nfa) : n.initial ≠ ∅ := by
  intro h
  have hstart := start_mem_initial n
  rw [h] at hstart
  exact StateSet.not_mem_empty _ hstart

theorem WellFormed.stepAll_lt {n : Nfa} (hn : n.WellFormed) {w : List Char} {q : Nat}
    (h : q ∈ n.stepAll n.initial w) : q < n.size :=
  hn.path_lt (mem_stepAll_initial.1 h) hn.start_lt

theorem tabulates_determinize {n : Nfa} (hn : n.WellFormed) :
    n.determinize.Tabulates n.setMoves n.initial n.activeSets := by
  have henumerates : Enumerates n.setMoves n.initial n.activeSets := by
    apply explore_enumerates n.pairwise_setMoves
    intro l hl hreached
    apply StateSet.length_le_two_pow hl
    intro s hs q hq
    obtain ⟨w, hw⟩ := hreached s hs
    obtain ⟨rfl, -⟩ := (spells_setMoves_iff n.initial_ne_empty).1 hw
    exact hn.stepAll_lt hq
  refine { toEnumerates := henumerates, rows := n.pairwise_setMoves, size_eq := ?_, start_eq := rfl,
           moves_eq := rfl }
  rw [Dfa.size, determinize, LabelTable.size_sequential, List.length_map]

/-! ## Runs of the deterministic automaton -/

theorem subset?_determinize (n : Nfa) (q : Nat) :
    n.determinize.subset? q = n.activeSets[q]?.map (·.node) :=
  List.getElem?_map

/-- A run leads to the state of the active set, and there is none if that set is empty. -/
theorem run_determinize_eq_some_iff {n : Nfa} (hn : n.WellFormed) {w : List Char} {q : Nat} :
    n.determinize.run n.determinize.start w = some q ↔
      n.determinize.subset? q = some (n.stepAll n.initial w) ∧ n.stepAll n.initial w ≠ ∅ := by
  rw [(tabulates_determinize hn).run_eq_some_iff, subset?_determinize, Option.map_eq_some_iff]
  simp only [spells_setMoves_iff n.initial_ne_empty]
  constructor
  · rintro ⟨v, hv, hnode, hne⟩
    rw [← hnode] at hne
    exact ⟨⟨v, hv, hnode.symm⟩, hne⟩
  · rintro ⟨⟨v, hv, hnode⟩, hne⟩
    rw [← hnode] at hne
    exact ⟨v, hv, hnode.symm, hne⟩

theorem exists_subset?_determinize {n : Nfa} (hn : n.WellFormed) {w : List Char}
    (hne : n.stepAll n.initial w ≠ ∅) :
    ∃ q, n.determinize.subset? q = some (n.stepAll n.initial w) := by
  obtain ⟨q, v, hv, hnode⟩ := (tabulates_determinize hn).exists_place
    ((spells_setMoves_iff n.initial_ne_empty).2 ⟨rfl, hne⟩)
  refine ⟨q, ?_⟩
  rw [subset?_determinize, hv, ← hnode]
  rfl

theorem mem_accepting_determinize {n : Nfa} {q : Nat} :
    q ∈ n.determinize.accepting ↔ ∃ s, n.determinize.subset? q = some s ∧ n.isAccepting s = true :=
  StateSet.mem_placesWhere

theorem accepts_determinize {n : Nfa} (hn : n.WellFormed) (w : List Char) :
    n.determinize.accepts w = n.accepts w := by
  rw [Bool.eq_iff_iff, Dfa.accepts_iff, accepts, active_eq_stepAll]
  constructor
  · rintro ⟨q, hq, hrun⟩
    obtain ⟨s, hs, hacc⟩ := mem_accepting_determinize.1 hq
    rw [((run_determinize_eq_some_iff hn).1 hrun).1, Option.some.injEq] at hs
    rw [hs]
    exact hacc
  · intro hacc
    have hne : n.stepAll n.initial w ≠ ∅ := by
      intro hempty
      obtain ⟨q, hq, -⟩ := isAccepting_iff.1 hacc
      rw [hempty] at hq
      exact StateSet.not_mem_empty q hq
    obtain ⟨q, hq⟩ := exists_subset?_determinize hn hne
    exact ⟨q, mem_accepting_determinize.2 ⟨_, hq, hacc⟩,
      (run_determinize_eq_some_iff hn).2 ⟨hq, hne⟩⟩

theorem wellFormed_determinize {n : Nfa} (hn : n.WellFormed) : n.determinize.WellFormed := by
  have htab := tabulates_determinize hn
  refine { labels_nodup := LabelTable.nodup_sequential _, start_lt := ?_, accepting_lt := ?_,
           source_lt := ?_, target_lt := ?_, length_subsets := ?_ }
  · rw [htab.start_eq]
    exact htab.size_pos
  · intro q hq
    obtain ⟨s, hs, -⟩ := mem_accepting_determinize.1 hq
    rw [subset?_determinize, Option.map_eq_some_iff] at hs
    obtain ⟨v, hv, -⟩ := hs
    exact htab.lt_size_iff.2 ⟨v, hv⟩
  · intro e he
    exact (htab.ends_lt (Dfa.step_eq_some_iff.2 he)).1
  · intro e he
    exact (htab.ends_lt (Dfa.step_eq_some_iff.2 he)).2
  · intro subsets hsubsets
    cases hsubsets
    rw [htab.size_eq, List.length_map]

theorem mem_alphabet_determinize {n : Nfa} (hn : n.WellFormed) {c : Char}
    (h : c ∈ n.determinize.alphabet) :
    c ∈ n.alphabet := by
  obtain ⟨p, q, hstep⟩ := Dfa.mem_alphabet.1 h
  obtain ⟨u, v, -, -, hmove⟩ := (tabulates_determinize hn).step_eq_some_iff.1 hstep
  obtain ⟨heq, hne⟩ := mem_setMoves.1 hmove
  by_contra hc
  rw [step_eq_empty_of_not_mem_alphabet hc] at heq
  exact hne heq.symm

/-! ## The subset automaton -/

/-- What the deterministic automaton `d` of the active sets of `n` has to do word by word, and how
its states stand for the sets. -/
structure SubsetAutomaton (n : Nfa) (d : Dfa) : Prop where
  run_of_active : ∀ w, n.stepAll n.initial w ≠ ∅ →
    ∃ q, d.run d.start w = some q ∧ d.subset? q = some (n.stepAll n.initial w)
  run_of_empty : ∀ w, n.stepAll n.initial w = ∅ → d.run d.start w = none
  accepts_eq : ∀ w, d.accepts w = n.accepts w
  subset_closed : ∀ q < d.size, ∃ s, d.subset? q = some s ∧ s ≠ ∅ ∧ n.closure s = s
  subset_inj : ∀ p < d.size, ∀ q < d.size, d.subset? p = d.subset? q → p = q
  reached : ∀ q < d.size, ∃ w, d.run d.start w = some q
  numbered : d.NumberedByWords

theorem closure_stepAll (n : Nfa) {s : StateSet} (hs : n.closure s = s) (w : List Char) :
    n.closure (n.stepAll s w) = n.stepAll s w := by
  induction w generalizing s with
  | nil => exact hs
  | cons c w ih =>
      rw [stepAll_cons]
      exact ih (closure_step n s c)

theorem subsetAutomaton_determinize {n : Nfa} (hn : n.WellFormed) :
    SubsetAutomaton n n.determinize := by
  have htab := tabulates_determinize hn
  have hreached :
      ∀ q < n.determinize.size, ∃ w, n.determinize.run n.determinize.start w = some q := by
    intro q hq
    obtain ⟨w, hw⟩ := htab.numberedByWords.exists_leastWord q hq
    exact ⟨w, hw.1⟩
  refine { run_of_active := ?_, run_of_empty := ?_, accepts_eq := accepts_determinize hn,
           subset_closed := ?_, subset_inj := ?_, reached := hreached,
           numbered := htab.numberedByWords }
  · intro w hne
    obtain ⟨q, hq⟩ := exists_subset?_determinize hn hne
    exact ⟨q, (run_determinize_eq_some_iff hn).2 ⟨hq, hne⟩, hq⟩
  · intro w hempty
    cases hrun : n.determinize.run n.determinize.start w with
    | none => rfl
    | some q => exact absurd hempty ((run_determinize_eq_some_iff hn).1 hrun).2
  · intro q hq
    obtain ⟨w, hrun⟩ := hreached q hq
    obtain ⟨hset, hne⟩ := (run_determinize_eq_some_iff hn).1 hrun
    exact ⟨_, hset, hne, closure_stepAll n (closure_initial n) w⟩
  · intro p hp q hq hsets
    obtain ⟨u, hu⟩ := htab.lt_size_iff.1 hp
    obtain ⟨v, hv⟩ := htab.lt_size_iff.1 hq
    rw [subset?_determinize, subset?_determinize, hu, hv, Option.map_some, Option.map_some,
      Option.some.injEq] at hsets
    exact htab.place_inj hu hv hsets

/-- An empty move out of the start, and one character back: both states are active at any time. -/
theorem subsetAutomaton_determinize_cycle :
    let n : Nfa := ⟨.sequential 2, 0, .singleton 1, .ofList [⟨0, .epsilon, 1⟩, ⟨1, .char 'a', 0⟩]⟩
    n.determinize.subset? 0 = some (.below 2) ∧ SubsetAutomaton n n.determinize :=
  ⟨by decide +kernel, subsetAutomaton_determinize (by decide +kernel)⟩

end Nfa

end RegularLanguages
