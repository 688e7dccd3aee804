import RegularLanguages.Proofs.Builder
import RegularLanguages.Proofs.Dfa.Determinization
import RegularLanguages.Proofs.Lookups
import RegularLanguages.Proofs.Nfa.Composition
import RegularLanguages.Proofs.Snapshot.Dfa

/-!
# Whatever makes an automaton leaves it consistent

Automata come from builders, snapshots and expressions, and from one another. States are counted
apart from their labels: each way of making an automaton says how many states it counts, and the
labels have to keep up with it. In the end all that an automaton mentions is below the count, so
that the tables that are read by the numbers of states are read within their bounds.
-/

namespace RegularLanguages

inductive Automaton where
  | nfa (n : Nfa)
  | dfa (d : Dfa)

namespace Automaton

/-- `Made k a` says that `a` can be made, and that `k` states are counted on the way. -/
inductive Made : Nat → Automaton → Prop
  | builtNfa {k : Nat} {n : Nfa} : Nfa.Built k n → Made k (nfa n)
  | builtDfa {k : Nat} {d : Dfa} : Dfa.Built k d → Made k (dfa d)
  | ofNfaSnapshot {s : Nfa.Snapshot} {n : Nfa} : Nfa.ofSnapshot s = .ok n →
      Made s.labels.size (nfa n)
  | ofDfaSnapshot {s : Dfa.Snapshot} {d : Dfa} : Dfa.ofSnapshot s = .ok d →
      Made s.labels.size (dfa d)
  | ofRegex (r : Regex) : Made (r.part 0 []).size (nfa r.toNfa)
  | renumber {k : Nat} {n : Nfa} : Made k (nfa n) → Made k (nfa n.renumber.1)
  | prune {k : Nat} {n : Nfa} :
    Made k (nfa n) → Made (n.liveStates.insert n.start).toList.length (nfa n.prune)
  | complete {k : Nat} {n : Nfa} :
    Made k (nfa n) → Made (if n.missing.isEmpty then k else n.labels.size + 1) (nfa n.complete)
  | determinize {k : Nat} {n : Nfa} : Made k (nfa n) → Made n.activeSets.length (dfa n.determinize)
  | minimize {k : Nat} {d : Dfa} :
    Made k (dfa d) → Made (max 1 (d.liveBlocks d.blocks).length) (dfa d.minimize)
  | toNfa {k : Nat} {d : Dfa} : Made k (dfa d) → Made d.labels.size (nfa d.toNfa)

/-- Whether an automaton is well-formed and has as many labels as states were counted. -/
def Counted (count : Nat) : Automaton → Prop
  | nfa n => n.WellFormed ∧ n.size = count
  | dfa d => d.WellFormed ∧ d.size = count

theorem Made.counted {k : Nat} {a : Automaton} (h : Made k a) : a.Counted k := by
  induction h with
  | builtNfa h => exact h.wellFormed
  | builtDfa h => exact h.wellFormed
  | ofNfaSnapshot h =>
      refine ⟨Nfa.wellFormed_ofSnapshot h, ?_⟩
      obtain ⟨start, q, edges, -, -, -, rfl⟩ := Nfa.ofSnapshot_eq_ok_iff.1 h
      rfl
  | ofDfaSnapshot h =>
      refine ⟨Dfa.wellFormed_ofSnapshot h, ?_⟩
      obtain ⟨start, keys, q, moves, -, -, -, rfl⟩ := Dfa.ofSnapshot_eq_ok_iff.1 h
      rfl
  | ofRegex r =>
      refine ⟨?_, LabelTable.size_sequential _⟩
      rw [Regex.toNfa_eq_compose]
      exact Regex.wellFormed_compose r
  | renumber _ ih => exact ⟨ih.1.renumber, (LabelTable.size_sequential _).trans ih.2⟩
  | prune _ _ => exact ⟨Nfa.wellFormed_prune _, Nfa.size_restrict _ _⟩
  | complete _ ih =>
      refine ⟨ih.1.complete, ?_⟩
      rw [Nfa.complete_eq]
      split
      · exact ih.2
      · exact Nfa.size_withSink _
  | determinize _ ih =>
      refine ⟨Nfa.wellFormed_determinize ih.1, ?_⟩
      rw [Dfa.size, Nfa.determinize, LabelTable.size_sequential, List.length_map]
  | minimize _ ih => exact ⟨ih.1.minimize, Dfa.size_minimize _⟩
  | toNfa _ ih => exact ⟨ih.1.toNfa, rfl⟩

end Automaton

/-- All that an automaton of so many states mentions is one of them, and its labels are as many and
differ. -/
structure Nfa.Consistent (count : Nat) (n : Nfa) : Prop where
  start_lt : n.start < count
  accepting_lt : ∀ q ∈ n.accepting, q < count
  ends_lt : ∀ e ∈ n.edges, e.source < count ∧ e.target < count
  targets_nonempty : ∀ q, ∀ a ∈ n.symbolsFrom q, ∃ p, p ∈ n.targets q a
  mem_alphabet : ∀ c, c ∈ n.alphabet ↔ ∃ q p, p ∈ n.targets q (.char c)
  length_labels : n.labels.toList.length = count
  nodup_labels : n.labels.toList.Nodup

/-- The same of deterministic automata, which may have as many sets of states. -/
structure Dfa.Consistent (count : Nat) (d : Dfa) : Prop where
  start_lt : d.start < count
  accepting_lt : ∀ q ∈ d.accepting, q < count
  ends_lt : ∀ p c q, d.step p c = some q → p < count ∧ q < count
  mem_alphabet : ∀ c, c ∈ d.alphabet ↔ ∃ p q, d.step p c = some q
  length_labels : d.labels.toList.length = count
  nodup_labels : d.labels.toList.Nodup
  length_subsets : ∀ subsets, d.subsets = some subsets → subsets.length = count

theorem Nfa.WellFormed.consistent {n : Nfa} (hn : n.WellFormed) : n.Consistent n.size where
  start_lt := hn.start_lt
  accepting_lt := hn.accepting_lt
  ends_lt := fun e he => ⟨hn.source_lt e he, hn.target_lt e he⟩
  targets_nonempty := by
    intro q a ha
    obtain ⟨p, hp⟩ := mem_symbolsFrom.1 ha
    exact ⟨p, mem_targets.2 hp⟩
  mem_alphabet := by
    intro c
    rw [Nfa.mem_alphabet]
    simp only [mem_targets]
  length_labels := rfl
  nodup_labels := hn.labels_nodup

theorem Dfa.WellFormed.consistent {d : Dfa} (hd : d.WellFormed) : d.Consistent d.size where
  start_lt := hd.start_lt
  accepting_lt := hd.accepting_lt
  ends_lt := fun _ _ _ h => hd.ends_lt h
  mem_alphabet := fun _ => Dfa.mem_alphabet
  length_labels := rfl
  nodup_labels := hd.labels_nodup
  length_subsets := hd.length_subsets

/-- Every automaton that can be made is consistent with the count of its states, and its tables are
read within their bounds. -/
theorem consistent_of_made :
    (∀ k n, Automaton.Made k (.nfa n) → n.Consistent k ∧ n.LookupsInRange) ∧
      ∀ k d, Automaton.Made k (.dfa d) → d.Consistent k ∧ d.LookupsInRange := by
  constructor
  · intro k n h
    obtain ⟨hn, rfl⟩ := h.counted
    exact ⟨hn.consistent, hn.lookupsInRange⟩
  · intro k d h
    obtain ⟨hd, rfl⟩ := h.counted
    exact ⟨hd.consistent, hd.lookupsInRange⟩

/-- A builder that skips a state number, replaces a move and is asked for a label that is in use;
then the same automaton made deterministic, minimal and nondeterministic again, completed and
pruned. -/
theorem consistent_of_made_chain :
    let d : Dfa :=
      (((((Dfa.single "0").addLabeledState "p").2.setMove 0 'a' 3).setMove 0 'a' 1).addLabeledState
      "p").2.addAccepting 1
    Automaton.Made 4 (.dfa d) ∧ d.Consistent 4 ∧ d.LookupsInRange ∧
      let n := d.toNfa.determinize.minimize.toNfa.complete.prune
      ∃ k, Automaton.Made k (.nfa n) ∧ n.Consistent k ∧ n.LookupsInRange := by
  intro d
  have hchar : Symbol.isInput 'a' = true := by decide
  have hbuilt := ((Dfa.Built.single "0").addLabeledState "p").addTransition
    (Dfa.addTransition_eq_ok_iff (p := 0) (q := 3) |>.2 ⟨hchar, rfl⟩)
  have hmoved :=
    hbuilt.addTransition (Dfa.addTransition_eq_ok_iff (p := 0) (q := 1) |>.2 ⟨hchar, rfl⟩)
  obtain ⟨k, hd⟩ : ∃ k, Automaton.Made k (.dfa d) :=
    ⟨_, .builtDfa ((hmoved.addLabeledState "p").addAccepting 1)⟩
  have hn := hd.toNfa.determinize.minimize.toNfa.complete.prune
  obtain ⟨hnfa, hdfa⟩ := consistent_of_made
  obtain ⟨hconsistent, hlookups⟩ := hdfa k d hd
  have hcount : k = 4 := by
    rw [← hconsistent.length_labels]
    decide +kernel
  subst hcount
  exact ⟨hd, hconsistent, hlookups, _, hn, hnfa _ _ hn⟩

end RegularLanguages
