import RegularLanguages.Proofs.Dfa.Runs
import RegularLanguages.Proofs.Nfa.Paths

/-!
# Deterministic automata among the nondeterministic ones

The edges of `toNfa` are the moves, so a path spells a word if and only if the run on the word ends
where the path does (`Dfa.path_toNfa_iff`).
-/

namespace RegularLanguages.Dfa

variable {d : Dfa} {p q : Nat} {c : Char} {w : List Char}

theorem mem_edges_toNfa {a : Symbol} :
    ⟨p, a, q⟩ ∈ d.toNfa.edges ↔ ∃ c, a = .char c ∧ d.step p c = some q := by
  rw [toNfa, edges, SortedSet.mem_ofList, List.mem_map]
  simp only [step_eq_some_iff]
  constructor
  · rintro ⟨e, he, heq⟩
    cases heq
    exact ⟨e.1.2, rfl, he⟩
  · rintro ⟨c, rfl, he⟩
    exact ⟨_, he, rfl⟩

theorem char_mem_edges_toNfa : ⟨p, .char c, q⟩ ∈ d.toNfa.edges ↔ d.step p c = some q := by
  rw [mem_edges_toNfa]
  simp

theorem path_toNfa_iff : Nfa.Path d.toNfa p w q ↔ d.run p w = some q := by
  constructor
  · intro h
    induction h with
    | refl => rfl
    | empty he _ _ =>
        obtain ⟨c, hc, -⟩ := mem_edges_toNfa.1 he
        cases hc
    | char he _ ih =>
        rw [run_cons, char_mem_edges_toNfa.1 he]
        exact ih
  · intro h
    induction w generalizing p with
    | nil =>
        cases h
        exact .refl _
    | cons c w ih =>
        rw [run_cons, Option.bind_eq_some_iff] at h
        obtain ⟨r, hr, hw⟩ := h
        exact .char (char_mem_edges_toNfa.2 hr) (ih hw)

theorem accepts_toNfa (d : Dfa) (w : List Char) : d.toNfa.accepts w = d.accepts w := by
  rw [Bool.eq_iff_iff, Nfa.accepts_iff_path, accepts_iff]
  simp only [path_toNfa_iff]
  rfl

theorem WellFormed.toNfa (hd : d.WellFormed) : d.toNfa.WellFormed where
  labels_nodup := hd.labels_nodup
  start_lt := hd.start_lt
  accepting_lt := hd.accepting_lt
  source_lt := by
    rintro ⟨p, a, q⟩ he
    obtain ⟨c, -, hstep⟩ := mem_edges_toNfa.1 he
    exact (hd.ends_lt hstep).1
  target_lt := by
    rintro ⟨p, a, q⟩ he
    obtain ⟨c, -, hstep⟩ := mem_edges_toNfa.1 he
    exact (hd.ends_lt hstep).2

theorem wellFormed_of_toNfa (h : d.toNfa.WellFormed) (hsubsets : d.subsets = none) :
    d.WellFormed where
  labels_nodup := h.labels_nodup
  start_lt := h.start_lt
  accepting_lt := h.accepting_lt
  source_lt := fun e he => h.source_lt _ (char_mem_edges_toNfa.2 (step_eq_some_iff.2 he))
  target_lt := fun e he => h.target_lt _ (char_mem_edges_toNfa.2 (step_eq_some_iff.2 he))
  length_subsets := by
    intro subsets h
    rw [hsubsets] at h
    cases h

theorem alphabet_toNfa (d : Dfa) : d.toNfa.alphabet = d.alphabet := by
  ext c
  rw [Nfa.mem_alphabet, mem_alphabet]
  simp only [char_mem_edges_toNfa]

end RegularLanguages.Dfa
