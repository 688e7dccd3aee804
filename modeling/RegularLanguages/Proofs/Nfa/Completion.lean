import RegularLanguages.Proofs.Nfa.Pruning

/-!
# Completed automata

An automaton that lacks an edge gets a sink: one more state, to which the missing edges lead and
which no edge leaves (`WellFormed.hasSink_withSink`). Nothing is missing then, so to complete the
automaton again changes nothing. The sink is dead and all other states are as live as before, so
that pruning takes out the sink and its edges along with what it would have taken out anyway
(`prune_complete`).
-/

namespace RegularLanguages.Nfa

variable {n m : Nfa} {p q : Nat} {a : Symbol} {c : Char}

/-! ## Complete automata -/

def IsComplete (n : Nfa) : Prop := ∀ q < n.size, ∀ c ∈ n.alphabet, ∃ p, ⟨q, .char c, p⟩ ∈ n.edges

theorem isComplete_iff_missing : n.IsComplete ↔ n.missing = [] := by
  rw [List.eq_nil_iff_forall_not_mem]
  constructor
  · rintro h ⟨q, c⟩ hmissing
    obtain ⟨hq, hc, hnone⟩ := mem_missing.1 hmissing
    obtain ⟨p, he⟩ := h q hq c hc
    exact hnone p he
  · intro h q hq c hc
    by_contra hnone
    exact h (q, c) (mem_missing.2 ⟨hq, hc, not_exists.1 hnone⟩)

theorem complete_of_isComplete (h : n.IsComplete) : n.complete = n := by
  rw [complete_eq, isComplete_iff_missing.1 h]
  rfl

theorem complete_of_not_isComplete (h : ¬ n.IsComplete) : n.complete = n.withSink := by
  rw [isComplete_iff_missing, ← List.isEmpty_iff] at h
  rw [complete_eq, if_neg h]

theorem isComplete_complete (n : Nfa) : n.complete.IsComplete :=
  isComplete_iff_missing.2 n.missing_complete

theorem complete_complete (n : Nfa) : n.complete.complete = n.complete :=
  complete_of_isComplete n.isComplete_complete

/-! ## The sink -/

/-- The automaton `m` is `n` with a sink after its states, which takes up every edge that `n`
lacks. -/
structure HasSink (n m : Nfa) : Prop where
  size_eq : m.size = n.size + 1
  label_eq : ∀ q < n.size, m.label q = n.label q
  label_not_mem : m.label n.size ∉ n.labels.toList
  accepting_eq : m.accepting = n.accepting
  sink_not_accepting : n.size ∉ m.accepting
  mem_edges_iff : ∀ p a q, ⟨p, a, q⟩ ∈ m.edges ↔
    ⟨p, a, q⟩ ∈ n.edges ∨
      q = n.size ∧ ∃ c ∈ n.alphabet, a = .char c ∧
        (p = n.size ∨ p < n.size ∧ ∀ r, ⟨p, .char c, r⟩ ∉ n.edges)

theorem label_withSink (hq : q < n.size) : n.withSink.label q = n.label q :=
  LabelTable.display_internFresh hq "trash"

theorem WellFormed.hasSink_withSink (hn : n.WellFormed) : HasSink n n.withSink where
  size_eq := size_withSink n
  label_eq _ hq := label_withSink hq
  label_not_mem := by
    have hlabel : n.withSink.label n.size = n.labels.fresh "trash" :=
      LabelTable.display_internFresh_size _ _
    rw [hlabel]
    exact LabelTable.fresh_not_mem _ _
  accepting_eq := rfl
  sink_not_accepting hmem := Nat.lt_irrefl _ (hn.accepting_lt _ hmem)
  mem_edges_iff p a q := by
    rw [mem_edges_withSink]
    simp only [mem_missing]
    constructor
    · rintro (he | ⟨hq, c, ha, ⟨hp, hc, hnone⟩ | ⟨hp, hc⟩⟩)
      · exact .inl he
      · exact .inr ⟨hq, c, hc, ha, .inr ⟨hp, hnone⟩⟩
      · exact .inr ⟨hq, c, hc, ha, .inl hp⟩
    · rintro (he | ⟨hq, c, hc, ha, hp | ⟨hp, hnone⟩⟩)
      · exact .inl he
      · exact .inr ⟨hq, c, ha, .inr ⟨hp, hc⟩⟩
      · exact .inr ⟨hq, c, ha, .inl ⟨hp, hc, hnone⟩⟩

theorem HasSink.not_mem_edges (h : HasSink n m) (hn : n.WellFormed) (hold : ⟨p, a, q⟩ ∉ n.edges)
    (he : ⟨p, a, q⟩ ∈ m.edges) (r : Nat) : ⟨p, a, r⟩ ∉ n.edges := by
  intro hr
  obtain ⟨-, c, -, rfl, rfl | ⟨-, hnone⟩⟩ := ((h.mem_edges_iff p a q).1 he).resolve_left hold
  · exact Nat.lt_irrefl _ (hn.ends_lt hr).1
  · exact hnone r hr

theorem HasSink.target_eq (h : HasSink n m) (hold : ⟨p, a, q⟩ ∉ n.edges)
    (he : ⟨p, a, q⟩ ∈ m.edges) :
    q = n.size :=
  (((h.mem_edges_iff p a q).1 he).resolve_left hold).1

theorem HasSink.isDeterministic (h : HasSink n m) (hn : n.WellFormed)
    (hdet : n.isDeterministic = true) :
    m.isDeterministic = true := by
  rw [isDeterministic_iff] at hdet ⊢
  obtain ⟨hempty, hunique⟩ := hdet
  refine ⟨fun p q he => ?_, fun p a q r hq hr => ?_⟩
  · obtain ⟨-, c, -, ha, -⟩ := ((h.mem_edges_iff _ _ _).1 he).resolve_left (hempty p q)
    cases ha
  · by_cases hqold : ⟨p, a, q⟩ ∈ n.edges
    · by_cases hrold : ⟨p, a, r⟩ ∈ n.edges
      · exact hunique p a q r hqold hrold
      · exact absurd hqold (h.not_mem_edges hn hrold hr q)
    · by_cases hrold : ⟨p, a, r⟩ ∈ n.edges
      · exact absurd hrold (h.not_mem_edges hn hqold hq r)
      · rw [h.target_eq hqold hq, h.target_eq hrold hr]

/-! ## What completing does -/

/-- What it is to complete `n`: the automaton `m` lacks no edge, and is `n` itself or `n` with a
sink. -/
structure CompletionOf (n m : Nfa) : Prop where
  accepts_eq : ∀ w, m.accepts w = n.accepts w
  alphabet_eq : m.alphabet = n.alphabet
  start_eq : m.start = n.start
  isComplete : m.IsComplete
  unchanged : n.IsComplete → m = n
  hasSink : ¬ n.IsComplete → HasSink n m
  isDeterministic : n.isDeterministic = true → m.isDeterministic = true
  again : m.complete = m

theorem completionOf_complete (hn : n.WellFormed) : CompletionOf n n.complete := by
  have hsink : ¬ n.IsComplete → HasSink n n.complete := by
    intro h
    rw [complete_of_not_isComplete h]
    exact hn.hasSink_withSink
  refine { accepts_eq := hn.accepts_complete,
           alphabet_eq := SortedSet.ext fun _ => mem_alphabet_complete, start_eq := ?_,
           isComplete := n.isComplete_complete, unchanged := complete_of_isComplete,
           hasSink := hsink, isDeterministic := fun hdet => ?_, again := n.complete_complete }
  · rw [complete_eq]
    split <;> rfl
  · by_cases h : n.IsComplete
    · rw [complete_of_isComplete h]
      exact hdet
    · exact (hsink h).isDeterministic hn hdet

/-- The label of the sink is in use, and one state lacks both characters, but has an empty move. -/
theorem completionOf_complete_primed :
    let n : Nfa := ⟨⟨["trash", "q"]⟩, 0, .singleton 1,
      .ofList [⟨0, .epsilon, 1⟩, ⟨1, .char 'a', 0⟩, ⟨1, .char 'a', 1⟩, ⟨1, .char 'b', 1⟩]⟩
    n.complete.labels = ⟨["trash", "q", "trash'"]⟩ ∧ CompletionOf n n.complete :=
  ⟨by decide +kernel, completionOf_complete (by decide +kernel)⟩

/-! ## The sink comes and goes -/

theorem WellFormed.liveStates_withSink (hn : n.WellFormed) :
    n.withSink.liveStates = n.liveStates := by
  ext q
  rw [mem_liveStates, mem_liveStates]
  constructor
  · rintro ⟨r, hr, w, hpath⟩
    exact ⟨r, hr, w, hn.path_of_path_withSink hpath (Nat.ne_of_lt (hn.accepting_lt r hr))⟩
  · rintro ⟨r, hr, w, hpath⟩
    exact ⟨r, hr, w, Path.rename (f := id) (fun e he => mem_edges_withSink.2 (.inl he)) hpath⟩

theorem WellFormed.prune_withSink (hn : n.WellFormed) : n.withSink.prune = n.prune := by
  have hkept : n.withSink.kept = n.kept := by
    rw [kept, kept, hn.liveStates_withSink]
    rfl
  rw [prune_eq_restrict, prune_eq_restrict, hkept]
  apply restrict_congr
  · exact fun q hq => label_withSink (hn.kept_lt hq)
  · rfl
  · exact fun q _ => Iff.rfl
  · intro p a q _ hq
    rw [mem_edges_withSink]
    apply or_iff_left
    rintro ⟨rfl, -⟩
    exact Nat.lt_irrefl _ (hn.kept_lt hq)

/-- Pruning takes the sink out again, with all that came with it. -/
theorem prune_complete (hn : n.WellFormed) : n.complete.prune = n.prune := by
  by_cases h : n.IsComplete
  · rw [complete_of_isComplete h]
  · rw [complete_of_not_isComplete h, hn.prune_withSink]

/-- A dead start, a state with the label of the sink, and a character on edges to dead states
only. -/
theorem prune_complete_trash :
    let n : Nfa := ⟨⟨["trash", "p", "q"]⟩, 1, .singleton 2,
      .ofList [⟨1, .char 'a', 0⟩, ⟨2, .char 'b', 0⟩, ⟨2, .char 'a', 2⟩]⟩
    n.complete.size = 4 ∧ n.prune = ⟨⟨["p", "q"]⟩, 0, .singleton 1, .singleton ⟨1, .char 'a', 1⟩⟩ ∧
      n.complete.prune = n.prune :=
  ⟨by decide +kernel, by decide +kernel, prune_complete (by decide +kernel)⟩

end RegularLanguages.Nfa
