import RegularLanguages.Dfa.Builder
import RegularLanguages.Proofs.Dfa.Embedding
import RegularLanguages.Proofs.LabelTable

/-!
# Automata that are built by hand

Every operation of a builder creates the states that it names before it uses them, so that what is
built is well-formed after every operation. The states are counted beside the automaton: a new
state counts as one, and a state that is named counts together with all before it. There are as
many labels as states have been counted.
-/

namespace RegularLanguages

namespace Nfa

/-- `Built k n` says that operations of a builder by which `k` states were counted lead to `n`. -/
inductive Built : Nat → Nfa → Prop
  | single (label : String) : Built 1 (single label)
  | addState {k : Nat} {n : Nfa} : Built k n → Built (k + 1) n.addState.2
  | addLabeledState {k : Nat} {n : Nfa} (label : String) :
    Built k n → Built (max k ((n.addLabeledState label).1 + 1)) (n.addLabeledState label).2
  | setStart {k : Nat} {n : Nfa} (q : Nat) : Built k n → Built (max k (q + 1)) (n.setStart q)
  | addAccepting {k : Nat} {n : Nfa} (q : Nat) : Built k n →
      Built (max k (q + 1)) (n.addAccepting q)
  | addTransition {k : Nat} {n n' : Nfa} {p q : Nat} {c : Char} :
    Built k n → n.addTransition p c q = .ok n' → Built (max (max k (p + 1)) (q + 1)) n'
  | addEmptyMove {k : Nat} {n : Nfa} (p q : Nat) :
    Built k n → Built (max (max k (p + 1)) (q + 1)) (n.addEmptyMove p q)

variable {n : Nfa}

theorem wellFormed_single (label : String) : (single label).WellFormed where
  labels_nodup := List.nodup_singleton label
  start_lt := Nat.zero_lt_one
  accepting_lt := fun q hq => absurd hq (StateSet.not_mem_empty q)
  source_lt := fun e he => absurd he (SortedSet.not_mem_empty e)
  target_lt := fun e he => absurd he (SortedSet.not_mem_empty e)

theorem WellFormed.withLabels (hn : n.WellFormed) {labels : LabelTable}
    (hnodup : labels.toList.Nodup)
    (hle : n.size ≤ labels.size) : { n with labels := labels }.WellFormed where
  labels_nodup := hnodup
  start_lt := Nat.lt_of_lt_of_le hn.start_lt hle
  accepting_lt := fun q hq => Nat.lt_of_lt_of_le (hn.accepting_lt q hq) hle
  source_lt := fun e he => Nat.lt_of_lt_of_le (hn.source_lt e he) hle
  target_lt := fun e he => Nat.lt_of_lt_of_le (hn.target_lt e he) hle

theorem WellFormed.withEdges (hn : n.WellFormed) {edges : SortedSet Edge}
    (hsub : ∀ e ∈ edges, e ∈ n.edges) :
    { n with edges := edges }.WellFormed where
  labels_nodup := hn.labels_nodup
  start_lt := hn.start_lt
  accepting_lt := hn.accepting_lt
  source_lt := fun e he => hn.source_lt e (hsub e he)
  target_lt := fun e he => hn.target_lt e (hsub e he)

theorem size_reserve (n : Nfa) (q : Nat) : (n.reserve q).size = max n.size (q + 1) :=
  LabelTable.size_reserve n.labels q

theorem WellFormed.reserve (hn : n.WellFormed) (q : Nat) : (n.reserve q).WellFormed := by
  apply hn.withLabels (LabelTable.nodup_reserve hn.labels_nodup q)
  rw [LabelTable.size_reserve]
  exact Nat.le_max_left _ _

theorem WellFormed.addLabeledState (hn : n.WellFormed) (label : String) :
    (n.addLabeledState label).2.WellFormed := by
  apply hn.withLabels (LabelTable.nodup_intern hn.labels_nodup label)
  rw [LabelTable.size_intern]
  exact Nat.le_max_left _ _

theorem size_setStart (n : Nfa) (q : Nat) : (n.setStart q).size = max n.size (q + 1) :=
  n.size_reserve q

theorem WellFormed.setStart (hn : n.WellFormed) (q : Nat) : (n.setStart q).WellFormed where
  labels_nodup := (hn.reserve q).labels_nodup
  start_lt := by
    rw [size_setStart]
    exact Nat.le_max_right _ _
  accepting_lt := (hn.reserve q).accepting_lt
  source_lt := (hn.reserve q).source_lt
  target_lt := (hn.reserve q).target_lt

theorem size_addAccepting (n : Nfa) (q : Nat) : (n.addAccepting q).size = max n.size (q + 1) :=
  n.size_reserve q

theorem WellFormed.addAccepting (hn : n.WellFormed) (q : Nat) : (n.addAccepting q).WellFormed where
  labels_nodup := (hn.reserve q).labels_nodup
  start_lt := (hn.reserve q).start_lt
  accepting_lt := by
    intro p hp
    rcases StateSet.mem_insert.1 hp with rfl | hp
    · rw [size_addAccepting]
      exact Nat.le_max_right _ _
    · exact (hn.reserve q).accepting_lt p hp
  source_lt := (hn.reserve q).source_lt
  target_lt := (hn.reserve q).target_lt

theorem size_addEdge (n : Nfa) (e : Edge) :
    (n.addEdge e).size = max (max n.size (e.source + 1)) (e.target + 1) := by
  rw [← n.size_reserve]
  exact (n.reserve e.source).size_reserve e.target

theorem WellFormed.addEdge (hn : n.WellFormed) (e : Edge) : (n.addEdge e).WellFormed := by
  have hold := (hn.reserve e.source).reserve e.target
  have hends : e.source < (n.addEdge e).size ∧ e.target < (n.addEdge e).size := by
    rw [size_addEdge]
    omega
  refine ⟨hold.labels_nodup, hold.start_lt, hold.accepting_lt, ?_, ?_⟩
  · intro d hd
    rcases SortedSet.mem_insert.1 hd with rfl | hd
    · exact hends.1
    · exact hold.source_lt d hd
  · intro d hd
    rcases SortedSet.mem_insert.1 hd with rfl | hd
    · exact hends.2
    · exact hold.target_lt d hd

theorem addTransition_eq_ok_iff {n' : Nfa} {p q : Nat} {c : Char} :
    n.addTransition p c q = .ok n' ↔ Symbol.isInput c = true ∧ n.addEdge ⟨p, .char c, q⟩ = n' := by
  unfold addTransition
  split_ifs with hc <;> simp [hc]

theorem Built.wellFormed {k : Nat} (h : Built k n) : n.WellFormed ∧ n.size = k := by
  induction h with
  | single label => exact ⟨wellFormed_single label, rfl⟩
  | @addState k n _ ih =>
      refine ⟨ih.1.reserve n.size, ?_⟩
      change (n.reserve n.size).size = k + 1
      rw [size_reserve, ih.2]
      exact Nat.max_eq_right (Nat.le_succ k)
  | @addLabeledState k n label _ ih =>
      refine ⟨ih.1.addLabeledState label, ?_⟩
      rw [← ih.2]
      exact LabelTable.size_intern n.labels label
  | setStart q _ ih => exact ⟨ih.1.setStart q, by rw [size_setStart, ih.2]⟩
  | addAccepting q _ ih => exact ⟨ih.1.addAccepting q, by rw [size_addAccepting, ih.2]⟩
  | addTransition _ hok ih =>
      obtain ⟨-, rfl⟩ := addTransition_eq_ok_iff.1 hok
      exact ⟨ih.1.addEdge _, by rw [size_addEdge, ih.2]⟩
  | addEmptyMove p q _ ih => exact ⟨ih.1.addEdge _, by rw [Nfa.addEmptyMove, size_addEdge, ih.2]⟩

end Nfa

namespace Dfa

/-- `Built k d` says that operations of a builder by which `k` states were counted lead to `d`. -/
inductive Built : Nat → Dfa → Prop
  | single (label : String) : Built 1 (single label)
  | addState {k : Nat} {d : Dfa} : Built k d → Built (k + 1) d.addState.2
  | addLabeledState {k : Nat} {d : Dfa} (label : String) :
    Built k d → Built (max k ((d.addLabeledState label).1 + 1)) (d.addLabeledState label).2
  | setStart {k : Nat} {d : Dfa} (q : Nat) : Built k d → Built (max k (q + 1)) (d.setStart q)
  | addAccepting {k : Nat} {d : Dfa} (q : Nat) : Built k d →
      Built (max k (q + 1)) (d.addAccepting q)
  | addTransition {k : Nat} {d d' : Dfa} {p q : Nat} {c : Char} :
    Built k d → d.addTransition p c q = .ok d' → Built (max (max k (p + 1)) (q + 1)) d'

variable {d : Dfa} {p q : Nat} {c : Char}

/-- A move that is set is one more edge, of which another one may be lost. -/
theorem edge_of_setMove {e : Edge} (h : e ∈ (d.setMove p c q).toNfa.edges) :
    e ∈ (d.toNfa.addEdge ⟨p, .char c, q⟩).edges := by
  obtain ⟨p', _, q'⟩ := e
  obtain ⟨a, rfl, hstep⟩ := mem_edges_toNfa.1 h
  rw [step_eq_some_iff] at hstep
  rcases SortedMap.mem_place hstep with heq | hold
  · cases heq
    exact SortedSet.mem_insert.2 (.inl rfl)
  · exact SortedSet.mem_insert.2 (.inr (char_mem_edges_toNfa.2 (step_eq_some_iff.2 hold)))

theorem wellFormed_toNfa_setMove (h : d.toNfa.WellFormed) : (d.setMove p c q).toNfa.WellFormed :=
  (h.addEdge ⟨p, .char c, q⟩).withEdges fun _ he => edge_of_setMove he

theorem size_setMove : (d.setMove p c q).size = max (max d.size (p + 1)) (q + 1) :=
  d.toNfa.size_addEdge ⟨p, .char c, q⟩

theorem addTransition_eq_ok_iff {d' : Dfa} :
    d.addTransition p c q = .ok d' ↔ Symbol.isInput c = true ∧ d.setMove p c q = d' := by
  unfold addTransition
  split_ifs with hc <;> simp [hc]

/-- Apart from the moves, the operations do to an automaton what they do to the same automaton
among the nondeterministic ones. None of them keeps sets of states. -/
theorem Built.toNfa {k : Nat} (h : Built k d) :
    d.toNfa.WellFormed ∧ d.size = k ∧ d.subsets = none := by
  induction h with
  | single label => exact ⟨Nfa.wellFormed_single label, rfl, rfl⟩
  | @addState k d _ ih =>
      refine ⟨ih.1.reserve d.size, ?_, ih.2.2⟩
      change (d.toNfa.reserve d.size).size = k + 1
      rw [Nfa.size_reserve]
      change max d.size (d.size + 1) = k + 1
      rw [ih.2.1]
      exact Nat.max_eq_right (Nat.le_succ k)
  | @addLabeledState k d label _ ih =>
      refine ⟨ih.1.addLabeledState label, ?_, ih.2.2⟩
      rw [← ih.2.1]
      exact LabelTable.size_intern d.labels label
  | @setStart k d q _ ih =>
      refine ⟨ih.1.setStart q, ?_, ih.2.2⟩
      rw [← ih.2.1]
      exact d.toNfa.size_setStart q
  | @addAccepting k d q _ ih =>
      refine ⟨ih.1.addAccepting q, ?_, ih.2.2⟩
      rw [← ih.2.1]
      exact d.toNfa.size_addAccepting q
  | addTransition _ hok ih =>
      obtain ⟨-, rfl⟩ := addTransition_eq_ok_iff.1 hok
      exact ⟨wellFormed_toNfa_setMove ih.1, by rw [size_setMove, ih.2.1], ih.2.2⟩

theorem Built.wellFormed {k : Nat} (h : Built k d) : d.WellFormed ∧ d.size = k :=
  ⟨wellFormed_of_toNfa h.toNfa.1 h.toNfa.2.2, h.toNfa.2.1⟩

end Dfa

end RegularLanguages
