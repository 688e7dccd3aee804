import RegularLanguages.Nfa.DeadStates
import RegularLanguages.Proofs.Nfa.Renaming

/-!
# Dead states may come and go

A path to an accepting state passes live states only, so nothing is lost with the dead ones
(`Nfa.WellFormed.accepts_prune`). No path leads back from the state that `complete` adds, which is
not accepting, so nothing is won by it (`Nfa.WellFormed.accepts_complete`).
-/

namespace RegularLanguages.Nfa

variable {n : Nfa} {keep : StateSet} {p q : Nat} {a : Symbol} {w : List Char}

/-! ## Live states -/

theorem leads_iff :
    Leads (n.edges.toList.map fun e => (e.source, e.target)) p q ↔ ∃ w, Path n p w q := by
  constructor
  · intro h
    induction h with
    | refl q => exact ⟨[], .refl q⟩
    | step he _ ih =>
        obtain ⟨⟨o, a, q⟩, hedge, heq⟩ := List.mem_map.1 he
        cases heq
        obtain ⟨w, hw⟩ := ih
        cases a with
        | epsilon => exact ⟨_, .empty hedge hw⟩
        | char c => exact ⟨_, .char hedge hw⟩
  · rintro ⟨w, hw⟩
    induction hw with
    | refl q => exact .refl q
    | empty he _ ih => exact .step (List.mem_map.2 ⟨_, he, rfl⟩) ih
    | char he _ ih => exact .step (List.mem_map.2 ⟨_, he, rfl⟩) ih

theorem leads_swap_iff {edges : List (Nat × Nat)} :
    Leads (edges.map Prod.swap) q p ↔ Leads edges p q := by
  have hswap : ∀ {edges : List (Nat × Nat)} {p q : Nat}, Leads edges p q →
      Leads (edges.map Prod.swap) q p := by
    intro edges p q h
    induction h with
    | refl q => exact .refl q
    | step he _ ih => exact ih.trans (.step (List.mem_map.2 ⟨_, he, rfl⟩) (.refl _))
  refine ⟨fun h => ?_, hswap⟩
  simpa using hswap h

theorem leads_back_iff :
    Leads (n.edges.toList.map fun e => (e.target, e.source)) q p ↔ ∃ w, Path n p w q := by
  rw [← leads_iff, ← leads_swap_iff, List.map_map]
  rfl

/-- A state is live if some word leads from it to an accepting state. -/
theorem mem_liveStates : q ∈ n.liveStates ↔ ∃ f ∈ n.accepting, ∃ w, Path n q w f := by
  rw [liveStates, StateSet.mem_reach]
  simp only [leads_back_iff]

theorem WellFormed.liveStates_lt (hn : n.WellFormed) (hq : q ∈ n.liveStates) : q < n.size := by
  obtain ⟨f, hf, w, hw⟩ := mem_liveStates.1 hq
  cases hw with
  | refl => exact hn.accepting_lt q hf
  | empty he _ => exact (hn.ends_lt he).1
  | char he _ => exact (hn.ends_lt he).1

/-! ## Parts of automata -/

def part (n : Nfa) (keep : StateSet) : Nfa :=
  { n with
    accepting := n.accepting ∩ keep
    edges := n.edges.filter fun e => decide (e.source ∈ keep) && decide (e.target ∈ keep) }

theorem restrict_eq_rename (n : Nfa) (keep : StateSet) :
    n.restrict keep =
      (n.part keep).rename (n.labels.project keep.toList) (Index.ofList keep.toList).place := rfl

theorem mem_edges_part :
    ⟨p, a, q⟩ ∈ (n.part keep).edges ↔ ⟨p, a, q⟩ ∈ n.edges ∧ p ∈ keep ∧ q ∈ keep := by
  rw [part, SortedSet.mem_filter, Bool.and_eq_true, decide_eq_true_iff, decide_eq_true_iff]

theorem within_part (hstart : n.start ∈ keep) : (n.part keep).Within (· ∈ keep) where
  start := hstart
  accepting := fun _ hq => (StateSet.mem_inter.1 hq).2
  ends := fun he => (mem_edges_part.1 he).2

theorem wellFormed_restrict (hstart : n.start ∈ keep) : (n.restrict keep).WellFormed := by
  rw [restrict_eq_rename]
  apply (within_part hstart).wellFormed_rename (LabelTable.nodup_project _ _)
  intro q hq
  rw [LabelTable.size_project]
  exact Index.place_lt_length (StateSet.mem_toList.2 hq)

theorem size_restrict (n : Nfa) (keep : StateSet) : (n.restrict keep).size = keep.toList.length :=
  LabelTable.size_project _ _

theorem accepts_restrict (hstart : n.start ∈ keep) (w : List Char) :
    (n.restrict keep).accepts w = (n.part keep).accepts w := by
  rw [restrict_eq_rename]
  apply (within_part hstart).accepts_rename
  intro p q hp hpq
  exact Index.place_inj (StateSet.mem_toList.2 hp) hpq

theorem mem_alphabet_restrict {c : Char} (h : c ∈ (n.restrict keep).alphabet) : c ∈ n.alphabet := by
  rw [restrict_eq_rename, alphabet_rename] at h
  obtain ⟨p, q, he⟩ := mem_alphabet.1 h
  exact mem_alphabet.2 ⟨p, q, (mem_edges_part.1 he).1⟩

theorem Path.of_part (h : Path (n.part keep) p w q) : Path n p w q := by
  induction h with
  | refl => exact .refl _
  | empty he _ ih => exact .empty (mem_edges_part.1 he).1 ih
  | char he _ ih => exact .char (mem_edges_part.1 he).1 ih

/-- A path to an accepting state goes through live states after its first one. -/
theorem Path.part (hlive : ∀ q ∈ n.liveStates, q ∈ keep) (h : Path n p w q) (hp : p ∈ keep)
    (hq : q ∈ n.accepting) : Path (n.part keep) p w q := by
  induction h with
  | refl => exact .refl _
  | empty he hpath ih =>
      have hmid := hlive _ (mem_liveStates.2 ⟨_, hq, _, hpath⟩)
      exact .empty (mem_edges_part.2 ⟨he, hp, hmid⟩) (ih hmid hq)
  | char he hpath ih =>
      have hmid := hlive _ (mem_liveStates.2 ⟨_, hq, _, hpath⟩)
      exact .char (mem_edges_part.2 ⟨he, hp, hmid⟩) (ih hmid hq)

theorem accepts_part (hlive : ∀ q ∈ n.liveStates, q ∈ keep) (hstart : n.start ∈ keep)
    (w : List Char) :
    (n.part keep).accepts w = n.accepts w := by
  rw [Bool.eq_iff_iff, accepts_iff_path, accepts_iff_path]
  constructor
  · rintro ⟨q, hq, hpath⟩
    exact ⟨q, (StateSet.mem_inter.1 hq).1, hpath.of_part⟩
  · rintro ⟨q, hq, hpath⟩
    have hkeep := hlive q (mem_liveStates.2 ⟨q, hq, [], .refl q⟩)
    exact ⟨q, StateSet.mem_inter.2 ⟨hq, hkeep⟩, hpath.part hlive hstart hq⟩

/-! ## Without dead states -/

def kept (n : Nfa) : StateSet := n.liveStates.insert n.start

theorem mem_kept : q ∈ n.kept ↔ q = n.start ∨ q ∈ n.liveStates := StateSet.mem_insert

theorem prune_eq_restrict (n : Nfa) : n.prune = n.restrict n.kept := rfl

theorem start_mem_kept (n : Nfa) : n.start ∈ n.kept := mem_kept.2 (.inl rfl)

theorem WellFormed.kept_lt (hn : n.WellFormed) (hq : q ∈ n.kept) : q < n.size := by
  rcases mem_kept.1 hq with rfl | hq
  · exact hn.start_lt
  · exact hn.liveStates_lt hq

theorem wellFormed_prune (n : Nfa) : n.prune.WellFormed := wellFormed_restrict n.start_mem_kept

theorem accepts_prune (n : Nfa) (w : List Char) : n.prune.accepts w = n.accepts w := by
  rw [prune_eq_restrict, accepts_restrict n.start_mem_kept]
  exact accepts_part (fun q hq => mem_kept.2 (.inr hq)) n.start_mem_kept w

theorem mem_alphabet_prune {c : Char} (h : c ∈ n.prune.alphabet) : c ∈ n.alphabet :=
  mem_alphabet_restrict h

/-! ## With a sink -/

theorem mem_missing {c : Char} :
    (q, c) ∈ n.missing ↔ q < n.size ∧ c ∈ n.alphabet ∧ ∀ p, ⟨q, .char c, p⟩ ∉ n.edges := by
  have hsymbols : ∀ q, Symbol.char c ∈ rowSymbols (n.edgeRows[q]?.getD []) ↔
      ∃ p, ⟨q, .char c, p⟩ ∈ n.edges := by
    intro q
    rw [getD_edgeRows]
    exact mem_symbolsFrom
  unfold missing
  rw [List.mem_flatMap]
  constructor
  · rintro ⟨q', hq', hmem⟩
    obtain ⟨c', hc', heq⟩ := List.mem_map.1 hmem
    cases heq
    obtain ⟨halphabet, hnone⟩ := List.mem_filter.1 hc'
    rw [Bool.not_eq_true', decide_eq_false_iff_not, hsymbols, not_exists] at hnone
    exact ⟨List.mem_range.1 hq', halphabet, hnone⟩
  · rintro ⟨hlt, halphabet, hnone⟩
    refine ⟨q, List.mem_range.2 hlt, List.mem_map.2 ⟨c, List.mem_filter.2 ⟨halphabet, ?_⟩, rfl⟩⟩
    rw [Bool.not_eq_true', decide_eq_false_iff_not, hsymbols, not_exists]
    exact hnone

def withSink (n : Nfa) : Nfa :=
  { n with
    labels := n.labels.internFresh "trash"
    edges := SortedSet.ofList (n.missing.map fun (q, c) => ⟨q, .char c, n.size⟩) ∪
      (n.edges ∪ SortedSet.ofList (n.alphabet.toList.map fun c => ⟨n.size, .char c, n.size⟩)) }

theorem complete_eq (n : Nfa) : n.complete = if n.missing.isEmpty then n else n.withSink := rfl

theorem mem_edges_withSink :
    ⟨p, a, q⟩ ∈ n.withSink.edges ↔
      ⟨p, a, q⟩ ∈ n.edges ∨
        q = n.size ∧ ∃ c, a = .char c ∧ ((p, c) ∈ n.missing ∨ p = n.size ∧ c ∈ n.alphabet) := by
  rw [withSink, SortedSet.mem_union, SortedSet.mem_union, SortedSet.mem_ofList,
    SortedSet.mem_ofList, List.mem_map, List.mem_map]
  constructor
  · rintro (⟨⟨p', c⟩, hmissing, heq⟩ | he | ⟨c, hc, heq⟩)
    · cases heq
      exact .inr ⟨rfl, c, rfl, .inl hmissing⟩
    · exact .inl he
    · cases heq
      exact .inr ⟨rfl, c, rfl, .inr ⟨rfl, hc⟩⟩
  · rintro (he | ⟨rfl, c, rfl, hmissing | ⟨rfl, hc⟩⟩)
    · exact .inr (.inl he)
    · exact .inl ⟨_, hmissing, rfl⟩
    · exact .inr (.inr ⟨c, hc, rfl⟩)

theorem size_withSink (n : Nfa) : n.withSink.size = n.size + 1 :=
  LabelTable.size_internFresh _ _

theorem WellFormed.withSink (hn : n.WellFormed) : n.withSink.WellFormed := by
  have hends : ∀ e ∈ n.withSink.edges, e.source < n.withSink.size ∧ e.target < n.withSink.size := by
    rintro ⟨p, a, q⟩ hmem
    rw [size_withSink]
    dsimp only
    rcases mem_edges_withSink.1 hmem with he | ⟨rfl, c, -, hmissing | ⟨rfl, -⟩⟩
    · have := hn.ends_lt he
      omega
    · have := (mem_missing.1 hmissing).1
      omega
    · omega
  exact {
    labels_nodup := LabelTable.nodup_internFresh hn.labels_nodup _
    start_lt := by
      rw [size_withSink]
      exact Nat.lt_succ_of_lt hn.start_lt
    accepting_lt := by
      intro q hq
      rw [size_withSink]
      exact Nat.lt_succ_of_lt (hn.accepting_lt q hq)
    source_lt := fun e he => (hends e he).1
    target_lt := fun e he => (hends e he).2 }

theorem WellFormed.path_withSink_sink (hn : n.WellFormed) (h : Path n.withSink p w q)
    (hp : p = n.size) : q = n.size := by
  have hstay : ∀ {p a q}, ⟨p, a, q⟩ ∈ n.withSink.edges → p = n.size → q = n.size := by
    intro p a q hmem hp
    rcases mem_edges_withSink.1 hmem with he | ⟨hq, -⟩
    · exact absurd hp (Nat.ne_of_lt (hn.ends_lt he).1)
    · exact hq
  induction h with
  | refl => exact hp
  | empty he _ ih => exact ih (hstay he hp)
  | char he _ ih => exact ih (hstay he hp)

/-- A path to a state other than the sink does not pass the sink. -/
theorem WellFormed.path_of_path_withSink (hn : n.WellFormed) (h : Path n.withSink p w q)
    (hq : q ≠ n.size) : Path n p w q := by
  have hold : ∀ {p a q w r}, ⟨p, a, q⟩ ∈ n.withSink.edges → Path n.withSink q w r → r ≠ n.size →
      ⟨p, a, q⟩ ∈ n.edges := by
    intro p a q w r he hpath hr
    rcases mem_edges_withSink.1 he with he | ⟨rfl, -⟩
    · exact he
    · exact absurd (hn.path_withSink_sink hpath rfl) hr
  induction h with
  | refl => exact .refl _
  | empty he hpath ih => exact .empty (hold he hpath hq) (ih hq)
  | char he hpath ih => exact .char (hold he hpath hq) (ih hq)

theorem WellFormed.accepts_withSink (hn : n.WellFormed) (w : List Char) :
    n.withSink.accepts w = n.accepts w := by
  rw [Bool.eq_iff_iff, accepts_iff_path, accepts_iff_path]
  constructor
  · rintro ⟨q, hq, hpath⟩
    exact ⟨q, hq, hn.path_of_path_withSink hpath (Nat.ne_of_lt (hn.accepting_lt q hq))⟩
  · rintro ⟨q, hq, hpath⟩
    exact ⟨q, hq, Path.rename (f := id) (fun e he => mem_edges_withSink.2 (.inl he)) hpath⟩

theorem mem_alphabet_withSink {c : Char} : c ∈ n.withSink.alphabet ↔ c ∈ n.alphabet := by
  constructor
  · intro h
    obtain ⟨p, q, he⟩ := mem_alphabet.1 h
    rcases mem_edges_withSink.1 he with he | ⟨-, c', heq, hmissing | ⟨-, hc⟩⟩
    · exact mem_alphabet.2 ⟨p, q, he⟩
    · cases heq
      exact (mem_missing.1 hmissing).2.1
    · cases heq
      exact hc
  · intro h
    obtain ⟨p, q, he⟩ := mem_alphabet.1 h
    exact mem_alphabet.2 ⟨p, q, mem_edges_withSink.2 (.inl he)⟩

theorem WellFormed.complete (hn : n.WellFormed) : n.complete.WellFormed := by
  rw [complete_eq]
  split
  · exact hn
  · exact hn.withSink

theorem WellFormed.accepts_complete (hn : n.WellFormed) (w : List Char) :
    n.complete.accepts w = n.accepts w := by
  rw [complete_eq]
  split
  · rfl
  · exact hn.accepts_withSink w

theorem mem_alphabet_complete {c : Char} : c ∈ n.complete.alphabet ↔ c ∈ n.alphabet := by
  rw [complete_eq]
  split
  · exact Iff.rfl
  · exact mem_alphabet_withSink

theorem missing_complete (n : Nfa) : n.complete.missing = [] := by
  rw [complete_eq]
  split
  · rename_i h
    exact List.isEmpty_iff.1 h
  · rw [List.eq_nil_iff_forall_not_mem]
    rintro ⟨q, c⟩ h
    obtain ⟨hlt, halphabet, hnone⟩ := mem_missing.1 h
    rw [size_withSink] at hlt
    rw [mem_alphabet_withSink] at halphabet
    by_cases hq : q = n.size
    · exact hnone n.size (mem_edges_withSink.2 (.inr ⟨rfl, c, rfl, .inr ⟨hq, halphabet⟩⟩))
    · by_cases hmissing : (q, c) ∈ n.missing
      · exact hnone n.size (mem_edges_withSink.2 (.inr ⟨rfl, c, rfl, .inl hmissing⟩))
      · rw [mem_missing, not_and, not_and] at hmissing
        apply hmissing (by omega) halphabet
        intro p he
        exact hnone p (mem_edges_withSink.2 (.inl he))

end RegularLanguages.Nfa
