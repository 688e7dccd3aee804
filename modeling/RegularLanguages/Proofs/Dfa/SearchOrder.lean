import RegularLanguages.Proofs.Dfa.Embedding
import RegularLanguages.Proofs.Dfa.MergedSubsets
import RegularLanguages.Proofs.Dfa.RenamedSubsets

/-!
# Automata that searches leave as they are

Three searches number states: determinization goes through sets, minimization through blocks, and
`renumber` along edges. Each finds what it looks for in the order of the least words that lead
there. So an automaton whose states stand in this order is `InSearchOrder` whichever search has
numbered it, a search along its moves meets the numbers one after another
(`InSearchOrder.nodes_walk`), and so does a search through the sets or along the edges of `toNfa`,
where only the names of the nodes and the labels differ.
-/

namespace RegularLanguages

open Search

namespace Dfa

variable {d : Dfa} {p q i j : Nat} {c : Char} {w : List Char} {t : StateSet}

/-! ## The search along the moves -/

def movesFrom (d : Dfa) (p : Nat) : List (Char × Nat) :=
  d.alphabet.toList.filterMap fun c => (d.step p c).map fun q => (c, q)

theorem mem_movesFrom : (c, q) ∈ d.movesFrom p ↔ d.step p c = some q := by
  rw [movesFrom, List.mem_filterMap]
  constructor
  · rintro ⟨a, -, ha⟩
    obtain ⟨r, hr, heq⟩ := Option.map_eq_some_iff.1 ha
    cases heq
    exact hr
  · intro h
    refine ⟨c, mem_alphabet.2 ⟨p, q, h⟩, ?_⟩
    rw [h, Option.map_some]

theorem ascendingRows_movesFrom (d : Dfa) : AscendingRows d.movesFrom := by
  intro p
  apply pairwise_filterMap_alphabet
  intro c e he
  obtain ⟨q, -, rfl⟩ := Option.map_eq_some_iff.1 he
  rfl

theorem spells_movesFrom_iff : Spells d.movesFrom p w q ↔ d.run p w = some q := by
  constructor
  · intro h
    induction h with
    | refl => rfl
    | step he _ ih =>
        rw [run_cons, mem_movesFrom.1 he]
        exact ih
  · intro h
    induction w generalizing p with
    | nil =>
        cases h
        exact .refl _
    | cons c w ih =>
        rw [run_cons, Option.bind_eq_some_iff] at h
        obtain ⟨r, hr, hw⟩ := h
        exact .step (mem_movesFrom.2 hr) (ih hw)

def walk (d : Dfa) : List (Visit Nat Char) := explore d.movesFrom (fun _ => false) d.size d.start

theorem WellFormed.enumerates_walk (hd : d.WellFormed) : Enumerates d.movesFrom d.start d.walk := by
  apply explore_enumerates d.ascendingRows_movesFrom
  apply reachesAtMost_of_lt
  intro w q hw
  exact hd.run_lt hd.start_lt (spells_movesFrom_iff.1 hw)

theorem leastWord_of_least (h : Least d.movesFrom d.start q w) : d.LeastWord q w :=
  ⟨spells_movesFrom_iff.1 h.1, fun u hu => h.2 u (spells_movesFrom_iff.2 hu)⟩

/-! ## States in the order of the search -/

/-- The states stand in the order of the words that lead to them, and their labels are their
numbers. -/
structure InSearchOrder (d : Dfa) : Prop extends WellFormed d where
  labels_eq : d.labels = .sequential d.size
  start_eq : d.start = 0
  numbered : d.NumberedByWords

theorem InSearchOrder.nodes_walk (h : d.InSearchOrder) :
    d.walk.map (·.node) = List.range d.size := by
  have hwalk := h.enumerates_walk
  have hleast : ∀ v ∈ d.walk, d.LeastWord v.node v.word :=
    fun v hv => leastWord_of_least (hwalk.least v hv)
  have hascending : (d.walk.map (·.node)).Pairwise (· < ·) := by
    rw [List.pairwise_map]
    apply hwalk.ascending.imp_of_mem
    intro u v hu hv huv
    exact (h.numbered.lt_iff _ _ _ _ (hleast u hu) (hleast v hv)).2 huv
  apply hascending.eq_of_mem_iff List.pairwise_lt_range
  intro q
  rw [List.mem_map, List.mem_range]
  constructor
  · rintro ⟨v, hv, rfl⟩
    exact h.run_lt h.start_lt (hleast v hv).1
  · intro hq
    obtain ⟨w, hw, -⟩ := h.numbered.exists_leastWord q hq
    exact hwalk.covers w q (spells_movesFrom_iff.2 hw)

/-! ## Determinizing once more -/

theorem mem_step_singleton : q ∈ d.toNfa.step (.singleton p) c ↔ d.step p c = some q := by
  rw [Nfa.mem_step]
  simp only [StateSet.mem_singleton, exists_eq_left, char_mem_edges_toNfa, path_toNfa_iff]
  constructor
  · rintro ⟨r, hr, hrq⟩
    cases hrq
    exact hr
  · intro h
    exact ⟨q, h, rfl⟩

theorem initial_toNfa (d : Dfa) : d.toNfa.initial = .singleton d.start := by
  apply StateSet.ext
  intro q
  rw [Nfa.initial, Nfa.mem_closure]
  simp only [StateSet.mem_singleton, exists_eq_left, path_toNfa_iff]
  exact ⟨fun h => (Option.some.inj h).symm, fun h => congrArg some h.symm⟩

theorem mem_setMoves_toNfa :
    (c, t) ∈ d.toNfa.setMoves (.singleton p) ↔ ∃ q, d.step p c = some q ∧ .singleton q = t := by
  rw [Nfa.mem_setMoves]
  constructor
  · rintro ⟨rfl, hne⟩
    obtain ⟨q, hq⟩ :=
      StateSet.isEmpty_eq_false_iff.1 (Bool.eq_false_iff.2 (mt StateSet.isEmpty_iff.1 hne))
    rw [mem_step_singleton] at hq
    refine ⟨q, hq, StateSet.ext fun r => ?_⟩
    rw [mem_step_singleton, hq, StateSet.mem_singleton, Option.some.injEq, eq_comm]
  · rintro ⟨q, hq, rfl⟩
    refine ⟨StateSet.ext fun r => ?_, fun hempty => StateSet.not_mem_empty q ?_⟩
    · rw [mem_step_singleton, hq, StateSet.mem_singleton, Option.some.injEq, eq_comm]
    · rw [← hempty, StateSet.mem_singleton]

theorem singleton_inj (h : StateSet.singleton p = .singleton q) : p = q := by
  rw [← StateSet.mem_singleton, ← h, StateSet.mem_singleton]

/-- The search through the sets goes along the moves. -/
theorem carries_singleton (d : Dfa) :
    Carries (fun _ => True) id StateSet.singleton d.movesFrom d.toNfa.setMoves where
  closed _ _ := trivial
  inj _ _ h := singleton_inj h
  mem_iff _ := by
    rw [mem_setMoves_toNfa]
    constructor
    · rintro ⟨q, hq, hset⟩
      exact ⟨_, q, mem_movesFrom.2 hq, rfl, hset⟩
    · rintro ⟨_, q, hq, rfl, hset⟩
      exact ⟨q, mem_movesFrom.1 hq, hset⟩

theorem InSearchOrder.nodes_activeSets (h : d.InSearchOrder) :
    d.toNfa.activeSets.map (·.node) = (List.range d.size).map .singleton := by
  have htab := Nfa.tabulates_determinize h.toNfa
  rw [initial_toNfa] at htab
  have hrename :=
    h.enumerates_walk.rename d.carries_singleton trivial (keepsLeast_id d.movesFrom d.start)
  rw [htab.toEnumerates.unique hrename, ← h.nodes_walk, List.map_map, List.map_map]
  rfl

theorem InSearchOrder.subset?_toNfa (h : d.InSearchOrder) :
    d.toNfa.determinize.subset? q = some t ↔ q < d.size ∧ .singleton q = t := by
  rw [Nfa.subset?_determinize, ← List.getElem?_map, h.nodes_activeSets, List.getElem?_map,
    Option.map_eq_some_iff]
  simp [List.getElem?_eq_some_iff]

theorem InSearchOrder.accepting_toNfa (h : d.InSearchOrder) :
    d.toNfa.determinize.accepting = d.accepting := by
  apply StateSet.ext
  intro q
  rw [Nfa.mem_accepting_determinize]
  constructor
  · rintro ⟨s, hs, hacc⟩
    obtain ⟨-, rfl⟩ := h.subset?_toNfa.1 hs
    obtain ⟨r, hr, hacc⟩ := Nfa.isAccepting_iff.1 hacc
    rw [StateSet.mem_singleton.1 hr] at hacc
    exact hacc
  · intro hq
    exact ⟨_, h.subset?_toNfa.2 ⟨h.accepting_lt q hq, rfl⟩,
      Nfa.isAccepting_iff.2 ⟨q, StateSet.mem_singleton.2 rfl, hq⟩⟩

theorem InSearchOrder.step_toNfa (h : d.InSearchOrder) :
    d.toNfa.determinize.step i c = some j ↔ d.step i c = some j := by
  have hvisit : ∀ {k s}, (∃ v, d.toNfa.activeSets[k]? = some v ∧ v.node = s) ↔
      k < d.size ∧ .singleton k = s := by
    intro k s
    rw [← h.subset?_toNfa, Nfa.subset?_determinize, Option.map_eq_some_iff]
  rw [(Nfa.tabulates_determinize h.toNfa).step_eq_some_iff]
  constructor
  · rintro ⟨u, v, hu, hv, hmove⟩
    obtain ⟨-, hi⟩ := hvisit.1 ⟨u, hu, rfl⟩
    obtain ⟨-, hj⟩ := hvisit.1 ⟨v, hv, rfl⟩
    rw [← hi, ← hj, mem_setMoves_toNfa] at hmove
    obtain ⟨q, hq, hset⟩ := hmove
    rw [← singleton_inj hset]
    exact hq
  · intro hstep
    obtain ⟨hi, hj⟩ := h.ends_lt hstep
    obtain ⟨u, hu, hunode⟩ := hvisit.2 ⟨hi, rfl⟩
    obtain ⟨v, hv, hvnode⟩ := hvisit.2 ⟨hj, rfl⟩
    refine ⟨u, v, hu, hv, ?_⟩
    rw [hunode, hvnode]
    exact mem_setMoves_toNfa.2 ⟨j, hstep, rfl⟩

/-- Determinization gives the automaton back, each state the set of itself. -/
theorem InSearchOrder.determinize_toNfa (h : d.InSearchOrder) :
    d.toNfa.determinize = { d with subsets := some ((List.range d.size).map .singleton) } := by
  have hnodes := h.nodes_activeSets
  have hmoves : d.toNfa.determinize.moves = d.moves := by
    apply SortedMap.ext
    rintro ⟨i, c⟩
    apply Option.ext
    intro j
    exact h.step_toNfa
  refine ext_fields ?_ h.start_eq.symm h.accepting_toNfa hmoves ?_
  · rw [Nfa.determinize, hnodes, List.length_map, List.length_range]
    exact h.labels_eq.symm
  · rw [Nfa.determinize, hnodes]

/-! ## Renumbering once more -/

theorem isDeterministic_toNfa (d : Dfa) : d.toNfa.isDeterministic = true := by
  rw [Nfa.isDeterministic_iff]
  refine ⟨fun p q he => ?_, fun p a q r hq hr => ?_⟩
  · obtain ⟨c, hc, -⟩ := mem_edges_toNfa.1 he
    cases hc
  · obtain ⟨c, rfl, hstep⟩ := mem_edges_toNfa.1 hq
    rw [char_mem_edges_toNfa, hstep, Option.some.injEq] at hr
    exact hr

theorem carries_char (d : Dfa) :
    Carries (fun _ => True) Symbol.char id d.movesFrom d.toNfa.edgesFrom where
  closed _ _ := trivial
  inj _ _ h := h
  mem_iff _ := by
    rw [id_eq, Nfa.mem_edgesFrom, mem_edges_toNfa]
    constructor
    · rintro ⟨c, rfl, hc⟩
      exact ⟨c, _, mem_movesFrom.2 hc, rfl, rfl⟩
    · rintro ⟨c, _, hc, rfl, rfl⟩
      exact ⟨c, rfl, mem_movesFrom.1 hc⟩

theorem strictMono_char : StrictMono Symbol.char := by
  intro a b hab
  have hlt : (Symbol.char a).rank < (Symbol.char b).rank := Nat.succ_lt_succ hab
  exact hlt

theorem WellFormed.enumerates_edges (hd : d.WellFormed) : Enumerates d.toNfa.edgesFrom d.start
    (explore d.toNfa.edgesFrom (fun _ => false) d.toNfa.size d.toNfa.start) := by
  apply explore_enumerates (Nfa.ascendingRows_of_isDeterministic d.isDeterministic_toNfa)
  apply reachesAtMost_of_lt
  intro w q hw
  exact hd.toNfa.lt_of_spells hw hd.start_lt

theorem InSearchOrder.reached_toNfa (h : d.InSearchOrder) :
    d.toNfa.reached = List.range d.size := by
  have hrename := h.enumerates_walk.rename d.carries_char trivial
    (keepsLeast_of_strictMono strictMono_char d.movesFrom d.start)
  rw [Nfa.reached_eq, h.enumerates_edges.unique hrename, ← h.nodes_walk, List.map_map]
  rfl

theorem InSearchOrder.searchOrder_toNfa (h : d.InSearchOrder) :
    d.toNfa.searchOrder = List.range d.size := by
  have hunreached : d.toNfa.unreached = [] := by
    rw [List.eq_nil_iff_forall_not_mem]
    intro q hq
    obtain ⟨hlt, hnot⟩ := Nfa.mem_unreached.1 hq
    rw [h.reached_toNfa, List.mem_range] at hnot
    exact hnot hlt
  rw [Nfa.searchOrder_eq, h.reached_toNfa, hunreached, List.append_nil]

/-- Renumbering gives the automaton back, each label the new name of itself. -/
theorem InSearchOrder.renumber_toNfa (h : d.InSearchOrder) :
    d.toNfa.renumber = (d.toNfa, d.labels.toList.map fun l => (l, l)) := by
  have hself := h.toNfa.renumber_eq_self h.searchOrder_toNfa h.labels_eq
  rw [hself, h.labels_eq, LabelTable.sequential, List.map_map]
  rfl

/-! ## What is in the order of the search -/

theorem numberedByWords_of_moves_eq_empty (hsize : d.size = 1) (hstart : d.start = 0)
    (hmoves : d.moves = ∅) :
    d.NumberedByWords where
  exists_leastWord q hq := by
    have hzero : d.start = q := by omega
    exact ⟨[], congrArg some hzero, fun u _ => List.not_shortlex_nil_right⟩
  lt_iff p q u v hp hq := by
    obtain ⟨rfl, rfl⟩ := (run_of_moves_eq_empty hmoves).1 hp.1
    obtain ⟨rfl, rfl⟩ := (run_of_moves_eq_empty hmoves).1 hq.1
    simp

theorem WellFormed.inSearchOrder_minimize (hd : d.WellFormed) : d.minimize.InSearchOrder where
  toWellFormed := hd.minimize
  labels_eq := d.labels_minimize
  start_eq := d.start_minimize
  numbered := by
    rcases d.exists_accepts_or_empty with haccepts | hempty
    · exact (hd.canonical_minimize haccepts).numbered
    · obtain ⟨hsize, -, hmoves⟩ := hd.minimize_of_empty hempty
      exact numberedByWords_of_moves_eq_empty hsize d.start_minimize hmoves

/-- What it is for the searches to leave an automaton as it is. Determinization gives it back: its
states and labels, the start, the accepting states and the moves, and so the alphabet. State `q` is
then the set of `q` alone. Renumbering gives it back too, and every label the name that it had. -/
structure KeptBySearches (d : Dfa) : Prop where
  isDeterministic : d.toNfa.isDeterministic = true
  determinize_eq : d.toNfa.determinize =
    { d with subsets := some ((List.range d.size).map .singleton) }
  renumber_eq : d.toNfa.renumber = (d.toNfa, d.labels.toList.map fun l => (l, l))

theorem InSearchOrder.keptBySearches (h : d.InSearchOrder) : d.KeptBySearches where
  isDeterministic := d.isDeterministic_toNfa
  determinize_eq := h.determinize_toNfa
  renumber_eq := h.renumber_toNfa

end Dfa

namespace Nfa

variable {n : Nfa}

theorem WellFormed.inSearchOrder_determinize (hn : n.WellFormed) : n.determinize.InSearchOrder where
  toWellFormed := wellFormed_determinize hn
  labels_eq := by
    rw [Dfa.size, determinize, LabelTable.size_sequential]
  start_eq := rfl
  numbered := (tabulates_determinize hn).numberedByWords

/-- The searches for the sets, for the blocks and along the edges agree on the order of the
states. -/
theorem keptBySearches_determinize_minimize (hn : n.WellFormed) :
    n.determinize.KeptBySearches ∧ n.minimize.KeptBySearches :=
  ⟨hn.inSearchOrder_determinize.keptBySearches,
    (wellFormed_determinize hn).inSearchOrder_minimize.keptBySearches⟩

/-- Two sets that are one block, in an automaton whose states do not stand in the order of the
search. -/
theorem keptBySearches_determinize_minimize_merged :
    let n : Nfa := ⟨.sequential 4, 3, .ofList [0, 1],
      .ofList [⟨3, .epsilon, 2⟩, ⟨2, .char 'a', 1⟩, ⟨2, .char 'b', 0⟩, ⟨1, .char 'b', 1⟩,
        ⟨0, .char 'b', 0⟩]⟩
    n.determinize.size = 3 ∧ n.minimize.size = 2 ∧ n.determinize.KeptBySearches ∧
      n.minimize.KeptBySearches := by
  intro n
  exact ⟨by decide +kernel, by decide +kernel,
    keptBySearches_determinize_minimize (by decide +kernel)⟩

end Nfa

end RegularLanguages
