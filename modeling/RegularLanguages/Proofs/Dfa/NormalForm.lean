import RegularLanguages.Proofs.Dfa.Minimization

/-!
# Minimal automata as normal forms

Minimization brings the automata of one language to one form, whatever their numbering, their labels
and the states that play no part in the language. A canonical automaton with the numbers of its
states for labels is in that form already (`Canonical.minimize_eq`).
-/

namespace RegularLanguages.Dfa

variable {d e m n : Dfa}

theorem ext_fields (hlabels : m.labels = n.labels) (hstart : m.start = n.start)
    (haccepting : m.accepting = n.accepting) (hmoves : m.moves = n.moves)
    (hsubsets : m.subsets = n.subsets) : m = n := by
  cases m
  cases n
  simp only at hlabels hstart haccepting hmoves hsubsets
  rw [hlabels, hstart, haccepting, hmoves, hsubsets]

theorem run_congr (h : m.moves = n.moves) (q : Nat) (w : List Char) : m.run q w = n.run q w := by
  induction w generalizing q with
  | nil => rfl
  | cons c w ih =>
      rw [run_cons, run_cons, step, step, h]
      congr 1
      funext p
      exact ih p

theorem accepts_congr (hstart : m.start = n.start) (haccepting : m.accepting = n.accepting)
    (hmoves : m.moves = n.moves) (w : List Char) : m.accepts w = n.accepts w := by
  rw [Bool.eq_iff_iff, accepts_iff, accepts_iff, hstart, haccepting, run_congr hmoves]

theorem alphabet_congr (h : m.moves = n.moves) : m.alphabet = n.alphabet := by
  rw [alphabet, alphabet, h]

/-! ## Automata of one language -/

theorem labels_minimize (d : Dfa) : d.minimize.labels = .sequential d.minimize.size := by
  rw [size_minimize, minimize, List.length_map]

theorem minimize_eq_of_accepts_eq (hd : d.WellFormed) (he : e.WellFormed)
    (h : ∀ w, d.accepts w = e.accepts w) :
    d.minimize.size = e.minimize.size ∧ d.minimize.start = e.minimize.start ∧
      d.minimize.accepting = e.minimize.accepting ∧ d.minimize.moves = e.minimize.moves := by
  rcases d.exists_accepts_or_empty with hne | hempty
  · have hne' : ∃ w, e.accepts w = true := by
      obtain ⟨w, hw⟩ := hne
      exact ⟨w, (h w).symm.trans hw⟩
    apply (hd.canonical_minimize hne).eq_of_accepts_eq (he.canonical_minimize hne')
    funext w
    rw [hd.accepts_minimize, he.accepts_minimize, h]
  · have hempty' : ∀ w, e.accepts w = false := fun w => (h w).symm.trans (hempty w)
    obtain ⟨hsize, haccepting, hmoves⟩ := hd.minimize_of_empty hempty
    obtain ⟨hsize', haccepting', hmoves'⟩ := he.minimize_of_empty hempty'
    rw [hsize, hsize', haccepting, haccepting', hmoves, hmoves']
    exact ⟨rfl, rfl, rfl, rfl⟩

/-! ## Automata that are minimal already -/

theorem Canonical.block_eq_singleton (hm : m.Canonical) {k i : Nat} (hk : k ∈ m.block i)
    (hlive : m.sink ∉ m.block i) : m.block i = .singleton k := by
  have hd := hm.toWellFormed
  have hlt : ∀ q ∈ m.block i, q < m.size := by
    intro q hq
    have hle := hd.le_sink_of_mem_totalStates (hd.mem_totalStates_of_mem_block hq)
    have hne : q ≠ m.sink := by
      intro heq
      exact hlive (heq ▸ hq)
    rw [sink] at hle hne
    omega
  apply StateSet.ext
  intro q
  rw [StateSet.mem_singleton]
  constructor
  · intro hq
    exact hm.separated q (hlt q hq) k (hlt k hk) ((hd.alike_iff_of_mem_block hq hk).2 rfl)
  · rintro rfl
    exact hk

theorem mergedSubset_singleton (subsets : List StateSet) (k : Nat) :
    mergedSubset subsets (.singleton k) = subsets[k]?.getD ∅ := by
  rw [mergedSubset, StateSet.toList_singleton, List.foldl_cons, List.foldl_nil]
  apply StateSet.ext
  intro q
  rw [StateSet.mem_union]
  exact or_iff_right (StateSet.not_mem_empty q)

theorem Canonical.exists_accepts (hm : m.Canonical) : ∃ w, m.accepts w = true :=
  hm.live m.start hm.start_lt

theorem Canonical.minimize_agrees (hm : m.Canonical) :
    m.minimize.size = m.size ∧ m.minimize.start = m.start ∧ m.minimize.accepting = m.accepting ∧
      m.minimize.moves = m.moves := by
  have hd := hm.toWellFormed
  apply (hd.canonical_minimize hm.exists_accepts).eq_of_accepts_eq hm
  funext w
  exact hd.accepts_minimize w

theorem Canonical.exists_visit (hm : m.Canonical) {k : Nat} (hk : k < m.size) :
    ∃ v, (m.liveBlocks m.blocks)[k]? = some v ∧ m.block v.node = .singleton k := by
  have hd := hm.toWellFormed
  obtain ⟨hsize, hstart, -, hmoves⟩ := hm.minimize_agrees
  rw [← hsize] at hk
  obtain ⟨w, hw⟩ := (hd.canonical_minimize hm.exists_accepts).lt_size_iff.1 hk
  obtain ⟨v, hv, p, hp, hpv, hlive⟩ := (hd.run_minimize_eq_some_iff hm.exists_accepts).1 hw
  have hpk : p = k := by
    rw [run_congr hmoves, hstart, hp, Option.some.injEq] at hw
    exact hw
  rw [← hpk] at hv ⊢
  exact ⟨v, hv, hm.block_eq_singleton hpv hlive⟩

theorem Canonical.length_liveBlocks (hm : m.Canonical) :
    (m.liveBlocks m.blocks).length = m.size := by
  have hsize := hm.minimize_agrees.1
  have hpos := hm.start_lt
  obtain ⟨v, hv, -⟩ := hm.exists_visit (k := 0) (by omega)
  have hlt := (List.getElem?_eq_some_iff.1 hv).1
  rw [size_minimize] at hsize
  omega

theorem Canonical.subsets_minimize (hm : m.Canonical) : m.minimize.subsets = m.subsets := by
  have hlength := hm.length_liveBlocks
  have hne : m.liveBlocks m.blocks ≠ [] := by
    have hpos := hm.start_lt
    rw [← List.length_pos_iff]
    omega
  rw [subsets_minimize_of_ne_nil hne]
  cases hsubsets : m.subsets with
  | none => rfl
  | some subsets =>
      have hcount := hm.length_subsets subsets hsubsets
      rw [Option.map_some, Option.some.injEq]
      apply List.ext_getElem
      · rw [List.length_map, hlength, hcount]
      · intro k hk hk'
        obtain ⟨v, hv, hsingle⟩ := hm.exists_visit (hcount ▸ hk')
        obtain ⟨hlt, rfl⟩ := List.getElem?_eq_some_iff.1 hv
        rw [List.getElem_map, hsingle, mergedSubset_singleton, List.getElem?_eq_getElem hk',
          Option.getD_some]

/-- A canonical automaton whose labels are the numbers of its states is its own minimization. -/
theorem Canonical.minimize_eq (hm : m.Canonical) (hlabels : m.labels = .sequential m.size) :
    m.minimize = m := by
  obtain ⟨hsize, hstart, haccepting, hmoves⟩ := hm.minimize_agrees
  apply ext_fields _ hstart haccepting hmoves hm.subsets_minimize
  rw [labels_minimize, hsize, hlabels]

theorem WellFormed.minimize_minimize_of_empty (hd : d.WellFormed) (h : ∀ w, d.accepts w = false) :
    d.minimize.minimize = d.minimize := by
  have hm := hd.minimize
  have hempty : ∀ w, d.minimize.accepts w = false := fun w => (hd.accepts_minimize w).trans (h w)
  obtain ⟨hsize, hstart, haccepting, hmoves⟩ := minimize_eq_of_accepts_eq hm hd hd.accepts_minimize
  apply ext_fields _ hstart haccepting hmoves
  · rw [subsets_minimize_of_eq_nil (hm.liveBlocks_eq_nil hempty),
      subsets_minimize_of_eq_nil (hd.liveBlocks_eq_nil h), start_minimize, Option.map_map]
    rfl
  · rw [labels_minimize, labels_minimize, hsize]

/-! ## Normal forms -/

/-- Automata accept one language if and only if their minimal automata are the same but for the sets
that the states stand for, and a minimal automaton does not change any more. -/
theorem minimize_normalForm (hd : d.WellFormed) (he : e.WellFormed) :
    ((∀ w, d.accepts w = e.accepts w) ↔
      d.minimize.size = e.minimize.size ∧ d.minimize.start = e.minimize.start ∧
        d.minimize.accepting = e.minimize.accepting ∧ d.minimize.moves = e.minimize.moves ∧
        d.minimize.alphabet = e.minimize.alphabet ∧ d.minimize.labels = e.minimize.labels) ∧
      d.minimize.minimize = d.minimize := by
  refine ⟨⟨?_, ?_⟩, ?_⟩
  · intro h
    obtain ⟨hsize, hstart, haccepting, hmoves⟩ := minimize_eq_of_accepts_eq hd he h
    refine ⟨hsize, hstart, haccepting, hmoves, alphabet_congr hmoves, ?_⟩
    rw [labels_minimize, labels_minimize, hsize]
  · rintro ⟨-, hstart, haccepting, hmoves, -, -⟩ w
    rw [← hd.accepts_minimize, ← he.accepts_minimize]
    exact accepts_congr hstart haccepting hmoves w
  · rcases d.exists_accepts_or_empty with h | hempty
    · exact (hd.canonical_minimize h).minimize_eq d.labels_minimize
    · exact hd.minimize_minimize_of_empty hempty

/-- Automata of the one word `a`, which differ in numbers, labels and alphabet. -/
theorem minimize_normalForm_single :
    let d : Dfa := ⟨.sequential 4, 0, .ofList [1, 3],
      .ofList [((0, 'a'), 1), ((1, 'b'), 2), ((3, 'a'), 1)], none⟩
    let e : Dfa := ⟨⟨["end", "start"]⟩, 1, .singleton 0, .ofList [((1, 'a'), 0)], none⟩
    (∀ w, d.accepts w = e.accepts w) ∧ d.minimize.minimize = d.minimize := by
  intro d e
  have h := minimize_normalForm (d := d) (e := e) (by decide +kernel) (by decide +kernel)
  exact ⟨h.1.2 (by decide +kernel), h.2⟩

end RegularLanguages.Dfa
