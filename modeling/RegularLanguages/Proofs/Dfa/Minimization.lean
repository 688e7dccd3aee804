import RegularLanguages.Dfa.Minimize
import RegularLanguages.Proofs.Dfa.Canonical
import RegularLanguages.Proofs.Dfa.Numbering
import RegularLanguages.Proofs.Dfa.Refinement

/-!
# Minimization

The moves between blocks do not depend on the state that is taken from a block, since the states of
a block are alike. So the search through the blocks follows the runs of the automaton, as long as
they do not fall into the block of the sink (`spells_blockNext_iff`), and the automaton of the
blocks is canonical unless it accepts nothing (`canonical_minimize`).
-/

namespace RegularLanguages.Dfa

open Search

variable {d : Dfa}

/-! ## Blocks and their representatives -/

theorem WellFormed.blockOf_eq_some_iff (hd : d.WellFormed) {q i : Nat} :
    blockOf (owners d.blocks) q = some i ↔ q ∈ d.block i := by
  have hmem : ∀ {j : Nat}, blockOf (owners d.blocks) q = some j → q ∈ d.block j := by
    intro j hj
    rw [blockOf_owners, List.findIdx?_eq_some_iff_getElem] at hj
    obtain ⟨hlt, hq, -⟩ := hj
    rw [block, List.getElem?_eq_getElem hlt, Option.getD_some]
    exact of_decide_eq_true hq
  constructor
  · exact hmem
  · intro hq
    have hsome : (blockOf (owners d.blocks) q).isSome = true := by
      rw [blockOf_owners, List.findIdx?_isSome, List.any_eq_true]
      by_cases hi : i < d.blocks.length
      · rw [block, List.getElem?_eq_getElem hi, Option.getD_some] at hq
        exact ⟨_, List.getElem_mem hi, decide_eq_true hq⟩
      · rw [block, List.getElem?_eq_none (Nat.not_lt.1 hi)] at hq
        exact absurd hq (StateSet.not_mem_empty q)
    obtain ⟨j, hj⟩ := Option.isSome_iff_exists.1 hsome
    rw [hj, Option.some.injEq]
    exact (hd.alike_iff_of_mem_block (hmem hj) hq).1 fun _ => rfl

theorem WellFormed.sink_not_mem_block_iff (hd : d.WellFormed) {q i : Nat} (hq : q ∈ d.block i) :
    d.sink ∉ d.block i ↔ ∃ w, d.acceptsFrom q w = true := by
  constructor
  · intro hsink
    by_contra hnone
    apply hsink
    apply hd.mem_block_of_alike hq (mem_totalStates.2 (.inl rfl))
    intro w
    rw [hd.acceptsFrom_sink, ← Bool.not_eq_true]
    exact fun hw => hnone ⟨w, hw⟩
  · rintro ⟨w, hw⟩ hsink
    rw [(hd.alike_iff_of_mem_block hq hsink).2 rfl, hd.acceptsFrom_sink] at hw
    cases hw

/-- The edges of the search: the blocks that the characters lead to, that of the sink left out. -/
def blockNext (d : Dfa) : Nat → List (Char × Nat) :=
  blockMoves (rowStep d.moveRows) (blockOf (owners d.blocks)) (blockOf (owners d.blocks) d.sink)
    d.alphabet.toList d.blocks.toArray

theorem WellFormed.mem_blockNext_first (hd : d.WellFormed) {q i j : Nat} {c : Char}
    (hq : (d.block i).first? = some q) :
    (c, j) ∈ d.blockNext i ↔ d.totalStep q c ∈ d.block j ∧ d.sink ∉ d.block j := by
  have hfirst : d.blocks.toArray[i]?.bind (·.first?) = some q := by
    rw [List.getElem?_toArray]
    unfold block at hq
    cases hi : d.blocks[i]? with
    | none =>
        rw [hi] at hq
        cases hq
    | some b =>
        rw [hi] at hq
        exact hq
  have htarget : (d.step q c).bind (blockOf (owners d.blocks)) = some j ∧ d.sink ∉ d.block j ↔
      d.totalStep q c ∈ d.block j ∧ d.sink ∉ d.block j := by
    apply and_congr_left
    intro hsink
    unfold totalStep
    cases hstep : d.step q c with
    | none => simp [hsink]
    | some p =>
        rw [Option.bind_some, Option.getD_some]
        exact hd.blockOf_eq_some_iff
  rw [← htarget, blockNext, blockMoves, hfirst]
  simp only [List.mem_filterMap, rowStep_moveRows, Option.ite_none_left_eq_some,
    Option.map_eq_some_iff,
    Prod.mk.injEq, SortedSet.mem_toList]
  constructor
  · rintro ⟨a, -, hne, k, hk, rfl, rfl⟩
    refine ⟨hk, fun hsink => hne ?_⟩
    rw [hk, hd.blockOf_eq_some_iff.2 hsink]
  · rintro ⟨hk, hsink⟩
    refine ⟨c, ?_, ?_, j, hk, rfl, rfl⟩
    · obtain ⟨p, hp, -⟩ := Option.bind_eq_some_iff.1 hk
      exact mem_alphabet.2 ⟨q, p, hp⟩
    · intro heq
      rw [hk] at heq
      exact hsink (hd.blockOf_eq_some_iff.1 heq.symm)

theorem exists_first? {b : StateSet} {q : Nat} (hq : q ∈ b) : ∃ p, b.first? = some p ∧ p ∈ b := by
  have hsome : b.first?.isSome = true := by
    unfold StateSet.first?
    rw [List.isSome_head?]
    exact List.ne_nil_of_mem (StateSet.mem_toList.2 hq)
  obtain ⟨p, hp⟩ := Option.isSome_iff_exists.1 hsome
  exact ⟨p, hp, StateSet.mem_toList.1 (List.mem_of_mem_head? hp)⟩

/-- Every state of a block may stand for it. -/
theorem WellFormed.mem_blockNext (hd : d.WellFormed) {q i j : Nat} {c : Char} (hq : q ∈ d.block i) :
    (c, j) ∈ d.blockNext i ↔ d.totalStep q c ∈ d.block j ∧ d.sink ∉ d.block j := by
  obtain ⟨p, hp, hpmem⟩ := exists_first? hq
  have halike := ((hd.alike_iff_of_mem_block hpmem hq).2 rfl).totalStep hd c
  rw [hd.mem_blockNext_first hp]
  apply and_congr_left
  intro _
  constructor
  · intro hj
    exact hd.mem_block_of_alike hj (hd.totalStep_mem (hd.mem_totalStates_of_mem_block hq) c) halike
  · intro hj
    exact hd.mem_block_of_alike hj (hd.totalStep_mem (hd.mem_totalStates_of_mem_block hpmem) c)
      halike.symm

theorem pairwise_blockNext (d : Dfa) (i : Nat) :
    (d.blockNext i).Pairwise fun a b => a.1 < b.1 := by
  unfold blockNext blockMoves
  split
  · exact List.Pairwise.nil
  · apply pairwise_filterMap_alphabet
    intro c e he
    rw [Option.ite_none_left_eq_some, Option.map_eq_some_iff] at he
    obtain ⟨-, j, -, rfl⟩ := he
    rfl

theorem step_eq_some_of_totalStep_ne {q : Nat} {c : Char} (h : d.totalStep q c ≠ d.sink) :
    d.step q c = some (d.totalStep q c) := by
  unfold totalStep at *
  cases hstep : d.step q c with
  | none =>
      rw [hstep] at h
      exact absurd rfl h
  | some p => rfl

/-- From every state of a block the search goes along the moves to states that something is
accepted from. -/
theorem WellFormed.exists_mem_blockNext (hd : d.WellFormed) {q p i : Nat} {c : Char}
    (hq : q ∈ d.block i)
    (hstep : d.step q c = some p) (haccepts : ∃ w, d.acceptsFrom p w = true) :
    ∃ k, (c, k) ∈ d.blockNext i ∧ p ∈ d.block k ∧ d.sink ∉ d.block k := by
  have htotal : d.totalStep q c = p := by
    rw [totalStep, hstep]
    rfl
  have hmem := hd.totalStep_mem (hd.mem_totalStates_of_mem_block hq) c
  rw [htotal] at hmem
  obtain ⟨k, hk⟩ := hd.exists_mem_block hmem
  have hlive := (hd.sink_not_mem_block_iff hk).2 haccepts
  refine ⟨k, ?_, hk, hlive⟩
  rw [hd.mem_blockNext hq, htotal]
  exact ⟨hk, hlive⟩

/-- The search follows the runs that stay out of the block of the sink. -/
theorem WellFormed.spells_blockNext_iff (hd : d.WellFormed) {q i j : Nat} {w : List Char}
    (hq : q ∈ d.block i) (hlive : d.sink ∉ d.block i) :
    Spells d.blockNext i w j ↔ ∃ p, d.run q w = some p ∧ p ∈ d.block j ∧ d.sink ∉ d.block j := by
  induction w generalizing q i with
  | nil =>
      constructor
      · intro h
        cases h
        exact ⟨q, rfl, hq, hlive⟩
      · rintro ⟨p, hp, hpj, -⟩
        cases hp
        rw [(hd.alike_iff_of_mem_block hq hpj).1 fun _ => rfl]
        exact .refl j
  | cons c w ih =>
      constructor
      · intro h
        cases h with
        | step he hw =>
            obtain ⟨hk, hklive⟩ := (hd.mem_blockNext hq).1 he
            have hne : d.totalStep q c ≠ d.sink := by
              intro heq
              exact hklive (heq ▸ hk)
            rw [run_cons, step_eq_some_of_totalStep_ne hne]
            exact (ih hk hklive).1 hw
      · rintro ⟨p, hp, hpj, hjlive⟩
        rw [run_cons, Option.bind_eq_some_iff] at hp
        obtain ⟨o, hstep, hw⟩ := hp
        -- What is accepted at the end of the run is accepted on the way.
        obtain ⟨x, hx⟩ := (hd.sink_not_mem_block_iff hpj).1 hjlive
        rw [← acceptsFrom_append hw] at hx
        obtain ⟨k, hedge, hk, hklive⟩ := hd.exists_mem_blockNext hq hstep ⟨_, hx⟩
        exact .step hedge ((ih hk hklive).2 ⟨p, hw, hpj, hjlive⟩)

/-! ## The automaton of the blocks -/

theorem start_mem_totalStates (d : Dfa) : d.start ∈ d.totalStates :=
  mem_totalStates.2 (.inr (mem_reachable.2 ⟨[], rfl⟩))

theorem lt_length_blocks {q i : Nat} (hq : q ∈ d.block i) : i < d.blocks.length := by
  by_contra hi
  rw [block, List.getElem?_eq_none (Nat.not_lt.1 hi)] at hq
  exact StateSet.not_mem_empty q hq

theorem WellFormed.enumerates_liveBlocks (hd : d.WellFormed) {first : Nat}
    (hstart : d.start ∈ d.block first) (hlive : d.sink ∉ d.block first) :
    Enumerates d.blockNext first (d.liveBlocks d.blocks) := by
  have heq :
      d.liveBlocks d.blocks = explore d.blockNext (fun _ => false) d.blocks.length first := by
    unfold liveBlocks
    simp only [hd.blockOf_eq_some_iff.2 hstart]
    rw [if_neg fun h => hlive (hd.blockOf_eq_some_iff.1 h)]
    rfl
  rw [heq]
  apply explore_enumerates d.pairwise_blockNext
  apply reachesAtMost_of_lt
  intro w i hw
  obtain ⟨p, -, hp, -⟩ := (hd.spells_blockNext_iff hstart hlive).1 hw
  exact lt_length_blocks hp

theorem start_minimize (d : Dfa) : d.minimize.start = 0 := rfl

theorem size_minimize (d : Dfa) : d.minimize.size = max 1 (d.liveBlocks d.blocks).length := by
  rw [size, minimize, LabelTable.size_sequential, List.length_map]

theorem WellFormed.tabulates_minimize (hd : d.WellFormed) {first : Nat}
    (hstart : d.start ∈ d.block first) (hlive : d.sink ∉ d.block first) :
    d.minimize.Tabulates d.blockNext first (d.liveBlocks d.blocks) := by
  have henumerates := hd.enumerates_liveBlocks hstart hlive
  obtain ⟨v, hv, -⟩ := henumerates.covers [] first (.refl first)
  have hpos := List.length_pos_of_mem hv
  refine { toEnumerates := henumerates, rows := d.pairwise_blockNext, size_eq := ?_,
           start_eq := d.start_minimize, moves_eq := by rw [minimize] }
  rw [size_minimize]
  omega

theorem WellFormed.exists_first (hd : d.WellFormed) (h : ∃ w, d.accepts w = true) :
    ∃ first, d.start ∈ d.block first ∧ d.sink ∉ d.block first := by
  obtain ⟨first, hstart⟩ := hd.exists_mem_block d.start_mem_totalStates
  exact ⟨first, hstart, (hd.sink_not_mem_block_iff hstart).2 h⟩

/-- A run of the minimal automaton leads to the place of the block in which the run ends. -/
theorem WellFormed.run_minimize_eq_some_iff (hd : d.WellFormed) (h : ∃ w, d.accepts w = true)
    {w : List Char} {k : Nat} :
    d.minimize.run d.minimize.start w = some k ↔
      ∃ v, (d.liveBlocks d.blocks)[k]? = some v ∧
        ∃ p, d.run d.start w = some p ∧ p ∈ d.block v.node ∧ d.sink ∉ d.block v.node := by
  obtain ⟨first, hstart, hlive⟩ := hd.exists_first h
  rw [(hd.tabulates_minimize hstart hlive).run_eq_some_iff]
  simp only [hd.spells_blockNext_iff hstart hlive]

theorem mem_accepting_minimize {k : Nat} :
    k ∈ d.minimize.accepting ↔
      ∃ v, (d.liveBlocks d.blocks)[k]? = some v ∧ ∃ p ∈ d.block v.node, p ∈ d.accepting := by
  rw [minimize, StateSet.mem_placesWhere]
  simp only [List.getElem?_map, Option.map_eq_some_iff, StateSet.intersects_iff]
  constructor
  · rintro ⟨_, ⟨_, ⟨v, hv, rfl⟩, rfl⟩, p, hp, hacc⟩
    exact ⟨v, hv, p, hp, hacc⟩
  · rintro ⟨v, hv, p, hp, hacc⟩
    exact ⟨_, ⟨_, ⟨v, hv, rfl⟩, rfl⟩, p, hp, hacc⟩

theorem WellFormed.accepts_minimize_of_accepts (hd : d.WellFormed) (h : ∃ w, d.accepts w = true)
    (w : List Char) :
    d.minimize.accepts w = d.accepts w := by
  rw [Bool.eq_iff_iff, accepts_iff, accepts_iff]
  constructor
  · rintro ⟨k, hk, hrun⟩
    obtain ⟨v, hv, q, hq, hacc⟩ := mem_accepting_minimize.1 hk
    obtain ⟨v', hv', p, hp, hpv, -⟩ := (hd.run_minimize_eq_some_iff h).1 hrun
    rw [hv, Option.some.injEq] at hv'
    subst hv'
    have halike := (hd.alike_iff_of_mem_block hpv hq).2 rfl []
    exact ⟨p, (decide_eq_decide.1 halike).2 hacc, hp⟩
  · rintro ⟨p, hacc, hp⟩
    obtain ⟨first, hstart, hlive⟩ := hd.exists_first h
    obtain ⟨j, hj⟩ := hd.exists_mem_block (mem_totalStates.2 (.inr (mem_reachable.2 ⟨w, hp⟩)))
    have hjlive : d.sink ∉ d.block j := (hd.sink_not_mem_block_iff hj).2 ⟨[], decide_eq_true hacc⟩
    have hspells := (hd.spells_blockNext_iff hstart hlive).2 ⟨p, hp, hj, hjlive⟩
    obtain ⟨k, v, hv, rfl⟩ := (hd.tabulates_minimize hstart hlive).exists_place hspells
    exact ⟨k, mem_accepting_minimize.2 ⟨v, hv, p, hj, hacc⟩,
      (hd.run_minimize_eq_some_iff h).2 ⟨v, hv, p, hp, hj, hjlive⟩⟩

theorem WellFormed.acceptsFrom_minimize (hd : d.WellFormed) (h : ∃ w, d.accepts w = true) {k : Nat}
    (hk : k < d.minimize.size) :
    ∃ v, (d.liveBlocks d.blocks)[k]? = some v ∧
      ∃ p, p ∈ d.block v.node ∧ d.sink ∉ d.block v.node ∧
      ∀ x, d.minimize.acceptsFrom k x = d.acceptsFrom p x := by
  obtain ⟨first, hstart, hlive⟩ := hd.exists_first h
  obtain ⟨w, hrun, -⟩ := (hd.tabulates_minimize hstart hlive).numberedByWords.exists_leastWord k hk
  obtain ⟨v, hv, p, hp, hpv, hvlive⟩ := (hd.run_minimize_eq_some_iff h).1 hrun
  refine ⟨v, hv, p, hpv, hvlive, fun x => ?_⟩
  rw [← accepts_append hrun, hd.accepts_minimize_of_accepts h, accepts_append hp]

/-! ## Nothing is accepted -/

theorem WellFormed.liveBlocks_eq_nil (hd : d.WellFormed) (h : ∀ w, d.accepts w = false) :
    d.liveBlocks d.blocks = [] := by
  obtain ⟨first, hstart⟩ := hd.exists_mem_block d.start_mem_totalStates
  have hsink : d.sink ∈ d.block first := by
    by_contra hlive
    obtain ⟨w, hw⟩ := (hd.sink_not_mem_block_iff hstart).1 hlive
    rw [← accepts, h] at hw
    cases hw
  unfold liveBlocks
  simp only [hd.blockOf_eq_some_iff.2 hstart, hd.blockOf_eq_some_iff.2 hsink, if_true]

theorem WellFormed.minimize_of_empty (hd : d.WellFormed) (h : ∀ w, d.accepts w = false) :
    d.minimize.size = 1 ∧ d.minimize.accepting = ∅ ∧ d.minimize.moves = ∅ := by
  have hnil := hd.liveBlocks_eq_nil h
  refine ⟨?_, ?_, ?_⟩
  · rw [size_minimize, hnil]
    rfl
  · rw [minimize, hnil]
    rfl
  · rw [minimize, hnil]
    rfl

theorem accepts_of_accepting_eq_empty {m : Dfa} (h : m.accepting = ∅) (w : List Char) :
    m.accepts w = false := by
  rw [← Bool.not_eq_true, accepts_iff]
  rintro ⟨q, hq, -⟩
  rw [h] at hq
  exact StateSet.not_mem_empty q hq

theorem exists_accepts_or_empty (d : Dfa) :
    (∃ w, d.accepts w = true) ∨ ∀ w, d.accepts w = false := by
  by_cases h : ∃ w, d.accepts w = true
  · exact .inl h
  · exact .inr fun w => Bool.eq_false_of_not_eq_true fun hw => h ⟨w, hw⟩

theorem WellFormed.accepts_minimize (hd : d.WellFormed) (w : List Char) :
    d.minimize.accepts w = d.accepts w := by
  rcases d.exists_accepts_or_empty with h | hempty
  · exact hd.accepts_minimize_of_accepts h w
  · rw [hempty, accepts_of_accepting_eq_empty (hd.minimize_of_empty hempty).2.1]

/-! ## The minimal automaton is well-formed and canonical -/

theorem subsets_minimize_of_ne_nil (h : d.liveBlocks d.blocks ≠ []) :
    d.minimize.subsets = d.subsets.map fun subsets =>
      (d.liveBlocks d.blocks).map fun v => mergedSubset subsets (d.block v.node) := by
  have hne : ((d.liveBlocks d.blocks).map (·.node)).isEmpty = false := by
    rw [← Bool.not_eq_true, List.isEmpty_iff, List.map_eq_nil_iff]
    exact h
  rw [minimize]
  simp only [hne, Bool.false_eq_true, if_false, List.map_map]
  rfl

theorem subsets_minimize_of_eq_nil (h : d.liveBlocks d.blocks = []) :
    d.minimize.subsets = d.subsets.map fun subsets => [subsets[d.start]?.getD ∅] := by
  rw [minimize, h]
  rfl

theorem length_subsets_minimize {subsets : List StateSet} (h : d.minimize.subsets = some subsets) :
    subsets.length = d.minimize.size := by
  rw [size_minimize]
  by_cases hnil : d.liveBlocks d.blocks = []
  · rw [subsets_minimize_of_eq_nil hnil, Option.map_eq_some_iff] at h
    obtain ⟨old, -, rfl⟩ := h
    rw [hnil]
    rfl
  · rw [subsets_minimize_of_ne_nil hnil, Option.map_eq_some_iff] at h
    obtain ⟨old, -, rfl⟩ := h
    have hpos := List.length_pos_iff.2 hnil
    rw [List.length_map]
    omega

theorem WellFormed.minimize (hd : d.WellFormed) : d.minimize.WellFormed := by
  have hends :
      ∀ p q c, d.minimize.step p c = some q → p < d.minimize.size ∧ q < d.minimize.size := by
    intro p q c hstep
    rcases d.exists_accepts_or_empty with h | hempty
    · obtain ⟨first, hstart, hlive⟩ := hd.exists_first h
      exact (hd.tabulates_minimize hstart hlive).ends_lt hstep
    · rw [step, (hd.minimize_of_empty hempty).2.2] at hstep
      cases hstep
  refine { labels_nodup := LabelTable.nodup_sequential _, start_lt := ?_, accepting_lt := ?_,
           source_lt := fun e he => (hends _ _ _ (step_eq_some_iff.2 he)).1,
           target_lt := fun e he => (hends _ _ _ (step_eq_some_iff.2 he)).2,
           length_subsets := fun subsets hsubsets => length_subsets_minimize hsubsets }
  · rw [size_minimize, start_minimize]
    omega
  · intro k hk
    obtain ⟨v, hv, -⟩ := mem_accepting_minimize.1 hk
    have hlt := (List.getElem?_eq_some_iff.1 hv).1
    rw [size_minimize]
    omega

theorem WellFormed.canonical_minimize (hd : d.WellFormed) (h : ∃ w, d.accepts w = true) :
    d.minimize.Canonical := by
  obtain ⟨first, hstart, hlive⟩ := hd.exists_first h
  have htab := hd.tabulates_minimize hstart hlive
  refine { hd.minimize with live := ?_, separated := ?_, numbered := htab.numberedByWords }
  · intro k hk
    obtain ⟨v, -, p, hp, hvlive, heq⟩ := hd.acceptsFrom_minimize h hk
    obtain ⟨x, hx⟩ := (hd.sink_not_mem_block_iff hp).1 hvlive
    exact ⟨x, (heq x).trans hx⟩
  · intro k hk l hl halike
    obtain ⟨u, hu, p, hp, -, hpk⟩ := hd.acceptsFrom_minimize h hk
    obtain ⟨v, hv, q, hq, -, hql⟩ := hd.acceptsFrom_minimize h hl
    have hpq : d.Alike p q := by
      intro x
      rw [← hpk, ← hql]
      exact halike x
    exact htab.place_inj hu hv ((hd.alike_iff_of_mem_block hp hq).1 hpq)

theorem mem_alphabet_of_mem_blockNext {i j : Nat} {c : Char} (h : (c, j) ∈ d.blockNext i) :
    c ∈ d.alphabet := by
  unfold blockNext blockMoves at h
  split at h
  · exact absurd h List.not_mem_nil
  · obtain ⟨a, ha, hmove⟩ := List.mem_filterMap.1 h
    rw [Option.ite_none_left_eq_some, Option.map_eq_some_iff] at hmove
    obtain ⟨-, k, -, heq⟩ := hmove
    cases heq
    exact ha

theorem WellFormed.mem_alphabet_minimize (hd : d.WellFormed) {c : Char}
    (h : c ∈ d.minimize.alphabet) :
    c ∈ d.alphabet := by
  obtain ⟨p, q, hstep⟩ := mem_alphabet.1 h
  rcases d.exists_accepts_or_empty with haccepts | hempty
  · obtain ⟨first, hstart, hlive⟩ := hd.exists_first haccepts
    obtain ⟨u, v, -, -, hmove⟩ := (hd.tabulates_minimize hstart hlive).step_eq_some_iff.1 hstep
    exact mem_alphabet_of_mem_blockNext hmove
  · rw [step, (hd.minimize_of_empty hempty).2.2] at hstep
    cases hstep

/-! ## Minimality -/

/-- What the minimal automaton `m` of the language of `d` has to be. -/
structure MinimalAutomaton (d m : Dfa) : Prop where
  accepts_eq : ∀ w, m.accepts w = d.accepts w
  size_le : ∀ e : Dfa, e.WellFormed → (∀ w, e.accepts w = d.accepts w) → m.size ≤ e.size
  reached : ∀ q < m.size, ∃ w, m.run m.start w = some q
  live : (∃ w, d.accepts w = true) → ∀ q < m.size, ∃ w, m.acceptsFrom q w = true
  of_empty : (∀ w, d.accepts w = false) → m.size = 1 ∧ m.accepting = ∅ ∧ m.moves = ∅

theorem minimalAutomaton_minimize (hd : d.WellFormed) : MinimalAutomaton d d.minimize := by
  rcases d.exists_accepts_or_empty with h | hempty
  · have hm := hd.canonical_minimize h
    refine { accepts_eq := hd.accepts_minimize, size_le := ?_,
             reached := fun q hq => hm.lt_size_iff.1 hq, live := fun _ => hm.live,
             of_empty := hd.minimize_of_empty }
    intro e he heq
    apply hm.size_le he
    intro w
    rw [heq, hd.accepts_minimize]
  · have hsize := (hd.minimize_of_empty hempty).1
    refine { accepts_eq := hd.accepts_minimize, size_le := ?_, reached := ?_, live := ?_,
             of_empty := hd.minimize_of_empty }
    · intro e he _
      have hpos := he.start_lt
      omega
    · intro q hq
      have hzero : q = 0 := by omega
      refine ⟨[], ?_⟩
      rw [hzero, start_minimize]
      rfl
    · rintro ⟨w, hw⟩
      rw [hempty] at hw
      cases hw

/-- A dead state and one that is not reached are left out. -/
theorem minimalAutomaton_minimize_single :
    let d : Dfa := ⟨.sequential 4, 0, .ofList [1, 3],
      .ofList [((0, 'a'), 1), ((1, 'b'), 2), ((3, 'a'), 1)], none⟩
    d.minimize.size = 2 ∧ MinimalAutomaton d d.minimize :=
  ⟨by decide +kernel, minimalAutomaton_minimize (by decide +kernel)⟩

end RegularLanguages.Dfa
