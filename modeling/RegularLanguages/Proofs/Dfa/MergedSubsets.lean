import RegularLanguages.Proofs.Dfa.Determinization
import RegularLanguages.Proofs.Dfa.Minimization

/-!
# The sets that minimal states stand for

Minimization gives a state the union of the sets that the states of its block stand for. All states
of a block that is kept are reached, so the union holds exactly what is active after some word that
leads to the block (`WellFormed.exists_subset?_minimize`). It need not be the active set of any one
of these words. But the nondeterministic automaton accepts the same after each of them, and so it
does from the union (`standsFor_minimize`).
-/

namespace RegularLanguages

namespace Dfa

variable {d : Dfa}

/-! ## Unions over blocks -/

theorem mem_mergedSubset {subsets : List StateSet} {block : StateSet} {r : Nat} :
    r ∈ mergedSubset subsets block ↔ ∃ q ∈ block, ∃ s, subsets[q]? = some s ∧ r ∈ s := by
  have hset : ∀ q : Nat, r ∈ subsets[q]?.getD ∅ ↔ ∃ s, subsets[q]? = some s ∧ r ∈ s := by
    intro q
    cases subsets[q]? with
    | none => simp
    | some s => simp
  have hfold : ∀ (l : List Nat) (u : StateSet), r ∈ l.foldl (fun s q => s ∪ subsets[q]?.getD ∅) u ↔
      r ∈ u ∨ ∃ q ∈ l, ∃ s, subsets[q]? = some s ∧ r ∈ s := by
    intro l
    induction l with
    | nil => simp
    | cons q l ih =>
        intro u
        rw [List.foldl_cons, ih, StateSet.mem_union, hset, or_assoc]
        simp only [List.mem_cons, exists_eq_or_imp]
  rw [mergedSubset, hfold]
  simp

/-! ## Reached states of a block -/

theorem WellFormed.exists_run_of_mem_block (hd : d.WellFormed) {q i : Nat} (hq : q ∈ d.block i)
    (hlive : d.sink ∉ d.block i) : ∃ w, d.run d.start w = some q := by
  rcases mem_totalStates.1 (hd.mem_totalStates_of_mem_block hq) with rfl | hreached
  · exact absurd hq hlive
  · exact mem_reachable.1 hreached

theorem WellFormed.exists_block (hd : d.WellFormed) (h : ∃ w, d.accepts w = true) {k : Nat}
    (hk : k < d.minimize.size) :
    ∃ v, (d.liveBlocks d.blocks)[k]? = some v ∧ ∀ q, q ∈ d.block v.node ↔
      ∃ w, d.minimize.run d.minimize.start w = some k ∧ d.run d.start w = some q := by
  obtain ⟨v, hv, p, hp, hlive, -⟩ := hd.acceptsFrom_minimize h hk
  refine ⟨v, hv, fun q => ?_⟩
  constructor
  · intro hq
    obtain ⟨w, hw⟩ := hd.exists_run_of_mem_block hq hlive
    exact ⟨w, (hd.run_minimize_eq_some_iff h).2 ⟨v, hv, q, hw, hq, hlive⟩, hw⟩
  · rintro ⟨w, hw, hq⟩
    obtain ⟨v', hv', q', hq', hmem, -⟩ := (hd.run_minimize_eq_some_iff h).1 hw
    rw [hv, Option.some.injEq] at hv'
    rw [hq, Option.some.injEq] at hq'
    rw [hv', hq']
    exact hmem

theorem WellFormed.exists_run_minimize (hd : d.WellFormed) {k : Nat} (hk : k < d.minimize.size) :
    ∃ w, d.minimize.run d.minimize.start w = some k := by
  rcases d.exists_accepts_or_empty with haccepts | hempty
  · exact (hd.canonical_minimize haccepts).lt_size_iff.1 hk
  · have hsize := (hd.minimize_of_empty hempty).1
    have hzero : k = 0 := by omega
    exact ⟨[], congrArg some hzero.symm⟩

theorem run_of_moves_eq_empty {m : Dfa} (h : m.moves = ∅) {q p : Nat} {w : List Char} :
    m.run q w = some p ↔ w = [] ∧ q = p := by
  cases w with
  | nil => simp [run]
  | cons c w =>
      rw [run_cons, step, h]
      simp [SortedMap.get?_empty]

theorem subset?_of_subsets {m : Dfa} {subsets : List StateSet}
    (h : m.subsets = some subsets) (q : Nat) :
    m.subset? q = subsets[q]? := by
  rw [subset?, h]
  rfl

theorem subset?_minimize {subsets : List StateSet} (h : d.subsets = some subsets) {k : Nat}
    {v : Visit Nat Char} (hv : (d.liveBlocks d.blocks)[k]? = some v) :
    d.minimize.subset? k = some (mergedSubset subsets (d.block v.node)) := by
  have hne : d.liveBlocks d.blocks ≠ [] := by
    intro hnil
    rw [hnil] at hv
    cases hv
  have hmerged := subsets_minimize_of_ne_nil hne
  rw [h, Option.map_some] at hmerged
  rw [subset?_of_subsets hmerged, List.getElem?_map, hv, Option.map_some]

/-- The state that is left of an empty language keeps the set of the start. -/
theorem WellFormed.subset?_minimize_of_empty (hd : d.WellFormed) (hempty : ∀ w, d.accepts w = false)
    {subsets : List StateSet} (h : d.subsets = some subsets) :
    ∃ s, subsets[d.start]? = some s ∧ d.minimize.subset? 0 = some s := by
  have hstart : d.start < subsets.length := by
    rw [hd.length_subsets subsets h]
    exact hd.start_lt
  have hfirst := List.getElem?_eq_getElem hstart
  have hkept := subsets_minimize_of_eq_nil (hd.liveBlocks_eq_nil hempty)
  rw [h, Option.map_some, hfirst, Option.getD_some] at hkept
  refine ⟨subsets[d.start], hfirst, ?_⟩
  rw [subset?_of_subsets hkept, List.getElem?_cons_zero]

/-- A state of the minimal automaton keeps what the states hold that the words to it lead to. -/
theorem WellFormed.exists_subset?_minimize (hd : d.WellFormed)
    (hsubsets : d.subsets.isSome = true) {k : Nat} (hk : k < d.minimize.size) :
    ∃ s, d.minimize.subset? k = some s ∧ ∀ r, r ∈ s ↔
      ∃ w q t, d.minimize.run d.minimize.start w = some k ∧ d.run d.start w = some q ∧
        d.subset? q = some t ∧ r ∈ t := by
  obtain ⟨subsets, hsome⟩ := Option.isSome_iff_exists.1 hsubsets
  simp only [subset?_of_subsets hsome]
  rcases d.exists_accepts_or_empty with haccepts | hempty
  · obtain ⟨v, hv, hblock⟩ := hd.exists_block haccepts hk
    refine ⟨_, subset?_minimize hsome hv, fun r => ?_⟩
    rw [mem_mergedSubset]
    simp only [hblock]
    constructor
    · rintro ⟨q, ⟨w, hw, hq⟩, t, ht, hr⟩
      exact ⟨w, q, t, hw, hq, ht, hr⟩
    · rintro ⟨w, q, t, hw, hq, ht, hr⟩
      exact ⟨q, ⟨w, hw, hq⟩, t, ht, hr⟩
  · obtain ⟨hsize, -, hmoves⟩ := hd.minimize_of_empty hempty
    obtain ⟨s, hs, hkept⟩ := hd.subset?_minimize_of_empty hempty hsome
    have hzero : k = 0 := by omega
    rw [hzero]
    refine ⟨s, hkept, fun r => ?_⟩
    simp only [run_of_moves_eq_empty hmoves, start_minimize, and_true]
    constructor
    · intro hr
      exact ⟨[], d.start, s, rfl, rfl, hs, hr⟩
    · rintro ⟨w, q, t, rfl, hq, ht, hr⟩
      cases hq
      rw [hs, Option.some.injEq] at ht
      rw [ht]
      exact hr

end Dfa

namespace Nfa

variable {n : Nfa} {m : Dfa} {q : Nat} {s : StateSet}

/-! ## Runs from a set -/

def acceptsFrom (n : Nfa) (s : StateSet) (word : List Char) : Bool :=
  n.isAccepting (n.stepAll (n.closure s) word)

theorem acceptsFrom_iff {w : List Char} :
    n.acceptsFrom s w = true ↔ ∃ p ∈ s, ∃ r ∈ n.accepting, Path n p w r := by
  rw [acceptsFrom, isAccepting_iff]
  simp only [mem_stepAll (closure_closure n s)]
  constructor
  · rintro ⟨r, ⟨p, hp, hw⟩, hr⟩
    obtain ⟨o, ho, hop⟩ := mem_closure.1 hp
    exact ⟨o, ho, r, hr, hop.append hw⟩
  · rintro ⟨p, hp, r, hr, hw⟩
    exact ⟨r, ⟨p, mem_closure.2 ⟨p, hp, .refl p⟩, hw⟩, hr⟩

theorem closure_active (n : Nfa) (u : List Char) : n.closure (n.active u) = n.active u := by
  rw [active_eq_stepAll]
  exact closure_stepAll n (closure_initial n) u

theorem acceptsFrom_active (n : Nfa) (u v : List Char) :
    n.acceptsFrom (n.active u) v = n.accepts (u ++ v) := by
  rw [acceptsFrom, closure_active, accepts, active_eq_stepAll, active_eq_stepAll, stepAll, stepAll,
    stepAll, List.foldl_append]

/-! ## States that stand for a set -/

/-- The set `s` of states of `n` is what the state `q` of the deterministic automaton `m` stands
for: the union of the active sets of the words that lead to `q`. No word tells the two apart. -/
structure StandsFor (n : Nfa) (m : Dfa) (q : Nat) (s : StateSet) : Prop where
  mem_iff : ∀ r, r ∈ s ↔ ∃ w, m.run m.start w = some q ∧ r ∈ n.active w
  closure_eq : n.closure s = s
  accepts_eq : ∀ v, n.acceptsFrom s v = m.acceptsFrom q v

/-- The union of active sets accepts what each of them does, since the deterministic automaton is
in one state after all their words. -/
theorem standsFor_of_mem_iff (haccepts : ∀ w, m.accepts w = n.accepts w)
    (hq : ∃ w, m.run m.start w = some q)
    (hmem : ∀ r, r ∈ s ↔ ∃ w, m.run m.start w = some q ∧ r ∈ n.active w) : StandsFor n m q s := by
  have hafter : ∀ w v, m.run m.start w = some q →
      n.acceptsFrom (n.active w) v = m.acceptsFrom q v := by
    intro w v hw
    rw [acceptsFrom_active, ← haccepts, Dfa.accepts_append hw]
  refine { mem_iff := hmem, closure_eq := ?_, accepts_eq := fun v => ?_ }
  · apply StateSet.ext
    intro r
    rw [mem_closure]
    constructor
    · rintro ⟨p, hp, hpr⟩
      obtain ⟨w, hw, hactive⟩ := (hmem p).1 hp
      refine (hmem r).2 ⟨w, hw, ?_⟩
      rw [← closure_active]
      exact mem_closure.2 ⟨p, hactive, hpr⟩
    · intro hr
      exact ⟨r, hr, .refl r⟩
  · rw [Bool.eq_iff_iff, acceptsFrom_iff]
    constructor
    · rintro ⟨p, hp, hpath⟩
      obtain ⟨w, hw, hactive⟩ := (hmem p).1 hp
      rw [← hafter w v hw]
      exact acceptsFrom_iff.2 ⟨p, hactive, hpath⟩
    · intro hv
      obtain ⟨w, hw⟩ := hq
      rw [← hafter w v hw] at hv
      obtain ⟨p, hp, hpath⟩ := acceptsFrom_iff.1 hv
      exact ⟨p, (hmem p).2 ⟨w, hw, hp⟩, hpath⟩

theorem mem_active_iff (hn : n.WellFormed) {w : List Char} {r : Nat} :
    r ∈ n.active w ↔ ∃ q t, n.determinize.run n.determinize.start w = some q ∧
      n.determinize.subset? q = some t ∧ r ∈ t := by
  rw [active_eq_stepAll]
  constructor
  · intro hr
    have hne : n.stepAll n.initial w ≠ ∅ := by
      intro hempty
      rw [hempty] at hr
      exact StateSet.not_mem_empty r hr
    obtain ⟨q, hq⟩ := exists_subset?_determinize hn hne
    exact ⟨q, _, (run_determinize_eq_some_iff hn).2 ⟨hq, hne⟩, hq, hr⟩
  · rintro ⟨q, t, hq, ht, hr⟩
    rw [((run_determinize_eq_some_iff hn).1 hq).1, Option.some.injEq] at ht
    rw [ht]
    exact hr

/-- The subset of a minimal state is the union of the active sets of the words that lead to the
state, and what is accepted from the one is accepted from the other. -/
theorem standsFor_minimize (hn : n.WellFormed) (hq : q < n.minimize.size) :
    ∃ s, n.minimize.subset? q = some s ∧ StandsFor n n.minimize q s := by
  have hd := wellFormed_determinize hn
  obtain ⟨s, hs, hmem⟩ := hd.exists_subset?_minimize rfl hq
  refine ⟨s, hs, standsFor_of_mem_iff ?_ (hd.exists_run_minimize hq) fun r => ?_⟩
  · intro w
    rw [minimize, hd.accepts_minimize, accepts_determinize hn]
  · rw [hmem]
    simp only [mem_active_iff hn]
    constructor
    · rintro ⟨w, p, t, hw, hp, ht, hr⟩
      exact ⟨w, hw, p, t, hp, ht, hr⟩
    · rintro ⟨w, hw, p, t, hp, ht, hr⟩
      exact ⟨w, p, t, hw, hp, ht, hr⟩

/-- Two characters lead to two states that nothing tells apart, and no word leads to both. -/
theorem standsFor_minimize_merged :
    let n : Nfa :=
      ⟨.sequential 3, 0, .ofList [1, 2], .ofList [⟨0, .char 'a', 1⟩, ⟨0, .char 'b', 2⟩]⟩
    n.minimize.subset? 1 = some (.ofList [1, 2]) ∧
      ∃ s, n.minimize.subset? 1 = some s ∧ StandsFor n n.minimize 1 s :=
  ⟨by decide +kernel, standsFor_minimize (by decide +kernel) (by decide +kernel)⟩

/-- Of an empty language the initial set is left, though the automaton goes on to other states. -/
example :
    let n : Nfa := ⟨.sequential 3, 0, ∅, .ofList [⟨0, .epsilon, 1⟩, ⟨1, .char 'a', 2⟩]⟩
    n.minimize.size = 1 ∧ n.minimize.subset? 0 = some (.below 2) := by
  decide +kernel

end Nfa

end RegularLanguages
