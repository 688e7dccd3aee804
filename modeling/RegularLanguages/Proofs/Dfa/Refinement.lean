import RegularLanguages.Proofs.Dfa.Runs
import RegularLanguages.Proofs.Dfa.Splitting

/-!
# The blocks are the states that no word tells apart

While splitters are tried, states of different blocks are told apart by some word, and states of one
block that a character leads to different blocks have a splitter queued for one of these blocks
(`Refining`). So when no splitter is left, the blocks are closed under the moves, and states of one
block accept the same words (`alike_iff_of_mem_block`). The fuel is enough, since each new block is
queued once for each character and there are no more blocks than states.
-/

namespace RegularLanguages.Dfa

variable {d : Dfa}

theorem mem_totalStates {q : Nat} :
    q ∈ d.totalStates ↔ q = d.sink ∨ q ∈ d.reachable := StateSet.mem_insert

theorem WellFormed.le_sink_of_mem_totalStates (hd : d.WellFormed) {q : Nat}
    (h : q ∈ d.totalStates) : q ≤ d.sink := by
  rcases mem_totalStates.1 h with rfl | h
  · exact Nat.le_refl _
  · obtain ⟨w, hw⟩ := mem_reachable.1 h
    exact Nat.le_of_lt (hd.run_lt hd.start_lt hw)

theorem WellFormed.totalStep_mem (hd : d.WellFormed) {q : Nat} (h : q ∈ d.totalStates) (c : Char) :
    d.totalStep q c ∈ d.totalStates := by
  rw [mem_totalStates]
  cases hstep : d.step q c with
  | none => exact .inl (hd.totalStep_eq_sink_iff.2 hstep)
  | some p =>
      right
      rcases mem_totalStates.1 h with rfl | h
      · rw [hd.step_sink] at hstep
        cases hstep
      · obtain ⟨w, hw⟩ := mem_reachable.1 h
        rw [totalStep, hstep, Option.getD_some, mem_reachable]
        refine ⟨w ++ [c], ?_⟩
        rw [run_concat, hw]
        exact hstep

theorem totalStep_of_not_mem_alphabet {c : Char} (h : c ∉ d.alphabet) (q : Nat) :
    d.totalStep q c = d.sink := by
  unfold totalStep
  cases hstep : d.step q c with
  | none => rfl
  | some p => exact absurd (mem_alphabet.2 ⟨q, p, hstep⟩) h

theorem Alike.totalStep (hd : d.WellFormed) {p q : Nat} (h : d.Alike p q) (c : Char) :
    d.Alike (d.totalStep p c) (d.totalStep q c) := by
  intro w
  rw [← hd.acceptsFrom_cons, ← hd.acceptsFrom_cons]
  exact h (c :: w)

/-! ## Arrivals -/

theorem get?_arrivals (c : Char) :
    d.arrivals.get? c =
      if c ∈ d.alphabet then
        some (rowsOf (d.totalStates.toList.map fun q => (d.totalStep q c, q)))
      else none := by
  have hentry : ∀ {rows}, (c, rows) ∈ (d.alphabet.toList.map fun c =>
      (c, rowsOf (d.totalStates.toList.map fun q => ((rowStep d.moveRows q c).getD d.sink, q)))) ↔
      c ∈ d.alphabet ∧ rowsOf (d.totalStates.toList.map fun q => (d.totalStep q c, q)) = rows := by
    intro rows
    simp only [List.mem_map, Prod.mk.injEq, rowStep_moveRows, SortedSet.mem_toList]
    constructor
    · rintro ⟨_, hc, rfl, hrows⟩
      exact ⟨hc, hrows⟩
    · rintro ⟨hc, hrows⟩
      exact ⟨c, hc, rfl, hrows⟩
  apply Option.ext
  intro rows
  rw [arrivals, SortedMap.get?_ofList, SortedMap.find?_eq_some_iff_of_unique, hentry]
  · by_cases hc : c ∈ d.alphabet <;> simp [hc]
  · intro u v hu hv
    rw [← (hentry.1 hu).2, ← (hentry.1 hv).2]

theorem mem_sourcesInto {target : StateSet} {c : Char} {q : Nat} :
    q ∈ sourcesInto d.arrivals target c ↔
      c ∈ d.alphabet ∧ q ∈ d.totalStates ∧ d.totalStep q c ∈ target := by
  unfold sourcesInto
  rw [StateSet.mem_ofList, List.mem_flatMap, get?_arrivals]
  by_cases hc : c ∈ d.alphabet
  · simp only [hc, if_true, Option.getD_some, getD_rowsOf, List.filterMap_map, List.mem_filterMap,
      Function.comp_apply, StateSet.mem_toList, Option.ite_none_right_eq_some,
      Option.some.injEq, true_and]
    constructor
    · rintro ⟨p, hp, x, hx, rfl, rfl⟩
      exact ⟨hx, hp⟩
    · rintro ⟨hq, htarget⟩
      exact ⟨_, htarget, q, hq, rfl, rfl⟩
  · simp [hc]

/-! ## The invariant of the refinement -/

/-- What holds of the blocks, the owners and the queue whenever a splitter is about to be tried. -/
structure Refining (d : Dfa) (r : Refinement) : Prop where
  partitions : r.Partitions d.totalStates
  accepting_iff : ∀ p ∈ d.totalStates, ∀ q ∈ d.totalStates, r.owner[p]? = r.owner[q]? →
    (p ∈ d.accepting ↔ q ∈ d.accepting)
  separated : ∀ p ∈ d.totalStates, ∀ q ∈ d.totalStates, r.owner[p]? ≠ r.owner[q]? → ¬ d.Alike p q
  pending : ∀ p ∈ d.totalStates, ∀ q ∈ d.totalStates, r.owner[p]? = r.owner[q]? →
    ∀ c ∈ d.alphabet, ∀ i j : Nat,
      r.owner[d.totalStep p c]? = some i → r.owner[d.totalStep q c]? = some j → i ≠ j →
        (i, c) ∈ r.queue ∨ (j, c) ∈ r.queue

theorem Refining.mem_sources_iff (hd : d.WellFormed) {r : Refinement} (h : Refining d r) {i q : Nat}
    (c : Char) (hq : q ∈ d.totalStates) :
    q ∈ sourcesInto d.arrivals (r.block i) c ↔
      c ∈ d.alphabet ∧ r.owner[d.totalStep q c]? = some i := by
  rw [mem_sourcesInto, h.partitions.mem_block]
  simp [hq, hd.totalStep_mem hq c]

/-- States that the first splitter leaves together have nothing to do with it: if a character leads
them to different blocks, a later splitter is queued for one of these. -/
theorem Refining.pending_of_sources_iff (hd : d.WellFormed) {r : Refinement} (h : Refining d r)
    {i : Nat} {c : Char} {rest : List (Nat × Char)} (hqueue : r.queue = (i, c) :: rest) {p q : Nat}
    (hp : p ∈ d.totalStates) (hq : q ∈ d.totalStates) (hsame : r.owner[p]? = r.owner[q]?)
    (hside : p ∈ sourcesInto d.arrivals (r.block i) c ↔ q ∈ sourcesInto d.arrivals (r.block i) c)
    {a : Char} (ha : a ∈ d.alphabet) {k l : Nat} (hk : r.owner[d.totalStep p a]? = some k)
    (hl : r.owner[d.totalStep q a]? = some l) (hkl : k ≠ l) : (k, a) ∈ rest ∨ (l, a) ∈ rest := by
  rw [h.mem_sources_iff hd c hp, h.mem_sources_iff hd c hq] at hside
  have hkne : (k, a) ≠ (i, c) := by
    intro heq
    cases heq
    have hqk := (hside.1 ⟨ha, hk⟩).2
    rw [hl, Option.some.injEq] at hqk
    exact hkl hqk.symm
  have hlne : (l, a) ≠ (i, c) := by
    intro heq
    cases heq
    have hpl := (hside.2 ⟨ha, hl⟩).2
    rw [hk, Option.some.injEq] at hpl
    exact hkl hpl
  have hpending := h.pending p hp q hq hsame a ha k l hk hl hkl
  rw [hqueue] at hpending
  rcases hpending with hmem | hmem
  · exact .inl ((List.mem_cons.1 hmem).resolve_left hkne)
  · exact .inr ((List.mem_cons.1 hmem).resolve_left hlne)

theorem Refining.refineBy (hd : d.WellFormed) {r : Refinement} (h : Refining d r) {i : Nat}
    {c : Char} {rest : List (Nat × Char)} (hqueue : r.queue = (i, c) :: rest) :
    Refining d (Refinement.refineBy { r with queue := rest } d.alphabet.toList
      (sourcesInto d.arrivals (r.block i) c)) := by
  have hrest := h.partitions.setQueue rest
  have hsplits := Refinement.refineBy_splits hrest d.alphabet.toList
    (sourcesInto d.arrivals (r.block i) c)
  refine { partitions := hsplits.partitions, accepting_iff := ?_, separated := ?_, pending := ?_ }
  · intro p hp q hq hsame
    rw [Refinement.owner_refineBy_eq_iff hrest _ _ hp hq] at hsame
    exact h.accepting_iff p hp q hq hsame.1
  · intro p hp q hq hne
    rw [Ne, Refinement.owner_refineBy_eq_iff hrest _ _ hp hq, not_and] at hne
    by_cases hsame : r.owner[p]? = r.owner[q]?
    · have hside := hne hsame
      rw [h.mem_sources_iff hd c hp, h.mem_sources_iff hd c hq] at hside
      intro halike
      have htargets := halike.totalStep hd c
      apply h.separated _ (hd.totalStep_mem hp c) _ (hd.totalStep_mem hq c) _ htargets
      intro heq
      apply hside
      rw [heq]
    · exact h.separated p hp q hq hsame
  · intro p hp q hq hsame a ha k l hk hl hkl
    rw [Refinement.owner_refineBy_eq_iff hrest _ _ hp hq] at hsame
    rcases hsplits.queued _ (hd.totalStep_mem hp a) k hk with hk | hqueued
    · rcases hsplits.queued _ (hd.totalStep_mem hq a) l hl with hl | hqueued
      · have hpending := h.pending_of_sources_iff hd hqueue hp hq hsame.1 hsame.2 ha hk hl hkl
        exact hpending.imp (fun hmem => hsplits.queue_subset hmem)
          fun hmem => hsplits.queue_subset hmem
      · exact .inr (hqueued a ha)
    · exact .inl (hqueued a ha)

theorem Refining.run (hd : d.WellFormed) {fuel : Nat} {r : Refinement} (h : Refining d r)
    (hfuel : r.queue.length + (d.totalStates.size - r.blocks.size) * d.alphabet.toList.length ≤
      fuel) :
    Refining d (Refinement.run (sourcesInto d.arrivals) d.alphabet.toList fuel r) ∧
      (Refinement.run (sourcesInto d.arrivals) d.alphabet.toList fuel r).queue = [] := by
  induction fuel generalizing r with
  | zero =>
      refine ⟨h, List.eq_nil_of_length_eq_zero ?_⟩
      rw [Refinement.run]
      omega
  | succ fuel ih =>
      unfold Refinement.run
      split
      · rename_i hqueue
        exact ⟨h, hqueue⟩
      · rename_i i c rest hqueue
        apply ih (h.refineBy hd hqueue)
        have hcost := (Refinement.refineBy_splits (h.partitions.setQueue rest) d.alphabet.toList
          (sourcesInto d.arrivals (r.block i) c)).cost_eq
        rw [hcost]
        rw [hqueue, List.length_cons] at hfuel
        simp only
        omega

/-! ## The first blocks -/

private theorem mem_getD_iff_findIdx {l : List StateSet} (hl : l.Pairwise fun a b => ∀ q ∈ a, q ∉ b)
    {q i : Nat} :
    q ∈ l[i]?.getD ∅ ↔ (∃ b ∈ l, q ∈ b) ∧ (l.findIdx fun b => decide (q ∈ b)) = i := by
  induction l generalizing i with
  | nil => simp
  | cons b l ih =>
      rw [List.pairwise_cons] at hl
      rw [List.findIdx_cons, List.exists_mem_cons_iff]
      by_cases hq : q ∈ b
      · cases i with
        | zero => simp [hq]
        | succ i =>
            have hnot : ¬ ∃ a ∈ l, q ∈ a := fun ⟨a, ha, hqa⟩ => hl.1 a ha q hq hqa
            rw [List.getElem?_cons_succ, ih hl.2]
            simp [hnot, hq]
      · cases i with
        | zero => simp [hq]
        | succ i =>
            rw [List.getElem?_cons_succ, ih hl.2]
            simp [hq]

/-- The accepting states, and the others with the sink. -/
def halves (d : Dfa) : List StateSet :=
  [d.accepting ∩ d.reachable, (d.reachable \ d.accepting).insert d.sink]

def firstBlocks (d : Dfa) : List StateSet := d.halves.filter (!·.isEmpty)

theorem mem_firstBlocks {b : StateSet} {q : Nat} (hq : q ∈ b) :
    b ∈ d.firstBlocks ↔ b ∈ d.halves := by
  rw [firstBlocks, List.mem_filter, Bool.not_eq_true', StateSet.isEmpty_eq_false_iff]
  exact and_iff_left ⟨q, hq⟩

theorem WellFormed.mem_half_iff (hd : d.WellFormed) {b : StateSet} (hb : b ∈ d.halves) :
    ∃ side, ∀ q, q ∈ b ↔ q ∈ d.totalStates ∧ decide (q ∈ d.accepting) = side := by
  have hsink : d.sink ∉ d.accepting := fun hacc => Nat.lt_irrefl _ (hd.accepting_lt _ hacc)
  rcases List.mem_pair.1 hb with rfl | rfl
  · refine ⟨true, fun q => ?_⟩
    rw [StateSet.mem_inter, mem_totalStates, decide_eq_true_iff]
    constructor
    · rintro ⟨hacc, hreach⟩
      exact ⟨.inr hreach, hacc⟩
    · rintro ⟨rfl | hreach, hacc⟩
      · exact absurd hacc hsink
      · exact ⟨hacc, hreach⟩
  · refine ⟨false, fun q => ?_⟩
    rw [StateSet.mem_insert, StateSet.mem_diff, mem_totalStates, decide_eq_false_iff_not]
    constructor
    · rintro (rfl | ⟨hreach, hacc⟩)
      · exact ⟨.inl rfl, hsink⟩
      · exact ⟨.inr hreach, hacc⟩
    · rintro ⟨rfl | hreach, hacc⟩
      · exact .inl rfl
      · exact .inr ⟨hreach, hacc⟩

theorem WellFormed.exists_half (hd : d.WellFormed) {q : Nat} (hq : q ∈ d.totalStates) :
    ∃ b ∈ d.halves, q ∈ b := by
  by_cases hacc : q ∈ d.accepting
  · rcases mem_totalStates.1 hq with rfl | hreach
    · exact absurd (hd.accepting_lt _ hacc) (Nat.lt_irrefl _)
    · exact ⟨_, List.mem_cons_self, StateSet.mem_inter.2 ⟨hacc, hreach⟩⟩
  · refine ⟨_, List.mem_cons_of_mem _ (List.mem_singleton_self _), ?_⟩
    rw [StateSet.mem_insert, StateSet.mem_diff]
    exact (mem_totalStates.1 hq).imp_right fun hreach => ⟨hreach, hacc⟩

theorem WellFormed.pairwise_firstBlocks (hd : d.WellFormed) :
    d.firstBlocks.Pairwise fun a b => ∀ q ∈ a, q ∉ b := by
  apply List.Pairwise.filter
  rw [halves, List.pairwise_pair]
  intro q hq hq'
  rcases StateSet.mem_insert.1 hq' with rfl | hq'
  · exact Nat.lt_irrefl _ (hd.accepting_lt _ (StateSet.mem_inter.1 hq).1)
  · exact (StateSet.mem_diff.1 hq').2 (StateSet.mem_inter.1 hq).1

theorem WellFormed.partitions_firstRefinement (hd : d.WellFormed) :
    d.firstRefinement.Partitions d.totalStates := by
  have hblock : ∀ i, d.firstRefinement.block i = d.firstBlocks[i]?.getD ∅ := by
    intro i
    rw [Refinement.block, firstRefinement, List.getElem?_toArray]
    rfl
  have howner : ∀ q ∈ d.totalStates,
      d.firstRefinement.owner[q]? = some (d.firstBlocks.findIdx fun b => decide (q ∈ b)) := by
    intro q hq
    have hlt : q < d.sink + 1 := Nat.lt_succ_of_le (hd.le_sink_of_mem_totalStates hq)
    rw [firstRefinement, Array.getElem?_map, Array.getElem?_range, if_pos hlt]
    rfl
  have hexists : ∀ q, (∃ b ∈ d.firstBlocks, q ∈ b) ↔ q ∈ d.totalStates := by
    intro q
    constructor
    · rintro ⟨b, hb, hq⟩
      obtain ⟨side, hside⟩ := hd.mem_half_iff ((mem_firstBlocks hq).1 hb)
      exact ((hside q).1 hq).1
    · intro hq
      obtain ⟨b, hb, hqb⟩ := hd.exists_half hq
      exact ⟨b, (mem_firstBlocks hqb).2 hb, hqb⟩
  refine { mem_block := ?_, owned := fun q hq => ⟨_, howner q hq⟩, nonempty := ?_ }
  · intro q i
    rw [hblock, mem_getD_iff_findIdx hd.pairwise_firstBlocks, hexists]
    constructor
    · rintro ⟨hq, rfl⟩
      exact ⟨hq, howner q hq⟩
    · rintro ⟨hq, hi⟩
      rw [howner q hq, Option.some.injEq] at hi
      exact ⟨hq, hi⟩
  · intro i hi
    have hlt : i < d.firstBlocks.length := by
      rw [firstRefinement, List.size_toArray] at hi
      exact hi
    have hmem := (List.mem_filter.1 (List.getElem_mem hlt)).2
    rw [Bool.not_eq_true', StateSet.isEmpty_eq_false_iff] at hmem
    rw [hblock, List.getElem?_eq_getElem hlt, Option.getD_some]
    exact hmem

/-- The first blocks are the sides of acceptance, and everything is queued. -/
theorem WellFormed.refining_firstRefinement (hd : d.WellFormed) : Refining d d.firstRefinement := by
  have hpartitions := hd.partitions_firstRefinement
  have hside : ∀ i, i < d.firstRefinement.blocks.size →
      ∃ side, ∀ q, q ∈ d.firstRefinement.block i ↔
        q ∈ d.totalStates ∧ decide (q ∈ d.accepting) = side := by
    intro i hi
    obtain ⟨q, hq⟩ := hpartitions.nonempty i hi
    have hmem : d.firstRefinement.block i ∈ d.firstBlocks := by
      rw [Refinement.block, Array.getElem?_eq_getElem hi, Option.getD_some]
      exact List.mem_toArray.1 (Array.getElem_mem hi)
    exact hd.mem_half_iff ((mem_firstBlocks hq).1 hmem)
  have hlt : ∀ q ∈ d.totalStates, ∀ i, d.firstRefinement.owner[q]? = some i →
      i < d.firstRefinement.blocks.size := by
    intro q hq i hi
    exact Refinement.lt_size_of_mem_block ((hpartitions.mem_block q i).2 ⟨hq, hi⟩)
  have hsame : ∀ p ∈ d.totalStates, ∀ q ∈ d.totalStates,
      d.firstRefinement.owner[p]? = d.firstRefinement.owner[q]? ↔
        (p ∈ d.accepting ↔ q ∈ d.accepting) := by
    intro p hp q hq
    obtain ⟨i, hi⟩ := hpartitions.owned p hp
    obtain ⟨side, hmem⟩ := hside i (hlt p hp i hi)
    have hpside := ((hmem p).1 ((hpartitions.mem_block p i).2 ⟨hp, hi⟩)).2
    constructor
    · intro heq
      have hqside := ((hmem q).1 ((hpartitions.mem_block q i).2 ⟨hq, heq ▸ hi⟩)).2
      exact decide_eq_decide.1 (hpside.trans hqside.symm)
    · intro hiff
      have hq' := (hmem q).2 ⟨hq, (decide_eq_decide.2 hiff).symm.trans hpside⟩
      rw [hi, ((hpartitions.mem_block q i).1 hq').2]
  refine { partitions := hpartitions, accepting_iff := fun p hp q hq => (hsame p hp q hq).1,
           separated := ?_, pending := ?_ }
  · intro p hp q hq hne halike
    apply hne
    rw [hsame p hp q hq, ← decide_eq_decide]
    exact halike []
  · intro p hp q _ _ c hc i j hi _ _
    left
    have hmem := hlt _ (hd.totalStep_mem hp c) i hi
    exact List.mem_flatMap.2 ⟨i, List.mem_range.2 hmem, List.mem_map.2 ⟨c, hc, rfl⟩⟩

/-! ## The blocks -/

theorem WellFormed.refining_refinement (hd : d.WellFormed) :
    Refining d d.refinement ∧ d.refinement.queue = [] := by
  apply hd.refining_firstRefinement.run hd
  have hle := hd.partitions_firstRefinement.size_blocks_le
  have hqueue : d.firstRefinement.queue.length =
      d.firstRefinement.blocks.size * d.alphabet.toList.length := by
    simp [firstRefinement, List.length_flatMap]
  rw [hqueue, ← Nat.add_mul, Nat.add_sub_cancel' hle]
  exact Nat.le_refl _

/-- When nothing is queued, the blocks are closed under moves and tell no more apart than words. -/
theorem WellFormed.owner_eq_iff_alike (hd : d.WellFormed) {p q : Nat} (hp : p ∈ d.totalStates)
    (hq : q ∈ d.totalStates) : d.refinement.owner[p]? = d.refinement.owner[q]? ↔ d.Alike p q := by
  obtain ⟨h, hqueue⟩ := hd.refining_refinement
  constructor
  · intro heq w
    induction w generalizing p q with
    | nil => exact decide_eq_decide.2 (h.accepting_iff p hp q hq heq)
    | cons c w ih =>
        rw [hd.acceptsFrom_cons, hd.acceptsFrom_cons]
        by_cases hc : c ∈ d.alphabet
        · apply ih (hd.totalStep_mem hp c) (hd.totalStep_mem hq c)
          obtain ⟨i, hi⟩ := h.partitions.owned _ (hd.totalStep_mem hp c)
          obtain ⟨j, hj⟩ := h.partitions.owned _ (hd.totalStep_mem hq c)
          by_contra hne
          rw [hi, hj, Option.some.injEq] at hne
          have hpending := h.pending p hp q hq heq c hc i j hi hj hne
          rw [hqueue] at hpending
          rcases hpending with hmem | hmem <;> exact List.not_mem_nil hmem
        · rw [totalStep_of_not_mem_alphabet hc, totalStep_of_not_mem_alphabet hc]
  · intro halike
    by_contra hne
    exact h.separated p hp q hq hne halike

def block (d : Dfa) (i : Nat) : StateSet := d.blocks[i]?.getD ∅

theorem block_eq (i : Nat) : d.block i = d.refinement.block i := by
  rw [block, blocks, Array.getElem?_toList]
  rfl

theorem WellFormed.mem_totalStates_of_mem_block (hd : d.WellFormed) {q i : Nat}
    (h : q ∈ d.block i) : q ∈ d.totalStates := by
  rw [block_eq, hd.refining_refinement.1.partitions.mem_block] at h
  exact h.1

theorem WellFormed.exists_mem_block (hd : d.WellFormed) {q : Nat} (hq : q ∈ d.totalStates) :
    ∃ i, q ∈ d.block i := by
  obtain ⟨i, hi⟩ := hd.refining_refinement.1.partitions.owned q hq
  refine ⟨i, ?_⟩
  rw [block_eq, hd.refining_refinement.1.partitions.mem_block]
  exact ⟨hq, hi⟩

/-- The blocks are the classes of states that no word tells apart. -/
theorem WellFormed.alike_iff_of_mem_block (hd : d.WellFormed) {p q i j : Nat} (hp : p ∈ d.block i)
    (hq : q ∈ d.block j) : d.Alike p q ↔ i = j := by
  rw [block_eq, hd.refining_refinement.1.partitions.mem_block] at hp hq
  rw [← hd.owner_eq_iff_alike hp.1 hq.1, hp.2, hq.2, Option.some.injEq]

theorem WellFormed.mem_block_of_alike (hd : d.WellFormed) {p q i : Nat} (hp : p ∈ d.block i)
    (hq : q ∈ d.totalStates) (h : d.Alike p q) : q ∈ d.block i := by
  obtain ⟨j, hj⟩ := hd.exists_mem_block hq
  rw [(hd.alike_iff_of_mem_block hp hj).1 h]
  exact hj

end RegularLanguages.Dfa
