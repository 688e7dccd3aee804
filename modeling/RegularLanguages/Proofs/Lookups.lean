import RegularLanguages.Proofs.Dfa.Minimization
import RegularLanguages.Proofs.Nfa.DeadStates

/-!
# Tables are read within their bounds

Renumbering, pruning and minimization look states up in tables by their numbers. In a well-formed
automaton each number that is looked up has an entry (`Nfa.WellFormed.lookupsInRange`,
`Dfa.WellFormed.lookupsInRange`). For the refinement of blocks this holds at every splitter on the
way, since what is queued names blocks that are there, and blocks are only added.
-/

namespace RegularLanguages

/-! ## Renumbering and pruning -/

namespace Nfa

variable {n : Nfa}

/-- Every state that is looked up has a number that the tables of all states reach, and a new number
below the size of the new automaton. -/
structure LookupsInRange (n : Nfa) : Prop where
  searchOrder_lt : ∀ q ∈ n.searchOrder, q < n.size
  renumbered : n.Within fun q => ∃ i < n.size, (Index.ofList n.searchOrder).place? q = some i
  kept_lt : ∀ q ∈ n.liveStates.insert n.start, q < n.size
  pruned : (n.part (n.liveStates.insert n.start)).Within fun q =>
    ∃ i < n.prune.size, (Index.ofList (n.liveStates.insert n.start).toList).place? q = some i

theorem Within.imp {inside inside' : Nat → Prop} (h : n.Within inside)
    (himp : ∀ q, inside q → inside' q) : n.Within inside' where
  start := himp _ h.start
  accepting := fun q hq => himp q (h.accepting q hq)
  ends := fun he => (h.ends he).imp (himp _) (himp _)

theorem exists_place {l : List Nat} {q : Nat} (hq : q ∈ l) :
    ∃ i < l.length, (Index.ofList l).place? q = some i :=
  ⟨_, Index.place_lt_length hq, Index.place?_eq_some_place hq⟩

theorem WellFormed.lookupsInRange (hn : n.WellFormed) : n.LookupsInRange where
  searchOrder_lt := fun q hq => hn.mem_searchOrder.1 hq
  renumbered := by
    apply hn.within.imp
    intro q hq
    rw [← hn.length_searchOrder]
    exact exists_place (hn.mem_searchOrder.2 hq)
  kept_lt := fun q hq => hn.kept_lt hq
  pruned := by
    apply (within_part n.start_mem_kept).imp
    intro q hq
    rw [prune, size_restrict]
    exact exists_place (StateSet.mem_toList.2 hq)

end Nfa

/-! ## Refinement -/

namespace Refinement

variable {r : Refinement}

def QueueInRange (r : Refinement) : Prop := ∀ s ∈ r.queue, s.1 < r.blocks.size

theorem QueueInRange.splitBlock (h : r.QueueInRange) (alphabet : List Char)
    (s : StateSet) (i : Nat) :
    (splitBlock alphabet s r i).QueueInRange := by
  unfold Refinement.splitBlock
  split
  · exact h
  · intro e he
    rw [Array.size_push, Array.size_setIfInBounds]
    rcases List.mem_append.1 he with he | he
    · exact Nat.lt_succ_of_lt (h e he)
    · obtain ⟨c, -, rfl⟩ := List.mem_map.1 he
      exact Nat.lt_succ_self _

theorem QueueInRange.refineBy (h : r.QueueInRange) (alphabet : List Char) (s : StateSet) :
    (r.refineBy alphabet s).QueueInRange := by
  unfold Refinement.refineBy
  generalize (r.touched s).toList = indices
  induction indices generalizing r with
  | nil => exact h
  | cons i indices ih => exact ih (h.splitBlock alphabet s i)

end Refinement

namespace Dfa

variable {d : Dfa} {r : Refinement}

/-- Whether a refinement can go on without a look-up that fails: the splitters are blocks, the
members of blocks are states or the sink, and every state that is left has an owner among the
blocks. -/
structure TablesInRange (d : Dfa) (r : Refinement) : Prop where
  queue_lt : r.QueueInRange
  member_le : ∀ i, ∀ q ∈ r.block i, q ≤ d.sink
  owner_lt : ∀ q ∈ d.totalStates, ∃ i < r.blocks.size, r.owner[q]? = some i

theorem Refining.tablesInRange (hd : d.WellFormed) (h : Refining d r) (hqueue : r.QueueInRange) :
    d.TablesInRange r where
  queue_lt := hqueue
  member_le := fun i q hq => hd.le_sink_of_mem_totalStates ((h.partitions.mem_block q i).1 hq).1
  owner_lt := by
    intro q hq
    obtain ⟨i, hi⟩ := h.partitions.owned q hq
    exact ⟨i, Refinement.lt_size_of_mem_block ((h.partitions.mem_block q i).2 ⟨hq, hi⟩), hi⟩

/-- However many splitters have been tried, the tables are in range. -/
theorem Refining.tablesInRange_run (hd : d.WellFormed) (fuel : Nat) (h : Refining d r)
    (hqueue : r.QueueInRange) :
    d.TablesInRange (Refinement.run (sourcesInto d.arrivals) d.alphabet.toList fuel r) := by
  induction fuel generalizing r with
  | zero => exact h.tablesInRange hd hqueue
  | succ fuel ih =>
      unfold Refinement.run
      split
      · exact h.tablesInRange hd hqueue
      · rename_i i c rest heq
        have hrest : Refinement.QueueInRange { r with queue := rest } := by
          intro s hs
          apply hqueue s
          rw [heq]
          exact List.mem_cons_of_mem _ hs
        exact ih (h.refineBy hd heq) (hrest.refineBy _ _)

theorem queueInRange_firstRefinement (d : Dfa) : d.firstRefinement.QueueInRange := by
  intro s hs
  obtain ⟨i, hi, hs⟩ := List.mem_flatMap.1 hs
  obtain ⟨c, -, rfl⟩ := List.mem_map.1 hs
  exact List.mem_range.1 hi

/-! ## Minimization -/

/-- Every state that is looked up in the course of a minimization has an owner and a block,
whichever splitters have been tried, and every block that is visited has a state to stand for it
and a number below the size of the new automaton. -/
structure LookupsInRange (d : Dfa) : Prop where
  refinement : ∀ fuel, d.TablesInRange
    (Refinement.run (sourcesInto d.arrivals) d.alphabet.toList fuel d.firstRefinement)
  totalStates_le : ∀ q ∈ d.totalStates, q ≤ d.sink
  start_mem : d.start ∈ d.totalStates
  sink_mem : d.sink ∈ d.totalStates
  step_mem : ∀ q ∈ d.totalStates, ∀ c, d.totalStep q c ∈ d.totalStates
  blockOf : ∀ q ∈ d.totalStates, ∃ i < d.blocks.length, blockOf (owners d.blocks) q = some i
  visited : ∀ v ∈ d.liveBlocks d.blocks, ∃ b q, d.blocks[v.node]? = some b ∧ b.first? = some q ∧
    q ∈ d.totalStates
  numbered : ∀ v ∈ d.liveBlocks d.blocks, ∀ e ∈ v.edges, ∃ i < d.minimize.size,
    (Index.ofList ((d.liveBlocks d.blocks).map (·.node))).place? e.2 = some i

theorem WellFormed.visited_liveBlocks (hd : d.WellFormed) {v : Visit Nat Char}
    (hv : v ∈ d.liveBlocks d.blocks) :
    (∃ q, q ∈ d.block v.node) ∧
      ∀ e ∈ v.edges, ∃ i < (d.liveBlocks d.blocks).length,
        (Index.ofList ((d.liveBlocks d.blocks).map (·.node))).place? e.2 = some i := by
  rcases d.exists_accepts_or_empty with h | hempty
  · obtain ⟨first, hstart, hlive⟩ := hd.exists_first h
    have henumerates := hd.enumerates_liveBlocks hstart hlive
    have hspells := (henumerates.least v hv).1
    constructor
    · obtain ⟨q, -, hq, -⟩ := (hd.spells_blockNext_iff hstart hlive).1 hspells
      exact ⟨q, hq⟩
    · rintro ⟨c, j⟩ he
      rw [henumerates.edges_eq v hv] at he
      have hnext := Search.spells_append.2 ⟨_, hspells, Search.spells_singleton.2 he⟩
      obtain ⟨u, hu, rfl⟩ := henumerates.covers _ _ hnext
      obtain ⟨i, hi⟩ := List.getElem?_of_mem hu
      exact ⟨i, (List.getElem?_eq_some_iff.1 hi).1,
        (mem_place_visits henumerates.toFound).2 ⟨u, hi, rfl⟩⟩
  · rw [hd.liveBlocks_eq_nil hempty] at hv
    exact absurd hv List.not_mem_nil

theorem WellFormed.lookupsInRange (hd : d.WellFormed) : d.LookupsInRange where
  refinement := fun fuel =>
    hd.refining_firstRefinement.tablesInRange_run hd fuel d.queueInRange_firstRefinement
  totalStates_le := fun q hq => hd.le_sink_of_mem_totalStates hq
  start_mem := d.start_mem_totalStates
  sink_mem := mem_totalStates.2 (.inl rfl)
  step_mem := fun q hq c => hd.totalStep_mem hq c
  blockOf := by
    intro q hq
    obtain ⟨i, hi⟩ := hd.exists_mem_block hq
    exact ⟨i, lt_length_blocks hi, hd.blockOf_eq_some_iff.2 hi⟩
  visited := by
    intro v hv
    obtain ⟨q, hq⟩ := (hd.visited_liveBlocks hv).1
    have hlt := lt_length_blocks hq
    obtain ⟨p, hp, hmem⟩ := exists_first? hq
    exact ⟨d.block v.node, p, by rw [block, List.getElem?_eq_getElem hlt]; rfl, hp,
      hd.mem_totalStates_of_mem_block hmem⟩
  numbered := by
    intro v hv e he
    obtain ⟨i, hi, hplace⟩ := (hd.visited_liveBlocks hv).2 e he
    refine ⟨i, ?_, hplace⟩
    rw [size_minimize]
    exact Nat.lt_of_lt_of_le hi (Nat.le_max_right _ _)

end Dfa

end RegularLanguages
