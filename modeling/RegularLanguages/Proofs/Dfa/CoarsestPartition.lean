import Mathlib.Data.Finset.Lattice.Fold
import RegularLanguages.Proofs.Dfa.Refinement

/-!
# The coarsest stable partition

The loop that tries splitters is stated here without a bound on its steps, as a relation that keeps
the splitters in the order in which they are tried (`Refinement.Exhausts`). It ends, and until then
every pair of a block and a character has been a splitter exactly once.

The blocks that are left separate the accepting states from the others and are stable under all
characters, and states that are kept together by any relation of this kind share a block. Splitting
all classes round after round, without any choice of splitters, comes to the same
(`WellFormed.together_iff_agree`).
-/

namespace RegularLanguages

namespace Refinement

/-! ## Splitting all blocks -/

def splitAll (alphabet : List Char) (s : StateSet) (r : Refinement) : Refinement :=
  (List.range r.blocks.size).foldl (splitBlock alphabet s) r

section Split

variable {alphabet : List Char} {r : Refinement} {states s : StateSet} {i k q : Nat}

theorem splitBlock_eq_self (h : ∀ q ∈ r.block i, q ∉ s) : splitBlock alphabet s r i = r := by
  have hinside : (r.block i ∩ s).isEmpty = true := by
    rw [StateSet.isEmpty_iff_forall]
    intro q hq
    exact h q (StateSet.mem_inter.1 hq).1 (StateSet.mem_inter.1 hq).2
  unfold splitBlock
  rw [show r.blocks[i]?.getD ∅ = r.block i from rfl, split, hinside]
  rfl

theorem block_splitBlock (alphabet : List Char) (s : StateSet) (i : Nat) (hk : k < r.blocks.size) :
    k < (splitBlock alphabet s r i).blocks.size ∧
      ∀ q ∈ (splitBlock alphabet s r i).block k, q ∈ r.block k := by
  unfold splitBlock
  rw [show r.blocks[i]?.getD ∅ = r.block i from rfl]
  rcases split_cases s (r.block i) with ⟨hsplit, -⟩ | ⟨kept, part, hsplit, hparts⟩
  · rw [hsplit]
    exact ⟨hk, fun _ hq => hq⟩
  · rw [hsplit]
    change k < (cut alphabet r i kept part).blocks.size ∧
      ∀ q ∈ (cut alphabet r i kept part).block k, q ∈ r.block k
    rw [size_blocks_cut, block_cut hparts, if_neg (Nat.ne_of_lt hk)]
    refine ⟨Nat.lt_succ_of_lt hk, fun q hq => ?_⟩
    by_cases hki : k = i
    · rw [if_pos hki] at hq
      rw [hki]
      exact (hparts.mem_block q).2 (.inl hq)
    · rwa [if_neg hki] at hq

theorem foldl_splitBlock_filter {t : StateSet} {indices : List Nat}
    (h : ∀ k ∈ indices, k < r.blocks.size ∧ (k ∉ t → ∀ q ∈ r.block k, q ∉ s)) :
    indices.foldl (splitBlock alphabet s) r =
      (indices.filter (· ∈ t)).foldl (splitBlock alphabet s) r := by
  induction indices generalizing r with
  | nil => rfl
  | cons i indices ih =>
      have hrest : ∀ k ∈ indices, k < (splitBlock alphabet s r i).blocks.size ∧
          (k ∉ t → ∀ q ∈ (splitBlock alphabet s r i).block k, q ∉ s) := by
        intro k hk
        obtain ⟨hlt, hout⟩ := h k (List.mem_cons_of_mem i hk)
        obtain ⟨hlt', hsub⟩ := block_splitBlock alphabet s i hlt
        exact ⟨hlt', fun hkt q hq => hout hkt q (hsub q hq)⟩
      by_cases hi : i ∈ t
      · rw [List.filter_cons_of_pos (by simpa using hi)]
        exact ih hrest
      · have hself : splitBlock alphabet s r i = r :=
          splitBlock_eq_self ((h i List.mem_cons_self).2 hi)
        rw [List.filter_cons_of_neg (by simpa using hi), List.foldl_cons, hself]
        rw [hself] at hrest
        exact ih hrest

/-- To split the blocks that hold a state of the set is to split all. -/
theorem Partitions.refineBy_eq_splitAll (h : r.Partitions states) (hs : ∀ q ∈ s, q ∈ states) :
    r.refineBy alphabet s = r.splitAll alphabet s := by
  have htouched : ∀ i, i ∈ r.touched s ↔ ∃ q ∈ s, r.owner[q]? = some i := by
    intro i
    rw [touched, StateSet.mem_ofList, List.mem_filterMap]
    simp only [StateSet.mem_toList]
  have hlist : (r.touched s).toList = (List.range r.blocks.size).filter (· ∈ r.touched s) := by
    refine StateSet.toList_eq_of_mem_iff (List.pairwise_lt_range.filter _) fun i => ?_
    rw [List.mem_filter, List.mem_range, decide_eq_true_iff]
    refine ⟨fun hi => ⟨?_, hi⟩, fun hi => hi.2⟩
    obtain ⟨q, hq, howner⟩ := (htouched i).1 hi
    exact lt_size_of_mem_block ((h.mem_block q i).2 ⟨hs q hq, howner⟩)
  rw [refineBy, hlist, splitAll]
  refine (foldl_splitBlock_filter fun k hk => ⟨List.mem_range.1 hk, fun hkt q hq hqs => ?_⟩).symm
  exact hkt ((htouched k).2 ⟨q, hqs, ((h.mem_block q k).1 hq).2⟩)

end Split

/-! ## The loop -/

/-- `Exhausts sources alphabet r tried r'` says that trying the splitters at the front of the queue,
until none is left, leads from `r` to `r'`, and that `tried` lists them in order. -/
inductive Exhausts (sources : StateSet → Char → StateSet) (alphabet : List Char) :
    Refinement → List (Nat × Char) → Refinement → Prop
  | done {r : Refinement} : r.queue = [] → Exhausts sources alphabet r [] r
  | step {r r' : Refinement} {i : Nat} {c : Char} {rest tried : List (Nat × Char)} :
    r.queue = (i, c) :: rest →
      Exhausts sources alphabet (splitAll alphabet (sources (r.block i) c) { r with queue := rest })
        tried r' →
      Exhausts sources alphabet r ((i, c) :: tried) r'

def splitters (alphabet : List Char) (count : Nat) : List (Nat × Char) :=
  (List.range count).flatMap fun i => alphabet.map fun c => (i, c)

section Loop

variable {sources : StateSet → Char → StateSet} {alphabet : List Char} {r r' : Refinement}
  {tried : List (Nat × Char)}

theorem splitters_succ (alphabet : List Char) (count : Nat) :
    splitters alphabet (count + 1) =
      splitters alphabet count ++ alphabet.map fun c => (count, c) := by
  simp [splitters, List.range_succ]

theorem mem_splitters {count i : Nat} {c : Char} :
    (i, c) ∈ splitters alphabet count ↔ i < count ∧ c ∈ alphabet := by
  simp [splitters]

theorem nodup_splitters (h : alphabet.Nodup) (count : Nat) : (splitters alphabet count).Nodup := by
  induction count with
  | zero => exact List.nodup_nil
  | succ count ih =>
      rw [splitters_succ, List.nodup_append]
      refine ⟨ih, h.map fun c c' heq => (Prod.mk.inj heq).2, ?_⟩
      rintro ⟨i, c⟩ hold s hnew rfl
      obtain ⟨c', -, heq⟩ := List.mem_map.1 hnew
      have hlt := (mem_splitters.1 hold).1
      rw [← (Prod.mk.inj heq).1] at hlt
      exact Nat.lt_irrefl count hlt

/-- What has been tried and what is queued are together all pairs there are, each of them once. -/
def AllQueued (alphabet : List Char) (tried : List (Nat × Char)) (r : Refinement) : Prop :=
  tried ++ r.queue = splitters alphabet r.blocks.size

theorem AllQueued.splitBlock (h : AllQueued alphabet tried r) (s : StateSet) (i : Nat) :
    AllQueued alphabet tried (splitBlock alphabet s r i) := by
  unfold Refinement.splitBlock
  split
  · exact h
  · unfold AllQueued at *
    rw [Array.size_push, Array.size_setIfInBounds, splitters_succ, ← h, List.append_assoc]

theorem AllQueued.splitAll (h : AllQueued alphabet tried r) (s : StateSet) :
    AllQueued alphabet tried (r.splitAll alphabet s) := by
  unfold Refinement.splitAll
  generalize List.range r.blocks.size = indices
  induction indices generalizing r with
  | nil => exact h
  | cons i indices ih => exact ih (h.splitBlock s i)

theorem AllQueued.exhausts {before : List (Nat × Char)} (h : AllQueued alphabet before r)
    (hloop : Exhausts sources alphabet r tried r') :
    before ++ tried = splitters alphabet r'.blocks.size := by
  induction hloop generalizing before with
  | done hqueue =>
      rw [AllQueued, hqueue] at h
      exact h
  | @step r r' i c rest tried hqueue _ ih =>
      have hpopped : AllQueued alphabet (before ++ [(i, c)]) { r with queue := rest } := by
        rw [AllQueued, hqueue] at h
        rw [AllQueued, List.append_assoc]
        exact h
      have hrest := ih (hpopped.splitAll _)
      rwa [List.append_assoc] at hrest

end Loop

end Refinement

namespace Dfa

variable {d : Dfa}

/-- A run that empties the queue is the loop. -/
theorem Refining.exists_exhausts (hd : d.WellFormed) {fuel : Nat} {r : Refinement}
    (h : Refining d r)
    (hend : (Refinement.run (sourcesInto d.arrivals) d.alphabet.toList fuel r).queue = []) :
    ∃ tried, Refinement.Exhausts (sourcesInto d.arrivals) d.alphabet.toList r tried
      (Refinement.run (sourcesInto d.arrivals) d.alphabet.toList fuel r) := by
  induction fuel generalizing r with
  | zero => exact ⟨[], .done hend⟩
  | succ fuel ih =>
      unfold Refinement.run at hend ⊢
      split at hend
      · rename_i hqueue
        exact ⟨[], .done hqueue⟩
      · rename_i i c rest hqueue
        obtain ⟨tried, htried⟩ := ih (h.refineBy hd hqueue) hend
        refine ⟨(i, c) :: tried, .step hqueue ?_⟩
        rw [← (h.partitions.setQueue rest).refineBy_eq_splitAll fun q hq =>
          (mem_sourcesInto.1 hq).2.1]
        exact htried

theorem WellFormed.exhausts_refinement (hd : d.WellFormed) :
    ∃ tried, Refinement.Exhausts (sourcesInto d.arrivals) d.alphabet.toList
        d.firstRefinement tried d.refinement ∧
      tried = Refinement.splitters d.alphabet.toList d.blocks.length := by
  obtain ⟨tried, htried⟩ := hd.refining_firstRefinement.exists_exhausts hd hd.refining_refinement.2
  have hfirst : Refinement.AllQueued d.alphabet.toList [] d.firstRefinement := by
    simp [Refinement.AllQueued, Refinement.splitters, firstRefinement]
  exact ⟨tried, htried, hfirst.exhausts htried⟩

/-! ## Sharing a block -/

def Together (d : Dfa) (p q : Nat) : Prop := ∃ i, p ∈ d.block i ∧ q ∈ d.block i

theorem WellFormed.together_iff_alike (hd : d.WellFormed) {p q : Nat} (hp : p ∈ d.totalStates)
    (hq : q ∈ d.totalStates) : d.Together p q ↔ d.Alike p q := by
  constructor
  · rintro ⟨i, hpi, hqi⟩
    exact (hd.alike_iff_of_mem_block hpi hqi).2 rfl
  · intro halike
    obtain ⟨i, hi⟩ := hd.exists_mem_block hp
    exact ⟨i, hi, hd.mem_block_of_alike hi hq halike⟩

/-- A relation of states that tells accepting states from others and goes along with all moves. -/
structure Stable (d : Dfa) (related : Nat → Nat → Prop) : Prop where
  accepting_iff : ∀ p ∈ d.totalStates, ∀ q ∈ d.totalStates, related p q →
    (p ∈ d.accepting ↔ q ∈ d.accepting)
  totalStep : ∀ p ∈ d.totalStates, ∀ q ∈ d.totalStates, related p q →
    ∀ c ∈ d.alphabet, related (d.totalStep p c) (d.totalStep q c)

theorem WellFormed.stable_together (hd : d.WellFormed) : d.Stable d.Together where
  accepting_iff p hp q hq h := decide_eq_decide.1 ((hd.together_iff_alike hp hq).1 h [])
  totalStep p hp q hq h c _ := by
    rw [hd.together_iff_alike hp hq] at h
    rw [hd.together_iff_alike (hd.totalStep_mem hp c) (hd.totalStep_mem hq c)]
    exact h.totalStep hd c

theorem Stable.alike (hd : d.WellFormed) {related : Nat → Nat → Prop}
    (h : d.Stable related) {p q : Nat}
    (hp : p ∈ d.totalStates) (hq : q ∈ d.totalStates) (hpq : related p q) : d.Alike p q := by
  intro w
  induction w generalizing p q with
  | nil => exact decide_eq_decide.2 (h.accepting_iff p hp q hq hpq)
  | cons c w ih =>
      rw [hd.acceptsFrom_cons, hd.acceptsFrom_cons]
      by_cases hc : c ∈ d.alphabet
      · exact ih (hd.totalStep_mem hp c) (hd.totalStep_mem hq c) (h.totalStep p hp q hq hpq c hc)
      · rw [totalStep_of_not_mem_alphabet hc, totalStep_of_not_mem_alphabet hc]

/-! ## Round after round -/

/-- Two states are in one class after some rounds. At first the classes are the accepting states and
the others; each round keeps together what all characters lead into the same classes. -/
def Agree (d : Dfa) : Nat → Nat → Nat → Prop
  | 0, p, q => p ∈ d.accepting ↔ q ∈ d.accepting
  | k + 1, p, q => d.Agree k p q ∧ ∀ c ∈ d.alphabet, d.Agree k (d.totalStep p c) (d.totalStep q c)

/-- The classes of a round tell apart what words up to its number of characters do. -/
theorem WellFormed.agree_iff (hd : d.WellFormed) {k p q : Nat} :
    d.Agree k p q ↔ ∀ w : List Char, w.length ≤ k → d.acceptsFrom p w = d.acceptsFrom q w := by
  induction k generalizing p q with
  | zero =>
      constructor
      · intro h w hw
        rw [List.eq_nil_of_length_eq_zero (Nat.le_zero.1 hw)]
        exact decide_eq_decide.2 h
      · intro h
        exact decide_eq_decide.1 (h [] (Nat.le_refl 0))
  | succ k ih =>
      simp only [Agree, ih]
      constructor
      · rintro ⟨hshort, hmoves⟩ w hw
        cases w with
        | nil => exact hshort [] (Nat.zero_le k)
        | cons c w =>
            rw [hd.acceptsFrom_cons, hd.acceptsFrom_cons]
            by_cases hc : c ∈ d.alphabet
            · exact hmoves c hc w (Nat.le_of_succ_le_succ hw)
            · rw [totalStep_of_not_mem_alphabet hc, totalStep_of_not_mem_alphabet hc]
      · intro h
        refine ⟨fun w hw => h w (Nat.le_succ_of_le hw), fun c _ w hw => ?_⟩
        rw [← hd.acceptsFrom_cons, ← hd.acceptsFrom_cons]
        exact h (c :: w) (Nat.succ_le_succ hw)

/-- No state leaves its class in the round after some rounds. -/
def Settled (d : Dfa) (k : Nat) : Prop :=
  ∀ p ∈ d.totalStates, ∀ q ∈ d.totalStates, d.Agree k p q → d.Agree (k + 1) p q

theorem WellFormed.agree_of_alike (hd : d.WellFormed) {p q : Nat} (h : d.Alike p q) (k : Nat) :
    d.Agree k p q :=
  hd.agree_iff.2 fun w _ => h w

theorem WellFormed.stable_of_settled (hd : d.WellFormed) {k : Nat} (h : d.Settled k) :
    d.Stable (d.Agree k) where
  accepting_iff _ _ _ _ hpq := decide_eq_decide.1 (hd.agree_iff.1 hpq [] (Nat.zero_le k))
  totalStep p hp q hq hpq := (h p hp q hq hpq).2

/-- There are finitely many pairs of states, so that some round tells apart all that words tell
apart. -/
theorem WellFormed.exists_settled (hd : d.WellFormed) : ∃ k, d.Settled k := by
  have hpair : ∀ p q, ∃ k, d.Agree k p q → d.Alike p q := by
    intro p q
    by_cases halike : d.Alike p q
    · exact ⟨0, fun _ => halike⟩
    · obtain ⟨w, hw⟩ := not_forall.1 halike
      exact ⟨w.length, fun hagree => absurd (hd.agree_iff.1 hagree w (Nat.le_refl _)) hw⟩
  choose round hround using hpair
  let states := d.totalStates.toList.toFinset
  let k := states.sup fun p => states.sup (round p)
  refine ⟨k, fun p hp q hq hagree => ?_⟩
  have hle : round p q ≤ k := by
    have hmem : ∀ {x : Nat}, x ∈ d.totalStates → x ∈ states := fun hx =>
      List.mem_toFinset.2 (StateSet.mem_toList.2 hx)
    exact (Finset.le_sup (f := round p) (hmem hq)).trans
      (Finset.le_sup (f := fun p => states.sup (round p)) (hmem hp))
  have halike : d.Alike p q := by
    apply hround
    rw [hd.agree_iff] at hagree ⊢
    exact fun w hw => hagree w (hw.trans hle)
  exact hd.agree_of_alike halike (k + 1)

/-- The blocks are the classes of every round after which the classes stay as they are. -/
theorem WellFormed.together_iff_agree (hd : d.WellFormed) {k : Nat} (h : d.Settled k) {p q : Nat}
    (hp : p ∈ d.totalStates) (hq : q ∈ d.totalStates) : d.Together p q ↔ d.Agree k p q := by
  rw [hd.together_iff_alike hp hq]
  exact ⟨fun halike => hd.agree_of_alike halike k, (hd.stable_of_settled h).alike hd hp hq⟩

/-! ## The coarsest partition -/

/-- The blocks partition the reachable states and the sink. They are stable, no stable relation
keeps more states together, and the rounds of splitting all classes at once end with them. -/
structure CoarsestBlocks (d : Dfa) : Prop where
  mem_totalStates : ∀ i q, q ∈ d.block i → q ∈ d.totalStates
  existsUnique_block : ∀ q ∈ d.totalStates, ∃! i, q ∈ d.block i
  nonempty : ∀ i < d.blocks.length, ∃ q, q ∈ d.block i
  stable : d.Stable d.Together
  coarsest : ∀ related, d.Stable related → ∀ p ∈ d.totalStates, ∀ q ∈ d.totalStates,
    related p q → d.Together p q
  settles : ∃ k, d.Settled k
  together_iff_agree : ∀ k, d.Settled k → ∀ p ∈ d.totalStates, ∀ q ∈ d.totalStates,
    (d.Together p q ↔ d.Agree k p q)
  together_iff : ∀ p ∈ d.totalStates, ∀ q ∈ d.totalStates,
    (d.Together p q ↔ ¬ ∃ w, d.acceptsFrom p w ≠ d.acceptsFrom q w)

theorem WellFormed.coarsestBlocks (hd : d.WellFormed) : d.CoarsestBlocks where
  mem_totalStates _ _ := hd.mem_totalStates_of_mem_block
  existsUnique_block q hq := by
    obtain ⟨i, hi⟩ := hd.exists_mem_block hq
    exact ⟨i, hi, fun j hj => (hd.alike_iff_of_mem_block hj hi).1 fun _ => rfl⟩
  nonempty i hi := by
    rw [block_eq]
    exact hd.refining_refinement.1.partitions.nonempty i hi
  stable := hd.stable_together
  coarsest _ h _ hp _ hq hpq := (hd.together_iff_alike hp hq).2 (h.alike hd hp hq hpq)
  settles := hd.exists_settled
  together_iff_agree _ h _ hp _ hq := hd.together_iff_agree h hp hq
  together_iff _ hp _ hq := by
    rw [hd.together_iff_alike hp hq]
    exact not_exists_not.symm

/-- The loop over splitters ends, with every pair of a block and a character tried exactly once, and
leaves the coarsest stable partition. -/
theorem refinement_coarsest (d : Dfa) (hd : d.WellFormed) :
    (∃ tried, Refinement.Exhausts (sourcesInto d.arrivals) d.alphabet.toList
        d.firstRefinement tried d.refinement ∧
      tried.Nodup ∧ ∀ i c, (i, c) ∈ tried ↔ i < d.blocks.length ∧ c ∈ d.alphabet) ∧
      d.CoarsestBlocks := by
  obtain ⟨tried, hloop, rfl⟩ := hd.exhausts_refinement
  have halphabet : d.alphabet.toList.Nodup := d.alphabet.ascending.imp Key.ne_of_before
  refine ⟨⟨_, hloop, Refinement.nodup_splitters halphabet _, fun i c => ?_⟩, hd.coarsestBlocks⟩
  rw [Refinement.mem_splitters, SortedSet.mem_toList]

/-- Two states share a block, one is not reached, and the sink is split off last. -/
theorem refinement_coarsest_sink :
    let d : Dfa := ⟨.sequential 5, 0, .singleton 3,
      .ofList [((0, 'a'), 1), ((0, 'b'), 2), ((1, 'a'), 3), ((2, 'a'), 3), ((4, 'a'), 3)], none⟩
    d.WellFormed ∧ d.blocks = [.singleton 3, .singleton 0, .ofList [1, 2], .singleton 5] ∧
      (∃ tried, Refinement.Exhausts (sourcesInto d.arrivals) d.alphabet.toList
          d.firstRefinement tried d.refinement ∧
        tried.Nodup ∧ ∀ i c, (i, c) ∈ tried ↔ i < d.blocks.length ∧ c ∈ d.alphabet) ∧
        d.CoarsestBlocks := by
  intro d
  have hd : d.WellFormed := by decide +kernel
  exact ⟨hd, by decide +kernel, refinement_coarsest d hd⟩

end Dfa

end RegularLanguages
