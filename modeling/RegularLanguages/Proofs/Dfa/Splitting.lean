import Mathlib.Logic.Basic
import RegularLanguages.Dfa.Refinement

/-!
# Splitting the blocks of a partition

The blocks and the owners of a refinement say the same in two ways (`Partitions`). Splitting blocks
by a set of states keeps that in step, separates the states inside the set from those outside it
and no others, and queues every new index (`Splits`). `refineBy_splits` says this of all blocks
that hold a state of the set, which is all that matter.
-/

namespace RegularLanguages.Refinement

/-- The block of an index. It is empty past the last index. -/
def block (r : Refinement) (i : Nat) : StateSet := r.blocks[i]?.getD ∅

/-- The blocks are the nonempty classes of the states with the same owner. -/
structure Partitions (r : Refinement) (states : StateSet) : Prop where
  mem_block : ∀ q i, q ∈ r.block i ↔ q ∈ states ∧ r.owner[q]? = some i
  owned : ∀ q ∈ states, ∃ i, r.owner[q]? = some i
  nonempty : ∀ i < r.blocks.size, ∃ q, q ∈ r.block i

theorem Partitions.setQueue {r : Refinement} {states : StateSet} (h : r.Partitions states)
    (queue : List (Nat × Char)) : Partitions { r with queue := queue } states :=
  ⟨h.mem_block, h.owned, h.nonempty⟩

theorem lt_size_of_mem_block {r : Refinement} {q i : Nat} (h : q ∈ r.block i) :
    i < r.blocks.size := by
  rw [← Nat.not_le]
  intro hi
  rw [block, Array.getElem?_eq_none hi] at h
  exact StateSet.not_mem_empty q h

/-- There are no more blocks than states, since every block owns a state. -/
theorem Partitions.size_blocks_le {r : Refinement} {states : StateSet} (h : r.Partitions states) :
    r.blocks.size ≤ states.size := by
  have hsub : List.range r.blocks.size ⊆ states.toList.filterMap fun q => r.owner[q]? := by
    intro i hi
    obtain ⟨q, hq⟩ := h.nonempty i (List.mem_range.1 hi)
    obtain ⟨hstates, howner⟩ := (h.mem_block q i).1 hq
    exact List.mem_filterMap.2 ⟨q, StateSet.mem_toList.2 hstates, howner⟩
  have hle := List.nodup_range.length_le_of_subset hsub
  rw [List.length_range] at hle
  exact Nat.le_trans hle (List.length_filterMap_le _ _)

/-! ## Splitting one block -/

/-- Two nonempty parts of a block, one of them inside a set and the other outside. -/
structure Parts (s block kept part : StateSet) : Prop where
  mem_block : ∀ q, q ∈ block ↔ q ∈ kept ∨ q ∈ part
  kept_nonempty : ∃ q, q ∈ kept
  part_nonempty : ∃ q, q ∈ part
  side : ∃ b, (∀ q ∈ kept, decide (q ∈ s) = b) ∧ ∀ q ∈ part, decide (q ∈ s) = !b

theorem Parts.disjoint {s block kept part : StateSet} (h : Parts s block kept part) {q : Nat}
    (hkept : q ∈ kept) : q ∉ part := by
  obtain ⟨b, hin, hout⟩ := h.side
  intro hpart
  have heq := hin q hkept
  rw [hout q hpart] at heq
  cases b <;> cases heq

theorem Parts.mem_part_iff {s block kept part : StateSet} (h : Parts s block kept part) {p q : Nat}
    (hp : p ∈ block) (hq : q ∈ block) : (p ∈ part ↔ q ∈ part) ↔ (p ∈ s ↔ q ∈ s) := by
  obtain ⟨b, hin, hout⟩ := h.side
  have hside : ∀ x ∈ block, (x ∈ part ↔ decide (x ∈ s) = !b) := by
    intro x hx
    constructor
    · exact hout x
    · intro heq
      rcases (h.mem_block x).1 hx with hkept | hpart
      · rw [hin x hkept] at heq
        cases b <;> cases heq
      · exact hpart
  rw [hside p hp, hside q hq]
  cases b <;> simp [not_iff_not]

theorem Parts.symm {s block kept part : StateSet} (h : Parts s block kept part) :
    Parts s block part kept := by
  obtain ⟨b, hin, hout⟩ := h.side
  refine { mem_block := fun q => (h.mem_block q).trans or_comm, kept_nonempty := h.part_nonempty,
           part_nonempty := h.kept_nonempty, side := ⟨!b, hout, ?_⟩ }
  rw [Bool.not_not]
  exact hin

theorem parts_of_nonempty {s block : StateSet} (hin : ∃ q, q ∈ block ∩ s)
    (hout : ∃ q, q ∈ block \ s) : Parts s block (block ∩ s) (block \ s) where
  mem_block q := by
    rw [StateSet.mem_inter, StateSet.mem_diff, ← and_or_left]
    exact (and_iff_left (Classical.em _)).symm
  kept_nonempty := hin
  part_nonempty := hout
  side := ⟨true, fun _ hq => decide_eq_true (StateSet.mem_inter.1 hq).2,
    fun _ hq => decide_eq_false (StateSet.mem_diff.1 hq).2⟩

theorem split_cases (s block : StateSet) :
    (split s block = (block, none) ∧ ∀ p ∈ block, ∀ q ∈ block, (p ∈ s ↔ q ∈ s)) ∨
      ∃ kept part, split s block = (kept, some part) ∧ Parts s block kept part := by
  cases hinside : (block ∩ s).isEmpty with
  | true =>
      have houts : ∀ q ∈ block, q ∉ s := by
        intro q hq hs
        exact StateSet.isEmpty_iff_forall.1 hinside q (StateSet.mem_inter.2 ⟨hq, hs⟩)
      left
      refine ⟨by simp [split, hinside], fun p hp q hq => ?_⟩
      exact iff_of_false (houts p hp) (houts q hq)
  | false =>
      cases houtside : (block \ s).isEmpty with
      | true =>
          have hins : ∀ q ∈ block, q ∈ s := by
            intro q hq
            apply Classical.not_not.1
            intro hs
            exact StateSet.isEmpty_iff_forall.1 houtside q (StateSet.mem_diff.2 ⟨hq, hs⟩)
          left
          refine ⟨by simp [split, houtside], fun p hp q hq => ?_⟩
          exact iff_of_true (hins p hp) (hins q hq)
      | false =>
          right
          have hparts := parts_of_nonempty (StateSet.isEmpty_eq_false_iff.1 hinside)
            (StateSet.isEmpty_eq_false_iff.1 houtside)
          by_cases hsmall : (block \ s).hasAtLeast (block ∩ s).size = true
          · exact ⟨_, _, by simp [split, hinside, houtside, hsmall], hparts.symm⟩
          · exact ⟨_, _, by simp [split, hinside, houtside, hsmall], hparts⟩

/-! ## New owners -/

private theorem getElem?_foldl_setIfInBounds (l : List Nat) (j : Nat) (owner : Array Nat)
    (q : Nat) :
    (l.foldl (fun owner q => owner.setIfInBounds q j) owner)[q]? =
      if q ∈ l ∧ q < owner.size then some j else owner[q]? := by
  induction l generalizing owner with
  | nil => simp
  | cons p l ih =>
      rw [List.foldl_cons, ih, Array.size_setIfInBounds, Array.getElem?_setIfInBounds]
      by_cases hq : q < owner.size
      · by_cases hp : p = q
        · subst hp
          simp [hq]
        · simp [hq, hp, Ne.symm hp]
      · by_cases hp : p = q
        · subst hp
          simp [hq]
        · simp [hq, hp]

def cut (alphabet : List Char) (r : Refinement) (i : Nat) (kept part : StateSet) : Refinement :=
  { blocks := (r.blocks.setIfInBounds i kept).push part
    owner := part.toList.foldl (fun owner q => owner.setIfInBounds q r.blocks.size) r.owner
    queue := r.queue ++ alphabet.map fun c => (r.blocks.size, c) }

variable {alphabet : List Char} {r : Refinement} {states s kept part : StateSet} {i : Nat}

theorem size_blocks_cut : (cut alphabet r i kept part).blocks.size = r.blocks.size + 1 := by
  rw [cut, Array.size_push, Array.size_setIfInBounds]

theorem Parts.lt_size (hparts : Parts s (r.block i) kept part) : i < r.blocks.size := by
  obtain ⟨q, hq⟩ := hparts.kept_nonempty
  exact lt_size_of_mem_block ((hparts.mem_block q).2 (.inl hq))

theorem block_cut (hparts : Parts s (r.block i) kept part) (k : Nat) :
    (cut alphabet r i kept part).block k =
      if k = r.blocks.size then part else if k = i then kept else r.block k := by
  have hi := hparts.lt_size
  unfold block cut
  rw [Array.getElem?_push, Array.size_setIfInBounds, Array.getElem?_setIfInBounds]
  by_cases hk : k = r.blocks.size
  · rw [if_pos hk, if_pos hk, Option.getD_some]
  · rw [if_neg hk, if_neg hk]
    by_cases hki : k = i
    · subst hki
      rw [if_pos rfl, if_pos rfl, if_pos hi, Option.getD_some]
    · rw [if_neg hki, if_neg (Ne.symm hki)]

/-- What is cut off gets the new index, and nothing else changes its owner. -/
theorem owner_cut (h : r.Partitions states) (hparts : Parts s (r.block i) kept part) (q : Nat) :
    (cut alphabet r i kept part).owner[q]? =
      if q ∈ part then some r.blocks.size else r.owner[q]? := by
  rw [cut, getElem?_foldl_setIfInBounds]
  by_cases hq : q ∈ part
  · have hblock := (h.mem_block q i).1 ((hparts.mem_block q).2 (.inr hq))
    have hlt : q < r.owner.size := (Array.getElem?_eq_some_iff.1 hblock.2).1
    rw [if_pos ⟨StateSet.mem_toList.2 hq, hlt⟩, if_pos hq]
  · rw [if_neg hq, if_neg fun hin => hq (StateSet.mem_toList.1 hin.1)]

theorem Partitions.owner_ne (h : r.Partitions states) {q : Nat} (hq : q ∈ states) :
    r.owner[q]? ≠ some r.blocks.size := by
  intro howner
  exact Nat.lt_irrefl _ (lt_size_of_mem_block ((h.mem_block q _).2 ⟨hq, howner⟩))

theorem mem_block_cut (h : r.Partitions states) (hparts : Parts s (r.block i) kept part)
    (q k : Nat) :
    q ∈ (cut alphabet r i kept part).block k ↔
      q ∈ states ∧ (cut alphabet r i kept part).owner[q]? = some k := by
  have hold := h.mem_block q
  have hblock := hparts.mem_block q
  rw [block_cut hparts, owner_cut h hparts]
  by_cases hq : q ∈ part
  · have hqi := (hold i).1 (hblock.2 (.inr hq))
    rw [if_pos hq]
    by_cases hk : k = r.blocks.size
    · simp [hk, hq, hqi.1]
    · rw [if_neg hk, Option.some.injEq]
      refine iff_of_false (fun hmem => ?_) fun heq => hk heq.2.symm
      by_cases hki : k = i
      · rw [if_pos hki] at hmem
        exact hparts.disjoint hmem hq
      · rw [if_neg hki, hold, hqi.2, Option.some.injEq] at hmem
        exact hki hmem.2.symm
  · rw [if_neg hq]
    by_cases hk : k = r.blocks.size
    · rw [if_pos hk, hk]
      exact iff_of_false hq fun hmem => h.owner_ne hmem.1 hmem.2
    · rw [if_neg hk]
      by_cases hki : k = i
      · rw [if_pos hki, hki, ← hold, hblock]
        exact (or_iff_left hq).symm
      · rw [if_neg hki, hold]

theorem Partitions.cut (h : r.Partitions states) (hparts : Parts s (r.block i) kept part) :
    (cut alphabet r i kept part).Partitions states where
  mem_block := mem_block_cut h hparts
  owned q hq := by
    rw [owner_cut h hparts]
    by_cases hpart : q ∈ part
    · rw [if_pos hpart]
      exact ⟨_, rfl⟩
    · rw [if_neg hpart]
      exact h.owned q hq
  nonempty k hk := by
    rw [block_cut hparts]
    split
    · exact hparts.part_nonempty
    · split
      · exact hparts.kept_nonempty
      · rw [size_blocks_cut] at hk
        apply h.nonempty
        omega

/-- States keep one owner unless they are on different sides in the block that is cut. -/
theorem owner_cut_eq_iff (h : r.Partitions states) (hparts : Parts s (r.block i) kept part)
    {p q : Nat} (hp : p ∈ states) (hq : q ∈ states) :
    (cut alphabet r i kept part).owner[p]? = (cut alphabet r i kept part).owner[q]? ↔
      r.owner[p]? = r.owner[q]? ∧ (r.owner[p]? = some i → (p ∈ s ↔ q ∈ s)) := by
  have hin : ∀ {x : Nat}, x ∈ part → r.owner[x]? = some i :=
    fun hx => ((h.mem_block _ i).1 ((hparts.mem_block _).2 (.inr hx))).2
  have hside : r.owner[p]? = some i → r.owner[q]? = some i →
      ((p ∈ part ↔ q ∈ part) ↔ (p ∈ s ↔ q ∈ s)) := by
    intro hpi hqi
    exact hparts.mem_part_iff ((h.mem_block p i).2 ⟨hp, hpi⟩) ((h.mem_block q i).2 ⟨hq, hqi⟩)
  rw [owner_cut h hparts, owner_cut h hparts]
  by_cases hpp : p ∈ part <;> by_cases hqp : q ∈ part
  · have hiff := (hside (hin hpp) (hin hqp)).1 (iff_of_true hpp hqp)
    simp [hpp, hqp, hin hpp, hin hqp, hiff]
  · rw [if_pos hpp, if_neg hqp, hin hpp]
    refine iff_of_false (fun heq => h.owner_ne hq heq.symm) fun hand => ?_
    exact hqp (((hside (hin hpp) hand.1.symm).2 (hand.2 rfl)).1 hpp)
  · rw [if_neg hpp, if_pos hqp, hin hqp]
    refine iff_of_false (h.owner_ne hp) fun hand => ?_
    exact hpp (((hside hand.1 (hin hqp)).2 (hand.2 hand.1)).2 hqp)
  · rw [if_neg hpp, if_neg hqp]
    constructor
    · intro heq
      exact ⟨heq, fun hpi => (hside hpi (heq ▸ hpi)).1 (iff_of_false hpp hqp)⟩
    · exact fun hand => hand.1

/-! ## Splitting the blocks of several indices -/

/-- What becomes of a refinement when the blocks of some indices are split by a set: states are put
apart if the set tells them apart within one of these blocks, and an index that is new to a state is
queued. -/
structure Splits (states : StateSet) (alphabet : List Char) (s : StateSet) (indices : List Nat)
    (r r' : Refinement) : Prop where
  partitions : r'.Partitions states
  owner_eq_iff : ∀ p ∈ states, ∀ q ∈ states, r'.owner[p]? = r'.owner[q]? ↔
    r.owner[p]? = r.owner[q]? ∧ ((∃ i ∈ indices, r.owner[p]? = some i) → (p ∈ s ↔ q ∈ s))
  owner_of_forall_ne : ∀ q : Nat, (∀ i ∈ indices, r.owner[q]? ≠ some i) → r'.owner[q]? = r.owner[q]?
  queued : ∀ q ∈ states, ∀ i : Nat, r'.owner[q]? = some i →
    r.owner[q]? = some i ∨ ∀ c ∈ alphabet, (i, c) ∈ r'.queue
  queue_subset : r.queue ⊆ r'.queue
  cost_eq : r'.queue.length + (states.size - r'.blocks.size) * alphabet.length =
    r.queue.length + (states.size - r.blocks.size) * alphabet.length

theorem Splits.nil (h : r.Partitions states) : Splits states alphabet s [] r r where
  partitions := h
  owner_eq_iff p _ q _ := by simp
  owner_of_forall_ne q _ := rfl
  queued q _ i hi := .inl hi
  queue_subset := List.Subset.refl _
  cost_eq := rfl

theorem Splits.owner_of_ne {r₁ : Refinement} {q : Nat} (h : Splits states alphabet s [i] r r₁)
    (hne : r.owner[q]? ≠ some i) : r₁.owner[q]? = r.owner[q]? := by
  apply h.owner_of_forall_ne
  intro k hk
  rw [List.mem_singleton.1 hk]
  exact hne

theorem Splits.cons {indices : List Nat} {r₁ r₂ : Refinement}
    (h : Splits states alphabet s [i] r r₁) (h' : Splits states alphabet s indices r₁ r₂) :
    Splits states alphabet s (i :: indices) r r₂ where
  partitions := h'.partitions
  owner_eq_iff p hp q hq := by
    rw [h'.owner_eq_iff p hp q hq, h.owner_eq_iff p hp q hq]
    constructor
    · rintro ⟨⟨hsame, hi⟩, hrest⟩
      refine ⟨hsame, ?_⟩
      rintro ⟨k, hk, howner⟩
      by_cases hpi : r.owner[p]? = some i
      · exact hi ⟨i, List.mem_singleton_self i, hpi⟩
      · have hne : k ≠ i := by
          intro heq
          exact hpi (heq ▸ howner)
        apply hrest
        exact ⟨k, (List.mem_cons.1 hk).resolve_left hne, (h.owner_of_ne hpi).trans howner⟩
    · rintro ⟨hsame, hall⟩
      refine ⟨⟨hsame, ?_⟩, ?_⟩
      · rintro ⟨k, hk, howner⟩
        rw [List.mem_singleton.1 hk] at howner
        exact hall ⟨i, List.mem_cons_self, howner⟩
      · rintro ⟨k, hk, howner⟩
        by_cases hpi : r.owner[p]? = some i
        · exact hall ⟨i, List.mem_cons_self, hpi⟩
        · exact hall ⟨k, List.mem_cons_of_mem i hk, (h.owner_of_ne hpi).symm.trans howner⟩
  owner_of_forall_ne q hq := by
    have hfirst := h.owner_of_ne (hq i List.mem_cons_self)
    rw [← hfirst]
    apply h'.owner_of_forall_ne
    intro k hk
    rw [hfirst]
    exact hq k (List.mem_cons_of_mem i hk)
  queued q hq k hk := by
    rcases h'.queued q hq k hk with howner | hqueue
    · rcases h.queued q hq k howner with howner | hqueue
      · exact .inl howner
      · exact .inr fun c hc => h'.queue_subset (hqueue c hc)
    · exact .inr hqueue
  queue_subset := List.Subset.trans h.queue_subset h'.queue_subset
  cost_eq := h'.cost_eq.trans h.cost_eq

theorem Splits.of_uniform (h : r.Partitions states)
    (huniform : ∀ p ∈ r.block i, ∀ q ∈ r.block i, (p ∈ s ↔ q ∈ s)) :
    Splits states alphabet s [i] r r := by
  refine { Splits.nil (s := s) h with owner_eq_iff := ?_, owner_of_forall_ne := fun q _ => rfl }
  intro p hp q hq
  constructor
  · intro hsame
    refine ⟨hsame, ?_⟩
    rintro ⟨k, hk, hpi⟩
    rw [List.mem_singleton.1 hk] at hpi
    have hqi := hsame.symm.trans hpi
    exact huniform p ((h.mem_block p i).2 ⟨hp, hpi⟩) q ((h.mem_block q i).2 ⟨hq, hqi⟩)
  · exact fun hand => hand.1

theorem Splits.of_parts (h : r.Partitions states) (hparts : Parts s (r.block i) kept part) :
    Splits states alphabet s [i] r (cut alphabet r i kept part) := by
  have hcut : (cut alphabet r i kept part).Partitions states := h.cut hparts
  refine { partitions := hcut, owner_eq_iff := ?_, owner_of_forall_ne := ?_, queued := ?_,
           queue_subset := List.subset_append_left _ _, cost_eq := ?_ }
  · intro p hp q hq
    rw [owner_cut_eq_iff h hparts hp hq]
    simp
  · intro q hq
    rw [owner_cut h hparts, if_neg]
    intro hpart
    have hmem := (h.mem_block q i).1 ((hparts.mem_block q).2 (.inr hpart))
    exact hq i (List.mem_singleton_self i) hmem.2
  · intro q hq k hk
    rw [owner_cut h hparts] at hk
    by_cases hpart : q ∈ part
    · right
      rw [if_pos hpart, Option.some.injEq] at hk
      intro c hc
      rw [← hk]
      exact List.mem_append_right _ (List.mem_map.2 ⟨c, hc, rfl⟩)
    · left
      rw [if_neg hpart] at hk
      exact hk
  · have hle := hcut.size_blocks_le
    rw [size_blocks_cut] at hle ⊢
    have hrest : states.size - r.blocks.size = states.size - (r.blocks.size + 1) + 1 := by omega
    rw [hrest, Nat.succ_mul, cut, List.length_append, List.length_map]
    omega

theorem splitBlock_splits (h : r.Partitions states) (alphabet : List Char) (s : StateSet)
    (i : Nat) : Splits states alphabet s [i] r (splitBlock alphabet s r i) := by
  unfold splitBlock
  rw [show r.blocks[i]?.getD ∅ = r.block i from rfl]
  rcases split_cases s (r.block i) with ⟨hsplit, huniform⟩ | ⟨kept, part, hsplit, hparts⟩
  · rw [hsplit]
    exact .of_uniform h huniform
  · rw [hsplit]
    exact .of_parts h hparts

theorem foldl_splitBlock_splits (h : r.Partitions states) (alphabet : List Char) (s : StateSet)
    (indices : List Nat) :
    Splits states alphabet s indices r (indices.foldl (splitBlock alphabet s) r) := by
  induction indices generalizing r with
  | nil => exact .nil h
  | cons i indices ih =>
      have hfirst := splitBlock_splits h alphabet s i
      exact hfirst.cons (ih hfirst.partitions)

/-- Blocks that hold no state of the set need not be looked at. -/
theorem refineBy_splits (h : r.Partitions states) (alphabet : List Char) (s : StateSet) :
    Splits states alphabet s (r.touched s).toList r (r.refineBy alphabet s) :=
  foldl_splitBlock_splits h alphabet s _

theorem owner_refineBy_eq_iff (h : r.Partitions states) (alphabet : List Char) (s : StateSet)
    {p q : Nat} (hp : p ∈ states) (hq : q ∈ states) :
    (r.refineBy alphabet s).owner[p]? = (r.refineBy alphabet s).owner[q]? ↔
      r.owner[p]? = r.owner[q]? ∧ (p ∈ s ↔ q ∈ s) := by
  have htouched : ∀ x ∈ s, x ∈ states → ∃ i ∈ (r.touched s).toList, r.owner[x]? = some i := by
    intro x hx hstates
    obtain ⟨i, hi⟩ := h.owned x hstates
    refine ⟨i, ?_, hi⟩
    rw [touched, StateSet.mem_toList, StateSet.mem_ofList, List.mem_filterMap]
    exact ⟨x, StateSet.mem_toList.2 hx, hi⟩
  rw [(refineBy_splits h alphabet s).owner_eq_iff p hp q hq]
  constructor
  · rintro ⟨hsame, hside⟩
    refine ⟨hsame, ?_⟩
    by_cases hps : p ∈ s
    · exact hside (htouched p hps hp)
    · by_cases hqs : q ∈ s
      · apply hside
        rw [hsame]
        exact htouched q hqs hq
      · exact iff_of_false hps hqs
  · rintro ⟨hsame, hiff⟩
    exact ⟨hsame, fun _ => hiff⟩

end RegularLanguages.Refinement
