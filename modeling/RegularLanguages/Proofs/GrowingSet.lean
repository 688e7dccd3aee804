import Mathlib.Data.Finset.Sort
import Mathlib.Data.Fintype.Card
import RegularLanguages.GrowingSet

/-!
# Growing sets are finite sets

A growing set stands for the places of its set bits, whatever the length of its row
(`GrowingSet.Holds`). Every operation does to the row what it does to finite sets. As long as every
place is the number of a state, what a growing set tells is what is true of the finite set of those
states, and only so long (`GrowingSet.Holds.tells_iff`).

It follows for all sets that are made by any calls one after another, with operands that are made
so too (`GrowingSet.made_is_finite_set`). Their places are numbers of states if full sets are made
of no more states than there are (`SetTerm.Fits.inRange`). One more, and a state is told twice
(`GrowingSet.full_repeats`).
-/

namespace RegularLanguages

namespace GrowingSet

variable {ρ : Type} [BitRow ρ]

/-- The bits at these places are set, and no other bits. -/
def Holds (s : GrowingSet ρ) (places : Finset Nat) : Prop :=
  ∀ i, BitRow.contains s.row i = true ↔ i ∈ places

def InRange (places : Finset Nat) : Prop := ∀ i ∈ places, i < UInt32.size

def numbers (m : Finset UInt32) : Finset Nat := m.image UInt32.toNat

variable {s t : GrowingSet ρ} {places places' : Finset Nat} {m n : Finset UInt32}

theorem Holds.contains_eq (h : s.Holds places) (i : Nat) :
    BitRow.contains s.row i = decide (i ∈ places) :=
  Bool.eq_iff_iff.2 ((h i).trans decide_eq_true_iff.symm)

theorem toNat_injective : Function.Injective UInt32.toNat := fun _ _ => UInt32.toNat_inj.1

theorem toNat_mem_numbers {q : UInt32} : q.toNat ∈ numbers m ↔ q ∈ m :=
  toNat_injective.mem_finset_image

theorem inRange_numbers (m : Finset UInt32) : InRange (numbers m) := by
  intro i hi
  obtain ⟨q, -, rfl⟩ := Finset.mem_image.1 hi
  exact q.toNat_lt

theorem numbers_subset (h : ∀ q : UInt32, q ∈ m ↔ q.toNat ∈ places) : numbers m ⊆ places := by
  intro i hi
  obtain ⟨q, hq, rfl⟩ := Finset.mem_image.1 hi
  exact (h q).1 hq

theorem eq_numbers_iff (h : ∀ q : UInt32, q ∈ m ↔ q.toNat ∈ places) :
    places = numbers m ↔ InRange places := by
  constructor
  · rintro rfl
    exact inRange_numbers m
  · intro hrange
    refine Finset.Subset.antisymm (fun i hi => ?_) (numbers_subset h)
    have hnat : (UInt32.ofNat i).toNat = i := UInt32.toNat_ofNat_of_lt' (hrange i hi)
    rw [← hnat, toNat_mem_numbers, h, hnat]
    exact hi

variable [LawfulBitRow ρ]

/-! ## What is told of any places -/

theorem Holds.contains_iff (h : s.Holds places) (q : UInt32) :
    s.contains q = true ↔ q.toNat ∈ places := by
  rw [contains, Bool.and_eq_true, decide_eq_true_iff, ← h q.toNat]
  exact and_iff_right_of_imp BitRow.lt_length

theorem Holds.ones_eq (h : s.Holds places) : BitRow.ones s.row = places.sort (· ≤ ·) := by
  have hpairwise : (BitRow.ones s.row).Pairwise (· < ·) := by
    rw [LawfulBitRow.ones_eq]
    exact List.pairwise_lt_range.filter _
  apply hpairwise.sortedLT.eq_of_mem_iff places.sortedLT_sort
  intro i
  rw [LawfulBitRow.ones_eq, List.mem_filter, List.mem_range, Finset.mem_sort, ← h i]
  exact and_iff_right_of_imp BitRow.lt_length

theorem Holds.toList_eq (h : s.Holds places) :
    s.toList = (places.sort (· ≤ ·)).map UInt32.ofNat := by
  rw [toList, h.ones_eq]

theorem Holds.length_toList (h : s.Holds places) : s.toList.length = places.card := by
  rw [h.toList_eq, List.length_map, Finset.length_sort]

theorem size_eq_length (s : GrowingSet ρ) : s.size = s.toList.length := by
  rw [size, toList, LawfulBitRow.count_eq, LawfulBitRow.ones_eq, List.countP_eq_length_filter,
    List.length_map]

theorem Holds.size_eq (h : s.Holds places) : s.size = places.card := by
  rw [size_eq_length, h.length_toList]

/-- As many members as there are numbers cannot stand in ascending order if they are more than
there are states. -/
theorem Holds.not_ascending (h : s.Holds places) (hcard : UInt32.size < places.card) :
    ¬ s.toList.Pairwise (· < ·) := by
  intro hascending
  have hnodup : (s.toList.map UInt32.toNat).Nodup :=
    List.Nodup.map toNat_injective (hascending.imp UInt32.ne_of_lt)
  have hsub : s.toList.map UInt32.toNat ⊆ List.range UInt32.size := by
    intro i hi
    obtain ⟨q, -, rfl⟩ := List.mem_map.1 hi
    exact List.mem_range.2 q.toNat_lt
  have hle := hnodup.length_le_of_subset hsub
  rw [List.length_map, h.length_toList, List.length_range] at hle
  exact Nat.not_lt.2 hle hcard

theorem Holds.beq_eq_false (h : s.Holds places) (h' : t.Holds places')
    (hcard : places.card ≠ places'.card) : (s == t) = false := by
  apply Bool.eq_false_iff.2
  intro heq
  have hlist : s.toList = t.toList := eq_of_beq (α := List UInt32) heq
  exact hcard (h.length_toList.symm.trans (hlist ▸ h'.length_toList))

theorem Holds.hashParts_ne (h : s.Holds places) (h' : t.Holds places')
    (hcard : places.card ≠ places'.card) : s.hashParts ≠ t.hashParts := by
  intro heq
  have hlength := congrArg List.length heq
  simp only [hashParts, List.length_append, List.length_map, h.length_toList, h'.length_toList,
    List.length_singleton, Nat.add_right_cancel_iff] at hlength
  exact hcard hlength

/-! ## What is told of states -/

theorem Holds.mem_toList (h : s.Holds (numbers m)) {q : UInt32} : q ∈ s.toList ↔ q ∈ m := by
  simp [h.toList_eq, numbers]

theorem Holds.pairwise_toList (h : s.Holds (numbers m)) : s.toList.Pairwise (· < ·) := by
  rw [h.toList_eq, List.pairwise_map]
  apply (numbers m).sortedLT_sort.pairwise.imp_of_mem
  intro i j hi hj hlt
  rw [Finset.mem_sort] at hi hj
  obtain ⟨p, -, rfl⟩ := Finset.mem_image.1 hi
  obtain ⟨q, -, rfl⟩ := Finset.mem_image.1 hj
  rwa [UInt32.ofNat_toNat, UInt32.ofNat_toNat, UInt32.lt_iff_toNat_lt]

theorem card_numbers (m : Finset UInt32) : (numbers m).card = m.card :=
  Finset.card_image_of_injective m toNat_injective

theorem Holds.first?_iff (h : s.Holds (numbers m)) (q : UInt32) :
    s.first? = some q ↔ q ∈ m ∧ ∀ p ∈ m, q ≤ p := by
  have hmem : ∀ p, p ∈ m ↔ p ∈ s.toList := fun p => h.mem_toList.symm
  have hascending := h.pairwise_toList
  rw [first?]
  cases hlist : s.toList with
  | nil =>
      refine iff_of_false nofun fun hleast => ?_
      have hq := (hmem q).1 hleast.1
      rw [hlist] at hq
      exact List.not_mem_nil hq
  | cons p l =>
      rw [hlist] at hascending
      have hp : p ∈ m := (hmem p).2 (hlist ▸ List.mem_cons_self)
      have hleast : ∀ r ∈ m, p ≤ r := by
        intro r hr
        have hr := (hmem r).1 hr
        rw [hlist] at hr
        rcases List.mem_cons.1 hr with rfl | hr
        · exact UInt32.le_refl r
        · exact UInt32.le_of_lt (List.rel_of_pairwise_cons hascending hr)
      rw [List.head?_cons, Option.some.injEq]
      constructor
      · rintro rfl
        exact ⟨hp, hleast⟩
      · rintro ⟨hq, hqleast⟩
        exact UInt32.le_antisymm (hleast q hq) (hqleast p hp)

theorem Holds.isEmpty_iff (h : s.Holds (numbers m)) : s.isEmpty = true ↔ m = ∅ := by
  have hnone : s.isEmpty = true ↔ numbers m = ∅ := by
    rw [isEmpty, LawfulBitRow.isClear_iff, Finset.eq_empty_iff_forall_notMem]
    exact forall_congr' fun i => by rw [← h i, Bool.not_eq_true]
  rw [hnone, numbers, Finset.image_eq_empty]

theorem Holds.intersects_iff (h : s.Holds (numbers m)) (h' : t.Holds (numbers n)) :
    s.intersects t = true ↔ ¬Disjoint m n := by
  have hnumbers : Disjoint m n ↔ ∀ i, i ∈ numbers m → i ∉ numbers n :=
    (Finset.disjoint_image toNat_injective).symm.trans Finset.disjoint_left
  rw [hnumbers, intersects, Bool.not_eq_true', ← Bool.not_eq_true, LawfulBitRow.isDisjoint_iff]
  refine not_congr (forall_congr' fun i => ?_)
  rw [h i, ← h' i, Bool.not_eq_true]

theorem Holds.isSubset_iff (h : s.Holds (numbers m)) (h' : t.Holds (numbers n)) :
    s.isSubset t = true ↔ m ⊆ n := by
  rw [isSubset, List.all_eq_true]
  exact forall_congr' fun q => by rw [h.mem_toList, h'.contains_iff, toNat_mem_numbers]

theorem Holds.beq_iff (h : s.Holds (numbers m)) (h' : t.Holds (numbers n)) :
    (s == t) = true ↔ m = n := by
  change (s.toList == t.toList) = true ↔ m = n
  rw [beq_iff_eq]
  constructor
  · intro heq
    ext q
    rw [← h.mem_toList, heq, h'.mem_toList]
  · rintro rfl
    rw [h.toList_eq, h'.toList_eq]

theorem Holds.hashParts_iff (h : s.Holds (numbers m)) (h' : t.Holds (numbers n)) :
    s.hashParts = t.hashParts ↔ m = n := by
  constructor
  · intro heq
    have hstate : ∀ q, q ∈ m ↔ .state q ∈ s.hashParts := by
      intro q
      simp [hashParts, h.mem_toList]
    ext q
    rw [hstate, heq]
    simp [hashParts, h'.mem_toList]
  · rintro rfl
    rw [hashParts, hashParts, h.toList_eq, h'.toList_eq, h.size_eq, h'.size_eq]

/-! ## What the operations do -/

theorem holds_withCapacity (capacity : Nat) :
    (withCapacity capacity : GrowingSet ρ).Holds ∅ := by
  intro i
  rw [withCapacity, LawfulBitRow.contains_clear]
  simp

theorem holds_full (count : Nat) : (full count : GrowingSet ρ).Holds (Finset.range count) := by
  intro i
  rw [full, LawfulBitRow.contains_fill, LawfulBitRow.length_clear, decide_eq_true_iff,
    Finset.mem_range]

theorem contains_ite_grow (r : ρ) (p : Prop) [Decidable p] (k i : Nat) :
    BitRow.contains (if p then BitRow.grow r k else r) i = BitRow.contains r i := by
  split
  · exact LawfulBitRow.contains_grow r k i
  · rfl

theorem Holds.exists_insert (h : s.Holds places) (q : UInt32) :
    ∃ s', s.insert q = some (decide (q.toNat ∉ places), s') ∧
      s'.Holds (Insert.insert q.toNat places) := by
  unfold GrowingSet.insert
  generalize q.toNat = place
  generalize hrow :
    (if BitRow.length s.row ≤ place then BitRow.grow s.row (place + 1) else s.row) = row
  have hcontains : ∀ i, BitRow.contains row i = decide (i ∈ places) := by
    intro i
    rw [← hrow, contains_ite_grow, h.contains_eq]
  have hlength : place < BitRow.length row := by
    rw [← hrow]
    split
    · rw [LawfulBitRow.length_grow]
      omega
    · omega
  obtain ⟨row', hput, -, hrow'⟩ := LawfulBitRow.put_of_lt hlength
  refine ⟨⟨row'⟩, ?_, fun i => ?_⟩
  · simp [hrow, hput, hcontains]
  · by_cases hi : i = place <;> simp [hrow', hcontains, hi]

theorem Holds.exists_extend (h : s.Holds places) (l : List UInt32) :
    ∃ s', s.extend l = some s' ∧ s'.Holds (places ∪ numbers l.toFinset) := by
  unfold extend
  induction l generalizing s places with
  | nil =>
      refine ⟨s, rfl, ?_⟩
      rwa [List.toFinset_nil, numbers, Finset.image_empty, Finset.union_empty]
  | cons q l ih =>
      obtain ⟨s₁, hinsert, h₁⟩ := h.exists_insert q
      rw [List.foldlM_cons, hinsert, List.toFinset_cons, numbers, Finset.image_insert,
        Finset.union_insert, ← Finset.insert_union]
      exact ih h₁

theorem Holds.exists_remove (h : s.Holds places) (q : UInt32) :
    ∃ s', s.remove q = some s' ∧ s'.Holds (places.erase q.toNat) := by
  unfold remove
  by_cases hq : q.toNat < BitRow.length s.row
  · obtain ⟨row, hset, -, hrow⟩ := LawfulBitRow.set_of_lt false hq
    rw [if_pos hq, hset]
    refine ⟨⟨row⟩, rfl, fun i => ?_⟩
    by_cases hi : i = q.toNat <;> simp [hrow, h.contains_eq, hi]
  · -- The state is past the end of the row, hence no member.
    have hnot : q.toNat ∉ places := fun hmem => hq (BitRow.lt_length ((h _).2 hmem))
    rw [if_neg hq, Finset.erase_eq_of_notMem hnot]
    exact ⟨s, rfl, h⟩

theorem Holds.unionWith (h : s.Holds places) (h' : t.Holds places') :
    (s.unionWith t).2.Holds (places ∪ places') := by
  intro i
  rw [GrowingSet.unionWith, LawfulBitRow.contains_union, contains_ite_grow, h.contains_eq,
    h'.contains_eq]
  simp

theorem Holds.unionWith_iff (h : s.Holds places) (h' : t.Holds places') :
    (s.unionWith t).1 = true ↔ ¬places' ⊆ places := by
  have hsize : (s.unionWith t).1 = true ↔ (s.unionWith t).2.size ≠ s.size := bne_iff_ne
  rw [hsize, (h.unionWith h').size_eq, h.size_eq, ← Finset.union_eq_left, not_iff_not]
  constructor
  · intro hcard
    exact (Finset.eq_of_subset_of_card_le Finset.subset_union_left hcard.le).symm
  · intro heq
    rw [heq]

theorem Holds.inter (h : s.Holds places) (h' : t.Holds places') :
    (s.inter t).Holds (places ∩ places') := by
  intro i
  rw [GrowingSet.inter, LawfulBitRow.contains_inter, h.contains_eq, h'.contains_eq]
  simp

theorem Holds.diff (h : s.Holds places) (h' : t.Holds places') :
    (s.diff t).Holds (places \ places') := by
  intro i
  rw [GrowingSet.diff, LawfulBitRow.contains_diff, h.contains_eq, h'.contains_eq]
  simp

/-! ## What is asked of sets -/

/-- What is told of a set is true of a finite set of states. -/
structure Tells (s : GrowingSet ρ) (m : Finset UInt32) : Prop where
  contains_iff : ∀ q, s.contains q = true ↔ q ∈ m
  ascending : s.toList.Pairwise (· < ·)
  mem_toList : ∀ q, q ∈ s.toList ↔ q ∈ m
  size_eq : s.size = m.card
  first?_iff : ∀ q, s.first? = some q ↔ q ∈ m ∧ ∀ p ∈ m, q ≤ p
  isEmpty_iff : s.isEmpty = true ↔ m = ∅
  insert_new : ∀ q, ∃ s', s.insert q = some (decide (q ∉ m), s')

/-- What is told of two sets is true of their finite sets. -/
structure Compares (s t : GrowingSet ρ) (m n : Finset UInt32) : Prop where
  unionWith_new : (s.unionWith t).1 = true ↔ ¬n ⊆ m
  intersects_iff : s.intersects t = true ↔ ¬Disjoint m n
  isSubset_iff : s.isSubset t = true ↔ m ⊆ n
  beq_iff : (s == t) = true ↔ m = n
  hashParts_iff : s.hashParts = t.hashParts ↔ m = n

theorem Holds.tells (h : s.Holds (numbers m)) : s.Tells m where
  contains_iff q := (h.contains_iff q).trans toNat_mem_numbers
  ascending := h.pairwise_toList
  mem_toList _ := h.mem_toList
  size_eq := h.size_eq.trans (card_numbers m)
  first?_iff := h.first?_iff
  isEmpty_iff := h.isEmpty_iff
  insert_new q := by
    obtain ⟨s', hs', -⟩ := h.exists_insert q
    simp only [toNat_mem_numbers] at hs'
    exact ⟨s', hs'⟩

theorem Holds.compares (h : s.Holds (numbers m)) (h' : t.Holds (numbers n)) :
    s.Compares t m n where
  unionWith_new := by
    rw [h.unionWith_iff h', numbers, numbers, Finset.image_subset_image_iff toNat_injective]
  intersects_iff := h.intersects_iff h'
  isSubset_iff := h.isSubset_iff h'
  beq_iff := h.beq_iff h'
  hashParts_iff := h.hashParts_iff h'

/-- What is told of a set is true of the states at its places exactly if every place is the number
of a state. A place past the last state is counted, and no state stands for it. -/
theorem Holds.tells_iff (h : s.Holds places) (hm : ∀ q : UInt32, q ∈ m ↔ q.toNat ∈ places) :
    s.Tells m ↔ InRange places := by
  rw [← eq_numbers_iff hm]
  constructor
  · intro htells
    have hcard : places.card = (numbers m).card := by
      rw [← h.size_eq, htells.size_eq, card_numbers]
    exact (Finset.eq_of_subset_of_card_le (numbers_subset hm) hcard.le).symm
  · rintro rfl
    exact h.tells

end GrowingSet

/-! ## Sets that are made by calls -/

/-- How a set is made: by a call, or by a call on sets that are made already. -/
inductive SetTerm where
  | withCapacity (capacity : Nat)
  | full (count : Nat)
  | singleton (q : UInt32) (capacity : Nat)
  | ofList (l : List UInt32)
  | insert (t : SetTerm) (q : UInt32)
  | remove (t : SetTerm) (q : UInt32)
  | extend (t : SetTerm) (l : List UInt32)
  | unionWith (t u : SetTerm)
  | inter (t u : SetTerm)
  | diff (t u : SetTerm)

namespace SetTerm

open GrowingSet (numbers InRange)

def members : SetTerm → Finset UInt32
  | withCapacity _ => ∅
  | full count => (Finset.range count).image UInt32.ofNat
  | singleton q _ => {q}
  | ofList l => l.toFinset
  | insert t q => Insert.insert q t.members
  | remove t q => t.members.erase q
  | extend t l => t.members ∪ l.toFinset
  | unionWith t u => t.members ∪ u.members
  | inter t u => t.members ∩ u.members
  | diff t u => t.members \ u.members

def places : SetTerm → Finset Nat
  | withCapacity _ => ∅
  | full count => Finset.range count
  | singleton q _ => {q.toNat}
  | ofList l => numbers l.toFinset
  | insert t q => Insert.insert q.toNat t.places
  | remove t q => t.places.erase q.toNat
  | extend t l => t.places ∪ numbers l.toFinset
  | unionWith t u => t.places ∪ u.places
  | inter t u => t.places ∩ u.places
  | diff t u => t.places \ u.places

/-- Full sets are made of no more states than there are. -/
def Fits : SetTerm → Prop
  | full count => count ≤ UInt32.size
  | insert t _ | remove t _ | extend t _ => t.Fits
  | unionWith t u | inter t u | diff t u => t.Fits ∧ u.Fits
  | withCapacity _ | singleton _ _ | ofList _ => True

def growing {ρ : Type} [BitRow ρ] : SetTerm → Option (GrowingSet ρ)
  | withCapacity capacity => some (.withCapacity capacity)
  | full count => some (.full count)
  | singleton q capacity => GrowingSet.singleton q capacity
  | ofList l => GrowingSet.ofList l
  | insert t q => do return (← (← t.growing).insert q).2
  | remove t q => do (← t.growing).remove q
  | extend t l => do (← t.growing).extend l
  | unionWith t u => do return ((← t.growing).unionWith (← u.growing)).2
  | inter t u => do return (← t.growing).inter (← u.growing)
  | diff t u => do return (← t.growing).diff (← u.growing)

def states : SetTerm → StateSet
  | withCapacity _ => ∅
  | full count => .below count
  | singleton q _ => .singleton q.toNat
  | ofList l => .ofList (l.map UInt32.toNat)
  | insert t q => t.states.insert q.toNat
  | remove t q => t.states.erase q.toNat
  | extend t l => .ofList (l.map UInt32.toNat) ∪ t.states
  | unionWith t u => u.states ∪ t.states
  | inter t u => t.states ∩ u.states
  | diff t u => t.states \ u.states

theorem mem_states (t : SetTerm) (i : Nat) : i ∈ t.states ↔ i ∈ t.places := by
  induction t with
  | withCapacity => simp [states, places]
  | full => simp [states, places]
  | singleton => simp [states, places]
  | ofList => simp [states, places, numbers]
  | insert t p ih => simp [states, places, ih]
  | remove t p ih => simp [states, places, ih, and_comm]
  | extend t l ih => simp [states, places, numbers, ih, or_comm]
  | unionWith t u iht ihu => simp [states, places, iht, ihu, or_comm]
  | inter t u iht ihu => simp [states, places, iht, ihu]
  | diff t u iht ihu => simp [states, places, iht, ihu]

theorem mem_members (t : SetTerm) (q : UInt32) : q ∈ t.members ↔ q.toNat ∈ t.places := by
  have htoNat : ∀ p : UInt32, q = p ↔ q.toNat = p.toNat := fun p => UInt32.toNat_inj.symm
  induction t with
  | withCapacity => simp [members, places]
  | full count =>
      simp only [members, places, Finset.mem_image, Finset.mem_range]
      constructor
      · rintro ⟨i, hi, rfl⟩
        exact Nat.lt_of_le_of_lt (Nat.mod_le i _) hi
      · intro hq
        exact ⟨q.toNat, hq, UInt32.ofNat_toNat⟩
  | singleton p => simp [members, places, htoNat]
  | ofList l => exact GrowingSet.toNat_mem_numbers.symm
  | insert t p ih => simp [members, places, htoNat, ih]
  | remove t p ih => simp [members, places, htoNat, ih]
  | extend t l ih =>
    simp only [members, places, Finset.mem_union, GrowingSet.toNat_mem_numbers, ih]
  | unionWith t u iht ihu => simp [members, places, iht, ihu]
  | inter t u iht ihu => simp [members, places, iht, ihu]
  | diff t u iht ihu => simp [members, places, iht, ihu]

theorem exists_growing (ρ : Type) [BitRow ρ] [LawfulBitRow ρ] (t : SetTerm) :
    ∃ s : GrowingSet ρ, t.growing = some s ∧ s.Holds t.places := by
  induction t with
  | withCapacity capacity => exact ⟨_, rfl, GrowingSet.holds_withCapacity capacity⟩
  | full count => exact ⟨_, rfl, GrowingSet.holds_full count⟩
  | singleton q capacity =>
      obtain ⟨s, hs, hholds⟩ := (GrowingSet.holds_withCapacity (ρ := ρ) capacity).exists_insert q
      exact ⟨s, congrArg (Option.map Prod.snd) hs, hholds⟩
  | ofList l =>
      obtain ⟨s, hs, hholds⟩ := (GrowingSet.holds_withCapacity (ρ := ρ) 0).exists_extend l
      rw [Finset.empty_union] at hholds
      exact ⟨s, hs, hholds⟩
  | insert t q ih =>
      obtain ⟨s, hs, hholds⟩ := ih
      obtain ⟨s', hs', hholds'⟩ := hholds.exists_insert q
      refine ⟨s', ?_, hholds'⟩
      simp [growing, hs, hs']
  | remove t q ih =>
      obtain ⟨s, hs, hholds⟩ := ih
      rw [growing, hs]
      exact hholds.exists_remove q
  | extend t l ih =>
      obtain ⟨s, hs, hholds⟩ := ih
      rw [growing, hs]
      exact hholds.exists_extend l
  | unionWith t u iht ihu =>
      obtain ⟨s, hs, hholds⟩ := iht
      obtain ⟨s', hs', hholds'⟩ := ihu
      rw [growing, hs, hs']
      exact ⟨_, rfl, hholds.unionWith hholds'⟩
  | inter t u iht ihu =>
      obtain ⟨s, hs, hholds⟩ := iht
      obtain ⟨s', hs', hholds'⟩ := ihu
      rw [growing, hs, hs']
      exact ⟨_, rfl, hholds.inter hholds'⟩
  | diff t u iht ihu =>
      obtain ⟨s, hs, hholds⟩ := iht
      obtain ⟨s', hs', hholds'⟩ := ihu
      rw [growing, hs, hs']
      exact ⟨_, rfl, hholds.diff hholds'⟩

/-- Only full sets can have places past the last state. -/
theorem Fits.inRange {t : SetTerm} (h : t.Fits) : InRange t.places := by
  have hnumber : ∀ q : UInt32, q.toNat < UInt32.size := fun q => q.toNat_lt
  intro i hi
  induction t with
  | withCapacity => simp [places] at hi
  | full count => exact Nat.lt_of_lt_of_le (Finset.mem_range.1 hi) h
  | singleton q => exact Finset.mem_singleton.1 hi ▸ hnumber q
  | ofList l => exact GrowingSet.inRange_numbers l.toFinset i hi
  | insert t q ih =>
      rcases Finset.mem_insert.1 hi with rfl | hi
      · exact hnumber q
      · exact ih h hi
  | remove t q ih => exact ih h (Finset.mem_of_mem_erase hi)
  | extend t l ih =>
      rcases Finset.mem_union.1 hi with hi | hi
      · exact ih h hi
      · exact GrowingSet.inRange_numbers l.toFinset i hi
  | unionWith t u iht ihu =>
      rcases Finset.mem_union.1 hi with hi | hi
      · exact iht h.1 hi
      · exact ihu h.2 hi
  | inter t u iht => exact iht h.1 (Finset.mem_inter.1 hi).1
  | diff t u iht => exact iht h.1 (Finset.mem_sdiff.1 hi).1

end SetTerm

namespace GrowingSet

/-- Sets that are made by any calls, with room for any number of states, are made without a
failure. All that is told of one of them or of two is true of the finite sets that are meant, as
long as every place is the number of a state, and only so long. It is so if full sets are made of
no more states than there are. The set of numbers that the same calls make, which has no length,
has the same members in the same order. -/
theorem made_is_finite_set (ρ : Type) [BitRow ρ] [LawfulBitRow ρ] (t u : SetTerm) :
    ∃ s s' : GrowingSet ρ, t.growing = some s ∧ u.growing = some s' ∧
      (t.Fits → InRange t.places) ∧ (s.Tells t.members ↔ InRange t.places) ∧
      (InRange t.places → InRange u.places → s.Compares s' t.members u.members ∧
        t.states.toList = s.toList.map UInt32.toNat ∧
        (t.states = u.states ↔ t.members = u.members)) := by
  obtain ⟨s, hs, hholds⟩ := t.exists_growing ρ
  obtain ⟨s', hs', hholds'⟩ := u.exists_growing ρ
  refine ⟨s, s', hs, hs', SetTerm.Fits.inRange, hholds.tells_iff t.mem_members, ?_⟩
  intro ht hu
  have htplaces : t.places = numbers t.members := (eq_numbers_iff t.mem_members).2 ht
  have huplaces : u.places = numbers u.members := (eq_numbers_iff u.mem_members).2 hu
  rw [htplaces] at hholds
  rw [huplaces] at hholds'
  refine ⟨hholds.compares hholds', ?_, ?_⟩
  · apply StateSet.toList_eq_of_mem_iff
    · rw [List.pairwise_map]
      exact hholds.pairwise_toList.imp UInt32.lt_iff_toNat_lt.1
    · intro i
      rw [t.mem_states, htplaces, numbers, Finset.mem_image, List.mem_map]
      simp only [hholds.mem_toList]
  · have hstates : t.states = u.states ↔ t.places = u.places := by
      rw [StateSet.ext_iff, Finset.ext_iff]
      simp only [SetTerm.mem_states]
    rw [hstates, htplaces, huplaces, numbers, numbers,
      (Finset.image_injective toNat_injective).eq_iff]

/-- A union with a longer row, less a state past the others, and a list of the same members: the
rows have different lengths, and the sets are equal. -/
theorem made_is_finite_set_lengths :
    let t : SetTerm :=
      .remove (.unionWith (.singleton 2 1) (.insert (.insert (.withCapacity 64) 9) 1)) 9
    let u : SetTerm := .ofList [1, 2, 1]
    LawfulBitRow SizedRow ∧ t.Fits ∧ u.Fits ∧
      ∃ s s' : GrowingSet SizedRow, t.growing = some s ∧ u.growing = some s' ∧
        (t.growing.map fun s : GrowingSet SizedRow => BitRow.length s.row) = some 64 ∧
        (u.growing.map fun s : GrowingSet SizedRow => BitRow.length s.row) = some 3 ∧
        s.toList.map UInt32.toNat = [1, 2] ∧ (s == s') = true ∧ s.hashParts = s'.hashParts := by
  intro t u
  have ht : t.Fits := ⟨trivial, trivial⟩
  have hu : u.Fits := trivial
  obtain ⟨s, s', hs, hs', hrange, -, hcompares⟩ := made_is_finite_set SizedRow t u
  obtain ⟨hcompares, hlist, -⟩ := hcompares (hrange ht) hu.inRange
  have hsame : t.members = u.members := by decide
  refine ⟨inferInstance, ht, hu, s, s', hs, hs', rfl, rfl, ?_, ?_, ?_⟩
  · rw [← hlist]
    decide
  · exact hcompares.beq_iff.2 hsame
  · exact hcompares.hashParts_iff.2 hsame

/-- A full set of one state more than there are has all states for members, as the full set of all
states has. It tells a state twice, the two are not equal, and are hashed apart. -/
theorem full_repeats :
    let t : SetTerm := .full 4294967297
    let u : SetTerm := .full 4294967296
    ∃ s s' : GrowingSet SizedRow, t.growing = some s ∧ u.growing = some s' ∧
      t.members = u.members ∧ (∀ q, s.contains q = s'.contains q) ∧
      ¬ s.toList.Pairwise (· < ·) ∧ ¬ s.Tells t.members ∧
      (s == s') = false ∧ s.hashParts ≠ s'.hashParts := by
  intro t u
  obtain ⟨s, hs, hholds⟩ := t.exists_growing SizedRow
  obtain ⟨s', hs', hholds'⟩ := u.exists_growing SizedRow
  have hplaces : ∀ q : UInt32, q.toNat ∈ t.places ↔ q.toNat ∈ u.places := by
    intro q
    have hq : q.toNat < 4294967296 := q.toNat_lt
    simp only [t, u, SetTerm.places, Finset.mem_range]
    omega
  have hmore : UInt32.size < t.places.card := by
    simp only [t, SetTerm.places, Finset.card_range, UInt32.size]
    omega
  have hcard : t.places.card ≠ u.places.card := by
    simp only [t, u, SetTerm.places, Finset.card_range]
    omega
  have hascending : ¬ s.toList.Pairwise (· < ·) := hholds.not_ascending hmore
  refine ⟨s, s', hs, hs', ?_, fun q => ?_, hascending, fun h => hascending h.ascending,
    hholds.beq_eq_false hholds' hcard, hholds.hashParts_ne hholds' hcard⟩
  · ext q
    rw [t.mem_members, u.mem_members, hplaces]
  · rw [Bool.eq_iff_iff, hholds.contains_iff, hholds'.contains_iff, hplaces]

end GrowingSet

end RegularLanguages
