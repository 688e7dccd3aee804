import RegularLanguages.Key

/-!
# Sets of states

States are numbers, and a set of them is one number: the bit of a state is set if the state is a
member. Sets with the same members are therefore equal (`StateSet.ext`), and a set can itself serve
as a state. `toList` gives the members in ascending order.
-/

namespace RegularLanguages

structure StateSet where
  /-- The number whose bits tell the members. -/
  bits : Nat
deriving DecidableEq, Inhabited, Repr

namespace StateSet

instance : Key StateSet := Key.ofInjective bits fun {s t} h => by
  cases s
  cases t
  exact congrArg mk h

instance : Membership Nat StateSet where
  mem s q := s.bits.testBit q = true

instance (q : Nat) (s : StateSet) : Decidable (q ∈ s) :=
  inferInstanceAs (Decidable (s.bits.testBit q = true))

instance : EmptyCollection StateSet := ⟨⟨0⟩⟩

instance : Union StateSet := ⟨fun s t => ⟨s.bits ||| t.bits⟩⟩

instance : Inter StateSet := ⟨fun s t => ⟨s.bits &&& t.bits⟩⟩

instance : SDiff StateSet := ⟨fun s t => ⟨s.bits ^^^ (s.bits &&& t.bits)⟩⟩

def singleton (q : Nat) : StateSet := ⟨1 <<< q⟩

def insert (q : Nat) (s : StateSet) : StateSet := s ∪ singleton q

def erase (s : StateSet) (q : Nat) : StateSet := if q ∈ s then s \ singleton q else s

def ofList (l : List Nat) : StateSet := l.foldr insert ∅

def below (n : Nat) : StateSet := ⟨(1 <<< n) - 1⟩

def shift (k : Nat) (s : StateSet) : StateSet := ⟨s.bits <<< k⟩

/--
The places of the set bits among the lowest `2 ^ k` bits of a number, counted from an offset. A run
of bits is cut into halves, so that runs of zeros cost little.
-/
def places : Nat → Nat → Nat → List Nat
  | 0, offset, b => if b.testBit 0 then [offset] else []
  | k + 1, offset, b =>
    if b = 0 then []
    else
      let high := b >>> (1 <<< k)
      places k offset (b ^^^ high <<< (1 <<< k)) ++ places k (offset + 1 <<< k) high

def toList (s : StateSet) : List Nat := places (s.bits.log2.log2 + 1) 0 s.bits

def image (f : Nat → Nat) (s : StateSet) : StateSet := ofList (s.toList.map f)

def size (s : StateSet) : Nat := s.toList.length

def isEmpty (s : StateSet) : Bool := s.bits == 0

/-- Whether a set has at least so many members, of which no more are counted. -/
def hasAtLeast : Nat → StateSet → Bool
  | 0, _ => true
  | k + 1, s => !s.isEmpty && hasAtLeast k (s.erase s.bits.log2)

def first? (s : StateSet) : Option Nat := s.toList.head?

def intersects (s t : StateSet) : Bool := !(s ∩ t).isEmpty

def isSubset (s t : StateSet) : Bool := (s \ t).isEmpty

def braced (members : List String) : String := "\x7b" ++ ", ".intercalate members ++ "\x7d"

def text (s : StateSet) : String := braced (s.toList.map toString)

/-! ## Members -/

theorem mem_def {q : Nat} {s : StateSet} : q ∈ s ↔ s.bits.testBit q = true := Iff.rfl

@[ext] theorem ext {s t : StateSet} (h : ∀ q, q ∈ s ↔ q ∈ t) : s = t := by
  cases s
  cases t
  exact congrArg mk (Nat.eq_of_testBit_eq fun q => Bool.eq_iff_iff.2 (h q))

@[simp] theorem not_mem_empty (q : Nat) : q ∉ (∅ : StateSet) := by
  rw [mem_def]
  simp [show (∅ : StateSet).bits = 0 from rfl]

@[simp] theorem mem_union {q : Nat} {s t : StateSet} : q ∈ s ∪ t ↔ q ∈ s ∨ q ∈ t := by
  simp [mem_def, show (s ∪ t).bits = s.bits ||| t.bits from rfl]

@[simp] theorem mem_inter {q : Nat} {s t : StateSet} : q ∈ s ∩ t ↔ q ∈ s ∧ q ∈ t := by
  simp [mem_def, show (s ∩ t).bits = s.bits &&& t.bits from rfl]

@[simp] theorem mem_diff {q : Nat} {s t : StateSet} : q ∈ s \ t ↔ q ∈ s ∧ q ∉ t := by
  rw [mem_def, show (s \ t).bits = s.bits ^^^ (s.bits &&& t.bits) from rfl, mem_def, mem_def,
    Nat.testBit_xor, Nat.testBit_and]
  cases s.bits.testBit q <;> simp

@[simp] theorem mem_singleton {p q : Nat} : q ∈ singleton p ↔ q = p := by
  rw [mem_def, singleton, Nat.one_shiftLeft, Nat.testBit_two_pow, decide_eq_true_iff]
  exact eq_comm

@[simp] theorem mem_insert {p q : Nat} {s : StateSet} : q ∈ insert p s ↔ q = p ∨ q ∈ s := by
  rw [insert, mem_union, mem_singleton]
  exact or_comm

@[simp] theorem mem_erase {p q : Nat} {s : StateSet} : q ∈ s.erase p ↔ q ∈ s ∧ q ≠ p := by
  unfold erase
  split
  · rw [mem_diff, mem_singleton]
  · rename_i h
    exact ⟨fun hq => ⟨hq, fun e => h (e ▸ hq)⟩, fun hq => hq.1⟩

@[simp] theorem mem_ofList {q : Nat} {l : List Nat} : q ∈ ofList l ↔ q ∈ l := by
  induction l with
  | nil => simp [ofList]
  | cons p l ih =>
    rw [show ofList (p :: l) = insert p (ofList l) from rfl, mem_insert, ih, List.mem_cons]

@[simp] theorem mem_below {n q : Nat} : q ∈ below n ↔ q < n := by
  rw [mem_def, below, Nat.one_shiftLeft, Nat.testBit_two_pow_sub_one, decide_eq_true_iff]

theorem mem_shift {k q : Nat} {s : StateSet} : q ∈ s.shift k ↔ k ≤ q ∧ q - k ∈ s := by
  rw [mem_def, shift, Nat.testBit_shiftLeft, Bool.and_eq_true, decide_eq_true_iff]
  exact Iff.rfl

private theorem one_shiftLeft_succ (k : Nat) : 1 <<< (k + 1) = 1 <<< k + 1 <<< k := by
  rw [Nat.one_shiftLeft, Nat.one_shiftLeft, Nat.pow_succ, Nat.mul_two]

private theorem testBit_xor_shiftLeft_shiftRight (b k q : Nat) :
    (b ^^^ b >>> k <<< k).testBit q = (decide (q < k) && b.testBit q) := by
  rw [Nat.testBit_xor, Nat.testBit_shiftLeft, Nat.testBit_shiftRight]
  by_cases h : q < k
  · simp [h, Nat.not_le.2 h]
  · simp [h, Nat.not_lt.1 h]

theorem mem_places {k offset b q : Nat} :
    q ∈ places k offset b ↔ offset ≤ q ∧ q < offset + 1 <<< k ∧ b.testBit (q - offset) = true := by
  induction k generalizing offset b with
  | zero =>
    unfold places
    split
    · rename_i h
      rw [List.mem_singleton]
      constructor
      · intro hq
        subst hq
        refine ⟨Nat.le_refl q, by omega, ?_⟩
        rw [Nat.sub_self]
        exact h
      · rintro ⟨hle, hlt, -⟩
        omega
    · rename_i h
      constructor
      · intro hq
        exact absurd hq List.not_mem_nil
      · rintro ⟨hle, hlt, hb⟩
        rw [show q - offset = 0 by omega] at hb
        exact absurd hb h
  | succ k ih =>
    unfold places
    split
    · rename_i h
      simp [h]
    · rw [List.mem_append, ih, ih, testBit_xor_shiftLeft_shiftRight, Nat.testBit_shiftRight,
        Bool.and_eq_true, decide_eq_true_iff, one_shiftLeft_succ]
      generalize 1 <<< k = m
      constructor
      · rintro (⟨hle, hlt, -, hb⟩ | ⟨hle, hlt, hb⟩)
        · exact ⟨hle, by omega, hb⟩
        · rw [show m + (q - (offset + m)) = q - offset by omega] at hb
          exact ⟨by omega, by omega, hb⟩
      · rintro ⟨hle, hlt, hb⟩
        by_cases hq : q < offset + m
        · exact .inl ⟨hle, hq, by omega, hb⟩
        · refine .inr ⟨by omega, by omega, ?_⟩
          rw [show m + (q - (offset + m)) = q - offset by omega]
          exact hb

theorem pairwise_places (k offset b : Nat) : (places k offset b).Pairwise (· < ·) := by
  induction k generalizing offset b with
  | zero =>
    unfold places
    split <;> simp
  | succ k ih =>
    unfold places
    split
    · exact List.Pairwise.nil
    · refine List.pairwise_append.2 ⟨ih _ _, ih _ _, fun p hp q hq => ?_⟩
      have hp' := (mem_places.1 hp).2.1
      have hq' := (mem_places.1 hq).1
      omega

@[simp] theorem mem_toList {q : Nat} {s : StateSet} : q ∈ s.toList ↔ q ∈ s := by
  rw [toList, mem_places, Nat.zero_add, Nat.sub_zero]
  refine ⟨fun h => h.2.2, fun h => ⟨Nat.zero_le q, ?_, h⟩⟩
  have hpos : s.bits ≠ 0 := by
    intro h0
    rw [mem_def, h0, Nat.zero_testBit] at h
    cases h
  rw [Nat.one_shiftLeft]
  exact Nat.lt_of_le_of_lt ((Nat.le_log2 hpos).2 (Nat.ge_two_pow_of_testBit h)) Nat.lt_log2_self

theorem pairwise_toList (s : StateSet) : s.toList.Pairwise (· < ·) := pairwise_places _ _ _

theorem nodup_toList (s : StateSet) : s.toList.Nodup :=
  s.pairwise_toList.imp fun h => Nat.ne_of_lt h

@[simp] theorem mem_image {f : Nat → Nat} {q : Nat} {s : StateSet} :
    q ∈ s.image f ↔ ∃ p ∈ s, f p = q := by
  simp [image]

theorem isEmpty_iff {s : StateSet} : s.isEmpty = true ↔ s = ∅ := by
  cases s
  simp [isEmpty, show (∅ : StateSet) = ⟨0⟩ from rfl]

theorem isEmpty_iff_forall {s : StateSet} : s.isEmpty = true ↔ ∀ q, q ∉ s := by
  rw [isEmpty_iff]
  refine ⟨fun h q => h ▸ not_mem_empty q, fun h => ext fun q => ?_⟩
  simp [h q]

theorem isEmpty_eq_false_iff {s : StateSet} : s.isEmpty = false ↔ ∃ q, q ∈ s := by
  rw [← Bool.not_eq_true, isEmpty_iff_forall]
  exact Classical.not_forall_not

theorem intersects_iff {s t : StateSet} : s.intersects t = true ↔ ∃ q ∈ s, q ∈ t := by
  rw [intersects, Bool.not_eq_true', ← Bool.not_eq_true, isEmpty_iff_forall]
  simp

theorem isSubset_iff {s t : StateSet} : s.isSubset t = true ↔ ∀ q ∈ s, q ∈ t := by
  rw [isSubset, isEmpty_iff_forall]
  simp

theorem toList_eq_of_mem_iff {s : StateSet} {l : List Nat} (hl : l.Pairwise (· < ·))
    (h : ∀ q, q ∈ s ↔ q ∈ l) :
    s.toList = l := by
  refine Key.eq_of_pairwise_of_mem_iff (r := fun a b => decide (a < b))
    (fun a b hab => ?_) ?_ ?_ fun q => ?_
  · exact decide_eq_false (Nat.lt_asymm (of_decide_eq_true hab))
  · exact (pairwise_toList s).imp decide_eq_true
  · exact hl.imp decide_eq_true
  · rw [mem_toList, h]

theorem toList_singleton (q : Nat) : (singleton q).toList = [q] :=
  toList_eq_of_mem_iff (List.pairwise_singleton _ q) fun p => by simp

theorem toList_below (n : Nat) : (below n).toList = List.range n :=
  toList_eq_of_mem_iff List.pairwise_lt_range fun q => by simp

theorem toList_erase (s : StateSet) (q : Nat) : (s.erase q).toList = s.toList.filter (· != q) :=
  toList_eq_of_mem_iff ((pairwise_toList s).filter _) fun p => by simp

theorem size_erase {s : StateSet} {q : Nat} (h : q ∈ s) : (s.erase q).size + 1 = s.size := by
  have hcount : s.toList.count q = 1 := by
    rw [s.nodup_toList.count, if_pos (mem_toList.2 h)]
  have hrest : s.toList.countP (fun p => ¬ (p != q) = true) = 1 := by
    rw [← hcount, List.count]
    exact List.countP_congr fun p _ => by simp
  rw [size, size, toList_erase, ← List.countP_eq_length_filter,
    s.toList.length_eq_countP_add_countP (· != q), hrest]

theorem size_le_one_iff {s : StateSet} : s.size ≤ 1 ↔ ∀ p ∈ s, ∀ q ∈ s, p = q := by
  simp only [size, ← mem_toList]
  match s.toList, s.nodup_toList with
  | [], _ => simp
  | [_], _ => simp
  | x :: y :: l, hnodup =>
    refine iff_of_false (by simp) fun h => ?_
    have hxy := h x List.mem_cons_self y (List.mem_cons_of_mem x List.mem_cons_self)
    exact (List.nodup_cons.1 hnodup).1 (hxy ▸ List.mem_cons_self)

theorem log2_mem {s : StateSet} (h : s.isEmpty = false) : s.bits.log2 ∈ s :=
  Nat.testBit_log2 (by simpa [isEmpty] using h)

theorem hasAtLeast_iff {k : Nat} {s : StateSet} : s.hasAtLeast k = true ↔ k ≤ s.size := by
  induction k generalizing s with
  | zero => simp [hasAtLeast]
  | succ k ih =>
    rw [hasAtLeast, Bool.and_eq_true, ih, Bool.not_eq_true']
    constructor
    · rintro ⟨hne, hk⟩
      have := size_erase (log2_mem hne)
      omega
    · intro hk
      have hne : s.isEmpty = false := by
        cases he : s.isEmpty with
        | false => rfl
        | true =>
          rw [isEmpty_iff.1 he] at hk
          cases hk
      have := size_erase (log2_mem hne)
      exact ⟨hne, by omega⟩

end StateSet

end RegularLanguages
