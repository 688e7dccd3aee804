import RegularLanguages.StateSet

/-!
# Rows of bits

A row has a length and a bit at every place below it. `LawfulBitRow` says what the operations on
rows do. Rows made of a length and the set of the places of their set bits are lawful (`SizedRow`).
-/

namespace RegularLanguages

class BitRow (ρ : Type) where
  /-- The row of a length without a set bit. -/
  clear : Nat → ρ
  length : ρ → Nat
  contains : ρ → Nat → Bool
  /-- A row that is at least so long, with more bits at its end. -/
  grow : ρ → Nat → ρ
  /-- Sets a bit, and tells whether it was set. There is none past the end. -/
  put : ρ → Nat → Option (Bool × ρ)
  /-- Gives a bit a value. There is none past the end. -/
  set : ρ → Nat → Bool → Option ρ
  /-- Sets every bit. -/
  fill : ρ → ρ
  isClear : ρ → Bool
  /-- The number of set bits. -/
  count : ρ → Nat
  /-- The places of the set bits. -/
  ones : ρ → List Nat
  union : ρ → ρ → ρ
  inter : ρ → ρ → ρ
  diff : ρ → ρ → ρ
  isDisjoint : ρ → ρ → Bool

section Laws

open BitRow

/-- The operations on rows do what is documented of them. A union is as long as the longer row, an
intersection and a difference are as long as the first one. -/
class LawfulBitRow (ρ : Type) [BitRow ρ] : Prop where
  length_clear (n : Nat) : length (clear n : ρ) = n
  contains_clear (n q : Nat) : contains (clear n : ρ) q = false
  contains_of_length_le {r : ρ} {q : Nat} : length r ≤ q → contains r q = false
  length_grow (r : ρ) (n : Nat) : length (grow r n) = max (length r) n
  contains_grow (r : ρ) (n q : Nat) : contains (grow r n) q = contains r q
  put_of_lt {r : ρ} {q : Nat} : q < length r → ∃ r', put r q = some (contains r q, r') ∧
    length r' = length r ∧ ∀ p, contains r' p = if p = q then true else contains r p
  put_of_length_le {r : ρ} {q : Nat} : length r ≤ q → put r q = none
  set_of_lt {r : ρ} {q : Nat} (b : Bool) : q < length r → ∃ r', set r q b = some r' ∧
    length r' = length r ∧ ∀ p, contains r' p = if p = q then b else contains r p
  set_of_length_le {r : ρ} {q : Nat} (b : Bool) : length r ≤ q → set r q b = none
  length_fill (r : ρ) : length (fill r) = length r
  contains_fill (r : ρ) (q : Nat) : contains (fill r) q = decide (q < length r)
  isClear_iff {r : ρ} : isClear r = true ↔ ∀ q, contains r q = false
  count_eq (r : ρ) : count r = (List.range (length r)).countP (contains r)
  ones_eq (r : ρ) : ones r = (List.range (length r)).filter (contains r)
  length_union (r r' : ρ) : length (union r r') = max (length r) (length r')
  contains_union (r r' : ρ) (q : Nat) : contains (union r r') q = (contains r q || contains r' q)
  length_inter (r r' : ρ) : length (inter r r') = length r
  contains_inter (r r' : ρ) (q : Nat) : contains (inter r r') q = (contains r q && contains r' q)
  length_diff (r r' : ρ) : length (diff r r') = length r
  contains_diff (r r' : ρ) (q : Nat) : contains (diff r r') q = (contains r q && !contains r' q)
  isDisjoint_iff {r r' : ρ} : isDisjoint r r' = true ↔ ∀ q, contains r q = true →
    contains r' q = false

theorem BitRow.lt_length {ρ : Type} [BitRow ρ] [LawfulBitRow ρ] {r : ρ} {q : Nat}
    (h : contains r q = true) :
    q < length r := by
  apply Nat.lt_of_not_le
  intro hle
  rw [LawfulBitRow.contains_of_length_le hle] at h
  cases h

end Laws

/-- A length, and the places of the set bits below it. -/
structure SizedRow where
  length : Nat
  places : StateSet
  lt_length : ∀ q ∈ places, q < length

namespace SizedRow

def clear (n : Nat) : SizedRow := ⟨n, ∅, fun q hq => absurd hq (StateSet.not_mem_empty q)⟩

def grow (r : SizedRow) (n : Nat) : SizedRow :=
  ⟨max r.length n, r.places, fun q hq => Nat.lt_of_lt_of_le (r.lt_length q hq)
    (Nat.le_max_left _ _)⟩

theorem lt_length_insert (r : SizedRow) {q : Nat} (hq : q < r.length) :
    ∀ p ∈ r.places.insert q, p < r.length := by
  intro p hp
  rcases StateSet.mem_insert.1 hp with rfl | hp
  · exact hq
  · exact r.lt_length p hp

theorem lt_length_erase (r : SizedRow) (q : Nat) : ∀ p ∈ r.places.erase q, p < r.length :=
  fun p hp => r.lt_length p (StateSet.mem_erase.1 hp).1

def set (r : SizedRow) (q : Nat) (b : Bool) : Option SizedRow :=
  if hq : q < r.length then
    some <| if b then ⟨r.length, r.places.insert q, r.lt_length_insert hq⟩
      else ⟨r.length, r.places.erase q, r.lt_length_erase q⟩
  else none

def put (r : SizedRow) (q : Nat) : Option (Bool × SizedRow) :=
  (r.set q true).map (decide (q ∈ r.places), ·)

def fill (r : SizedRow) : SizedRow :=
  ⟨r.length, StateSet.below r.length, fun _ => StateSet.mem_below.1⟩

def union (r r' : SizedRow) : SizedRow where
  length := max r.length r'.length
  places := r.places ∪ r'.places
  lt_length q hq := by
    rcases StateSet.mem_union.1 hq with hq | hq
    · exact Nat.lt_of_lt_of_le (r.lt_length q hq) (Nat.le_max_left _ _)
    · exact Nat.lt_of_lt_of_le (r'.lt_length q hq) (Nat.le_max_right _ _)

def inter (r r' : SizedRow) : SizedRow :=
  ⟨r.length, r.places ∩ r'.places, fun q hq => r.lt_length q (StateSet.mem_inter.1 hq).1⟩

def diff (r r' : SizedRow) : SizedRow :=
  ⟨r.length, r.places \ r'.places, fun q hq => r.lt_length q (StateSet.mem_diff.1 hq).1⟩

instance : BitRow SizedRow where
  clear := clear
  length := length
  contains r q := decide (q ∈ r.places)
  grow := grow
  put := put
  set := set
  fill := fill
  isClear r := r.places.isEmpty
  count r := r.places.size
  ones r := r.places.toList
  union := union
  inter := inter
  diff := diff
  isDisjoint r r' := !r.places.intersects r'.places

theorem toList_places (r : SizedRow) :
    r.places.toList = (List.range r.length).filter (decide <| · ∈ r.places) := by
  apply StateSet.toList_eq_of_mem_iff
  · exact List.pairwise_lt_range.filter _
  · intro q
    rw [List.mem_filter, List.mem_range, decide_eq_true_iff]
    exact ⟨fun hq => ⟨r.lt_length q hq, hq⟩, fun hq => hq.2⟩

theorem exists_set {r : SizedRow} {q : Nat} (b : Bool) (hq : q < r.length) :
    ∃ r', r.set q b = some r' ∧ r'.length = r.length ∧
      ∀ p, decide (p ∈ r'.places) = if p = q then b else decide (p ∈ r.places) := by
  cases b with
  | true =>
      refine ⟨_, dif_pos hq, rfl, fun p => ?_⟩
      by_cases hp : p = q <;> simp [hp]
  | false =>
      refine ⟨_, dif_pos hq, rfl, fun p => ?_⟩
      by_cases hp : p = q <;> simp [hp]

instance : LawfulBitRow SizedRow where
  length_clear _ := rfl
  contains_clear _ q := decide_eq_false (StateSet.not_mem_empty q)
  contains_of_length_le {r q} hle := decide_eq_false fun hq => Nat.not_lt.2 hle (r.lt_length q hq)
  length_grow _ _ := rfl
  contains_grow _ _ _ := rfl
  put_of_lt {r q} hq := by
    obtain ⟨r', hset, hr'⟩ := exists_set true hq
    exact ⟨r', congrArg (Option.map _) hset, hr'⟩
  put_of_length_le {r q} hle := congrArg (Option.map _) (dif_neg (Nat.not_lt.2 hle))
  set_of_lt := exists_set
  set_of_length_le _ hle := dif_neg (Nat.not_lt.2 hle)
  length_fill _ := rfl
  contains_fill r q := decide_eq_decide.2 StateSet.mem_below
  isClear_iff {r} := by
    refine StateSet.isEmpty_iff_forall.trans (forall_congr' fun q => ?_)
    exact decide_eq_false_iff_not.symm
  count_eq r := by
    rw [List.countP_eq_length_filter]
    exact congrArg List.length r.toList_places
  ones_eq := toList_places
  length_union _ _ := rfl
  contains_union _ _ _ := (decide_eq_decide.2 StateSet.mem_union).trans (Bool.decide_or _ _)
  length_inter _ _ := rfl
  contains_inter _ _ _ := (decide_eq_decide.2 StateSet.mem_inter).trans (Bool.decide_and _ _)
  length_diff _ _ := rfl
  contains_diff r r' q := by
    change decide (q ∈ r.places \ r'.places) = (decide (q ∈ r.places) && !decide (q ∈ r'.places))
    rw [decide_eq_decide.2 StateSet.mem_diff, Bool.decide_and, decide_not]
  isDisjoint_iff {r r'} := by
    change (!r.places.intersects r'.places) = true ↔
      ∀ q, decide (q ∈ r.places) = true → decide (q ∈ r'.places) = false
    rw [Bool.not_eq_true', ← Bool.not_eq_true, StateSet.intersects_iff]
    simp

end SizedRow

end RegularLanguages
