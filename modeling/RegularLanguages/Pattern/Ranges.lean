/-!
# Ranges of numbers

A set of numbers is kept as ranges in ascending order with gaps between them. Union and complement
give the other operations. `holds_union` says which numbers are in a union.
-/

namespace RegularLanguages.Pattern

abbrev Ranges := List (Nat × Nat)

namespace Ranges

def Holds (s : Ranges) (n : Nat) : Prop := ∃ r ∈ s, r.1 ≤ n ∧ n ≤ r.2

/-- Adds a range; those that it meets or touches become one with it. -/
def add (first last : Nat) : Ranges → Ranges
  | [] => [(first, last)]
  | (a, b) :: rest =>
    if last + 1 < a then (first, last) :: (a, b) :: rest
    else if b + 1 < first then (a, b) :: add first last rest
    else add (min first a) (max last b) rest

def insert (s : Ranges) (r : Nat × Nat) : Ranges := if r.1 ≤ r.2 then add r.1 r.2 s else s

def ofList (l : List (Nat × Nat)) : Ranges := l.foldl insert []

def union (s t : Ranges) : Ranges := ofList (s ++ t)

def gaps (first last : Nat) : Ranges → Ranges
  | [] => if first ≤ last then [(first, last)] else []
  | (a, b) :: rest =>
    if first < a then (first, a - 1) :: gaps (b + 1) last rest else gaps (b + 1) last rest

def complement (last : Nat) (s : Ranges) : Ranges := gaps 0 last s

def intersection (last : Nat) (s t : Ranges) : Ranges :=
  complement last (union (complement last s) (complement last t))

def difference (last : Nat) (s t : Ranges) : Ranges := intersection last s (complement last t)

def symmetricDifference (last : Nat) (s t : Ranges) : Ranges :=
  difference last (union s t) (intersection last s t)

theorem holds_cons (r : Nat × Nat) (s : Ranges) (n : Nat) :
    Holds (r :: s) n ↔ (r.1 ≤ n ∧ n ≤ r.2) ∨ Holds s n := by
  simp only [Holds, List.mem_cons]
  constructor
  · rintro ⟨q, rfl | hq, hn⟩
    · exact .inl hn
    · exact .inr ⟨q, hq, hn⟩
  · rintro (hn | ⟨q, hq, hn⟩)
    · exact ⟨r, .inl rfl, hn⟩
    · exact ⟨q, .inr hq, hn⟩

theorem holds_add {first last : Nat} (h : first ≤ last) {s : Ranges}
    (hs : ∀ r ∈ s, r.1 ≤ r.2) (n : Nat) :
    (add first last s).Holds n ↔ (first ≤ n ∧ n ≤ last) ∨ s.Holds n := by
  induction s generalizing first last with
  | nil => exact holds_cons (first, last) [] n
  | cons r rest ih =>
    obtain ⟨a, b⟩ := r
    have hab : a ≤ b := hs (a, b) List.mem_cons_self
    have hrest : ∀ r ∈ rest, r.1 ≤ r.2 := fun r hr => hs r (List.mem_cons_of_mem _ hr)
    simp only [add]
    split
    · exact holds_cons (first, last) ((a, b) :: rest) n
    · split
      · rw [holds_cons, holds_cons, ih h hrest]
        exact or_left_comm
      · rw [ih (by omega) hrest, holds_cons, ← or_assoc]
        exact or_congr_left (by omega)

theorem le_of_mem_add {first last : Nat} (h : first ≤ last) {s : Ranges} (hs : ∀ r ∈ s, r.1 ≤ r.2) :
    ∀ r ∈ add first last s, r.1 ≤ r.2 := by
  induction s generalizing first last with
  | nil => intro r hr; cases List.mem_singleton.1 hr; exact h
  | cons q rest ih =>
    obtain ⟨a, b⟩ := q
    have hab : a ≤ b := hs (a, b) List.mem_cons_self
    have hrest : ∀ r ∈ rest, r.1 ≤ r.2 := fun r hr => hs r (List.mem_cons_of_mem _ hr)
    simp only [add]
    split
    · intro r hr
      rcases List.mem_cons.1 hr with rfl | hr
      · exact h
      · exact hs r hr
    · split
      · intro r hr
        rcases List.mem_cons.1 hr with rfl | hr
        · exact hab
        · exact ih h hrest r hr
      · exact ih (by omega) hrest

/-- The numbers of a list of ranges are those in one of them. -/
theorem holds_ofList (l : List (Nat × Nat)) (n : Nat) : (ofList l).Holds n ↔ Holds l n := by
  have key : ∀ (l : List (Nat × Nat)) (s : Ranges), (∀ r ∈ s, r.1 ≤ r.2) →
      (Holds (l.foldl insert s) n ↔ Holds l n ∨ s.Holds n) := by
    intro l
    induction l with
    | nil => intro s _; simp [Holds]
    | cons r l ih =>
      intro s hs
      rw [List.foldl_cons, holds_cons]
      by_cases h : r.1 ≤ r.2
      · rw [insert, if_pos h, ih _ (le_of_mem_add h hs), holds_add h hs, or_left_comm, or_assoc]
      · rw [insert, if_neg h, ih _ hs, or_assoc]
        exact ⟨.inr, fun h' => h'.resolve_left (by omega)⟩
  rw [ofList, key l [] (by simp)]
  simp [Holds]

theorem holds_union (s t : Ranges) (n : Nat) : (union s t).Holds n ↔ s.Holds n ∨ t.Holds n := by
  rw [union, holds_ofList]
  simp only [Holds, List.mem_append, or_and_right, exists_or]

end Ranges

end RegularLanguages.Pattern
