/-!
# Keys in a fixed order

A type of keys comes with one strict linear order, given as a test. Sorted sets and sorted maps
take it from here, so that their entries stand in one order only.
-/

namespace RegularLanguages

/-- A type whose values stand in one strict linear order. -/
class Key (κ : Type) where
  before : κ → κ → Bool
  before_irrefl (a : κ) : before a a = false
  before_trans {a b c : κ} : before a b = true → before b c = true → before a c = true
  eq_of_not_before {a b : κ} : before a b = false → before b a = false → a = b

namespace Key

variable {κ : Type} [Key κ]

theorem not_before_of_before {a b : κ} (h : before a b = true) : before b a = false := by
  cases hba : before b a with
  | false => rfl
  | true => exact absurd (before_trans h hba) (by simp [before_irrefl])

theorem ne_of_before {a b : κ} (h : before a b = true) : a ≠ b := by
  rintro rfl
  simp [before_irrefl] at h

/-- The order that a one-to-one function into ordered values gives to its arguments. -/
@[reducible] def ofInjective {α : Type} (f : α → κ) (inj : ∀ {x y}, f x = f y → x = y) : Key α where
  before x y := before (f x) (f y)
  before_irrefl x := before_irrefl (f x)
  before_trans := before_trans
  eq_of_not_before h h' := inj (eq_of_not_before h h')

/-- A list that ascends strictly is fixed by its members. -/
theorem eq_of_pairwise_of_mem_iff {α : Type} {r : α → α → Bool}
    (asymm : ∀ a b, r a b = true → r b a = false) {l m : List α}
    (hl : l.Pairwise (fun a b => r a b = true))
    (hm : m.Pairwise (fun a b => r a b = true)) (h : ∀ x, x ∈ l ↔ x ∈ m) : l = m := by
  have irrefl : ∀ a, r a a ≠ true := fun a ha => by simp [asymm a a ha] at ha
  induction l generalizing m with
  | nil =>
    cases m with
    | nil => rfl
    | cons y ys => exact absurd ((h y).2 List.mem_cons_self) List.not_mem_nil
  | cons x xs ih =>
    cases m with
    | nil => exact absurd ((h x).1 List.mem_cons_self) List.not_mem_nil
    | cons y ys =>
      rw [List.pairwise_cons] at hl hm
      have hxy : x = y := by
        rcases List.mem_cons.1 ((h x).1 List.mem_cons_self) with e | hx
        · exact e
        rcases List.mem_cons.1 ((h y).2 List.mem_cons_self) with e | hy
        · exact e.symm
        exact absurd (asymm _ _ (hl.1 y hy)) (by simp [hm.1 x hx])
      subst hxy
      refine congrArg (x :: ·) (ih hl.2 hm.2 fun z => ⟨fun hz => ?_, fun hz => ?_⟩)
      · rcases List.mem_cons.1 ((h z).1 (List.mem_cons_of_mem x hz)) with rfl | hz'
        · exact absurd (hl.1 z hz) (irrefl z)
        · exact hz'
      · rcases List.mem_cons.1 ((h z).2 (List.mem_cons_of_mem x hz)) with rfl | hz'
        · exact absurd (hm.1 z hz) (irrefl z)
        · exact hz'

end Key

theorem blt_eq_false_iff {a b : Nat} : Nat.blt a b = false ↔ b ≤ a := by
  rw [← Bool.not_eq_true, Nat.blt_eq, Nat.not_lt]

instance : Key Nat where
  before := Nat.blt
  before_irrefl a := blt_eq_false_iff.2 (Nat.le_refl a)
  before_trans h h' := by
    rw [Nat.blt_eq] at *
    exact Nat.lt_trans h h'
  eq_of_not_before h h' := Nat.le_antisymm (blt_eq_false_iff.1 h') (blt_eq_false_iff.1 h)

instance : Key Char := Key.ofInjective Char.toNat fun h => Char.toNat_inj.1 h

instance : Key String where
  before a b := decide (a < b)
  before_irrefl a := decide_eq_false (String.lt_irrefl a)
  before_trans h h' := decide_eq_true (String.lt_trans (of_decide_eq_true h) (of_decide_eq_true h'))
  eq_of_not_before h h' := String.le_antisymm (String.not_lt.1 (of_decide_eq_false h'))
    (String.not_lt.1 (of_decide_eq_false h))

/-- Absence stands before every value. -/
instance {α : Type} [Key α] : Key (Option α) where
  before
    | none, some _ => true
    | some a, some b => Key.before a b
    | _, none => false
  before_irrefl
    | none => rfl
    | some a => Key.before_irrefl a
  before_trans {a b c} h h' := by
    cases c with
    | none => cases b <;> cases h'
    | some c =>
      cases a with
      | none => rfl
      | some a =>
        cases b with
        | none => cases h
        | some b => exact Key.before_trans h h'
  eq_of_not_before {a b} h h' := by
    cases a <;> cases b
    · rfl
    · cases h
    · cases h'
    · exact congrArg some (Key.eq_of_not_before h h')

/-- Pairs are ordered by the first part, and by the second where the first parts agree. -/
instance {α β : Type} [Key α] [Key β] : Key (α × β) where
  before x y := Key.before x.1 y.1 || (!Key.before y.1 x.1 && Key.before x.2 y.2)
  before_irrefl x := by simp [Key.before_irrefl]
  before_trans {a b c} h h' := by
    simp only [Bool.or_eq_true, Bool.and_eq_true, Bool.not_eq_true'] at *
    rcases h with h | ⟨hn, h⟩ <;> rcases h' with h' | ⟨hn', h'⟩
    · exact .inl (Key.before_trans h h')
    · by_cases hbc : Key.before b.1 c.1 = true
      · exact .inl (Key.before_trans h hbc)
      · exact .inl (Key.eq_of_not_before (by simpa using hbc) hn' ▸ h)
    · by_cases hab : Key.before a.1 b.1 = true
      · exact .inl (Key.before_trans hab h')
      · exact .inl ((Key.eq_of_not_before (by simpa using hab) hn).symm ▸ h')
    · by_cases hab : Key.before a.1 b.1 = true
      · by_cases hbc : Key.before b.1 c.1 = true
        · exact .inl (Key.before_trans hab hbc)
        · exact .inl (Key.eq_of_not_before (by simpa using hbc) hn' ▸ hab)
      · rw [Key.eq_of_not_before (by simpa using hab) hn]
        by_cases hbc : Key.before b.1 c.1 = true
        · exact .inl hbc
        · exact .inr ⟨hn', Key.before_trans h h'⟩
  eq_of_not_before {a b} h h' := by
    simp only [Bool.or_eq_false_iff, Bool.and_eq_false_iff, Bool.not_eq_false'] at h h'
    have hfst : a.1 = b.1 := Key.eq_of_not_before h.1 h'.1
    have hsnd : a.2 = b.2 := Key.eq_of_not_before
      (h.2.resolve_left (by simp [h'.1])) (h'.2.resolve_left (by simp [h.1]))
    exact Prod.ext hfst hsnd

theorem Key.before_nat_iff {a b : Nat} : before a b = true ↔ a < b := by
  rw [← Nat.blt_eq]
  exact Iff.rfl

theorem Key.before_prod_iff {α β : Type} [Key α] [Key β] {x y : α × β} :
    before x y = true ↔ before x.1 y.1 = true ∨ x.1 = y.1 ∧ before x.2 y.2 = true := by
  change (before x.1 y.1 || (!before y.1 x.1 && before x.2 y.2)) = true ↔ _
  rw [Bool.or_eq_true, Bool.and_eq_true, Bool.not_eq_true']
  constructor
  · rintro (h | ⟨hback, h⟩)
    · exact .inl h
    · by_cases hfst : before x.1 y.1 = true
      · exact .inl hfst
      · exact .inr ⟨eq_of_not_before (by simpa using hfst) hback, h⟩
  · rintro (h | ⟨heq, h⟩)
    · exact .inl h
    · exact .inr ⟨heq ▸ before_irrefl x.1, h⟩

end RegularLanguages
