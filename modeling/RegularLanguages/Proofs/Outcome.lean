import Mathlib.Data.List.Forall2

/-!
# Computations that may fail

When a sequence of computations succeeds, and what each of them gave then; when it fails, and with
which fault (`mapM_eq_error_iff`); when two computations have the same outcome (`Agree`).
-/

namespace RegularLanguages

variable {ε α β : Type}

theorem bind_eq_ok_iff {x : Except ε α} {f : α → Except ε β} {b : β} :
    x >>= f = .ok b ↔ ∃ a, x = .ok a ∧ f a = .ok b := by
  cases x with
  | error e =>
      constructor
      · intro h
        cases h
      · rintro ⟨a, ha, -⟩
        cases ha
  | ok a =>
      constructor
      · intro h
        exact ⟨a, rfl, h⟩
      · rintro ⟨a', ha, h⟩
        cases ha
        exact h

theorem bind_eq_error_iff {x : Except ε α} {f : α → Except ε β} {e : ε} :
    x >>= f = .error e ↔ x = .error e ∨ ∃ a, x = .ok a ∧ f a = .error e := by
  cases x with
  | error d =>
      change Except.error d = .error e ↔ _
      simp
  | ok a =>
      change f a = .error e ↔ _
      simp

theorem bind_pure_eq_error_iff {x : Except ε α} {f : α → β} {e : ε} :
    (x >>= fun a => pure (f a)) = .error e ↔ x = .error e := by
  rw [bind_eq_error_iff]
  simp [pure, Except.pure]

theorem exists_eq_ok_iff {x : Except ε α} : (∃ a, x = .ok a) ↔ ∀ e, x ≠ .error e := by
  cases x <;> simp

theorem mapError_eq_ok_iff {ε' : Type} {x : Except ε α} {f : ε → ε'} {a : α} :
    x.mapError f = .ok a ↔ x = .ok a := by
  cases x <;> simp [Except.mapError]

theorem mapM_eq_ok_iff {f : α → Except ε β} {l : List α} {ys : List β} :
    l.mapM f = .ok ys ↔ List.Forall₂ (fun x y => f x = .ok y) l ys := by
  induction l generalizing ys with
  | nil =>
      rw [List.mapM_nil, List.forall₂_nil_left_iff]
      constructor
      · intro h
        cases h
        rfl
      · rintro rfl
        rfl
  | cons x l ih =>
      rw [List.mapM_cons, bind_eq_ok_iff, List.forall₂_cons_left_iff]
      constructor
      · rintro ⟨y, hy, h⟩
        obtain ⟨zs, hzs, heq⟩ := bind_eq_ok_iff.1 h
        cases heq
        exact ⟨y, zs, hy, ih.1 hzs, rfl⟩
      · rintro ⟨y, zs, hy, hzs, rfl⟩
        exact ⟨y, hy, bind_eq_ok_iff.2 ⟨zs, ih.2 hzs, rfl⟩⟩

theorem mapM_map_eq_ok {γ : Type} {f : α → Except ε β} {g : γ → α} {h : γ → β} {l : List γ}
    (hf : ∀ x ∈ l, f (g x) = .ok (h x)) : (l.map g).mapM f = .ok (l.map h) := by
  rw [mapM_eq_ok_iff, List.forall₂_map_left_iff, List.forall₂_map_right_iff, List.forall₂_same]
  exact hf

theorem mapM_map_eq_some {γ : Type} {f : α → Option β} {g : γ → α} {h : γ → β} {l : List γ}
    (hf : ∀ x ∈ l, f (g x) = some (h x)) : (l.map g).mapM f = some (l.map h) := by
  induction l with
  | nil => rfl
  | cons x l ih =>
      rw [List.map_cons, List.mapM_cons, hf x List.mem_cons_self,
        ih fun y hy => hf y (List.mem_cons_of_mem x hy)]
      rfl

theorem mem_iff_of_mapM_eq_ok {f : α → Except ε β} {l : List α} {ys : List β}
    (h : l.mapM f = .ok ys) {y : β} : y ∈ ys ↔ ∃ x ∈ l, f x = .ok y := by
  replace h := mapM_eq_ok_iff.1 h
  induction h with
  | nil => simp
  | cons hx _ ih => simp [hx, ih, eq_comm]

theorem exists_eq_ok_of_mapM_eq_ok {f : α → Except ε β} {l : List α} {ys : List β}
    (h : l.mapM f = .ok ys) {x : α} (hx : x ∈ l) : ∃ y, f x = .ok y := by
  replace h := mapM_eq_ok_iff.1 h
  induction h with
  | nil => cases hx
  | cons hy _ ih =>
      rcases List.mem_cons.1 hx with rfl | hx
      · exact ⟨_, hy⟩
      · exact ih hx

theorem mem_flatten_iff_of_mapM_eq_ok {f : α → Except ε (List β)} {l : List α}
    {rows : List (List β)} (h : l.mapM f = .ok rows) {y : β} :
    y ∈ rows.flatten ↔ ∃ x ∈ l, ∃ row, f x = .ok row ∧ y ∈ row := by
  simp only [List.mem_flatten, mem_iff_of_mapM_eq_ok h]
  constructor
  · rintro ⟨row, ⟨x, hx, hrow⟩, hy⟩
    exact ⟨x, hx, row, hrow, hy⟩
  · rintro ⟨x, hx, row, hrow, hy⟩
    exact ⟨row, ⟨x, hx, hrow⟩, hy⟩

/-! ## Two computations side by side -/

/-- Whether two computations fail with the same error, or have results that are related. -/
inductive Agree (R : α → β → Prop) : Except ε α → Except ε β → Prop
  | ok {a : α} {b : β} : R a b → Agree R (.ok a) (.ok b)
  | error (e : ε) : Agree R (.error e) (.error e)

theorem Agree.bind {γ δ : Type} {R : α → β → Prop} {S : γ → δ → Prop}
    {x : Except ε α} {y : Except ε β} {f : α → Except ε γ} {g : β → Except ε δ} (h : Agree R x y)
    (hfg : ∀ a b, R a b → Agree S (f a) (g b)) : Agree S (x >>= f) (y >>= g) := by
  cases h with
  | ok hab => exact hfg _ _ hab
  | error e => exact .error e

theorem Agree.imp {R S : α → β → Prop} {x : Except ε α} {y : Except ε β} (h : Agree R x y)
    (hRS : ∀ a b, R a b → S a b) : Agree S x y := by
  cases h with
  | ok hab => exact .ok (hRS _ _ hab)
  | error e => exact .error e

theorem Agree.bind_eq {γ : Type} {R : α → β → Prop} {x : Except ε α} {y : Except ε β}
    {f : α → Except ε γ} {g : β → Except ε γ} (h : Agree R x y) (hfg : ∀ a b, R a b → f a = g b) :
    x >>= f = y >>= g := by
  cases h with
  | ok hab => exact hfg _ _ hab
  | error e => rfl

/-! ## The first failure -/

/-- `FirstFault fault l e` says that some members of `l` have faults, and that `e` is a fault of the
first of these. -/
def FirstFault (fault : α → ε → Prop) (l : List α) (e : ε) : Prop :=
  ∃ before x after, l = before ++ x :: after ∧ (∀ y ∈ before, ∀ d, ¬ fault y d) ∧ fault x e

variable {fault fault' : α → ε → Prop} {l m : List α} {x : α} {e : ε}

@[simp] theorem not_firstFault_nil : ¬ FirstFault fault [] e := by
  rintro ⟨before, x, after, h, -⟩
  simp at h

theorem firstFault_cons_iff :
    FirstFault fault (x :: l) e ↔ fault x e ∨ (∀ d, ¬ fault x d) ∧ FirstFault fault l e := by
  constructor
  · rintro ⟨before, y, after, hl, hbefore, hy⟩
    cases before with
    | nil =>
        cases hl
        exact .inl hy
    | cons z before =>
        cases hl
        rw [List.forall_mem_cons] at hbefore
        exact .inr ⟨hbefore.1, before, y, after, rfl, hbefore.2, hy⟩
  · rintro (hx | ⟨hx, before, y, after, rfl, hbefore, hy⟩)
    · exact ⟨[], x, l, rfl, by simp, hx⟩
    · exact ⟨x :: before, y, after, rfl, List.forall_mem_cons.2 ⟨hx, hbefore⟩, hy⟩

theorem exists_firstFault_iff : (∃ e, FirstFault fault l e) ↔ ∃ x ∈ l, ∃ e, fault x e := by
  induction l with
  | nil => simp
  | cons x l ih =>
      simp only [firstFault_cons_iff, exists_or, exists_and_left, ih, List.exists_mem_cons_iff]
      -- Whether the first member has a fault decides which of the two it is.
      by_cases hx : ∃ d, fault x d
      · simp [hx]
      · simp [not_exists.1 hx]

theorem forall_not_firstFault_iff : (∀ e, ¬ FirstFault fault l e) ↔ ∀ x ∈ l, ∀ e, ¬ fault x e := by
  rw [← not_exists, exists_firstFault_iff]
  simp

theorem firstFault_congr (h : ∀ x ∈ l, ∀ e, fault x e ↔ fault' x e) :
    FirstFault fault l e ↔ FirstFault fault' l e := by
  induction l with
  | nil => simp
  | cons x l ih =>
      rw [List.forall_mem_cons] at h
      simp only [firstFault_cons_iff, h.1, ih h.2]

theorem firstFault_append_iff :
    FirstFault fault (l ++ m) e ↔
      FirstFault fault l e ∨ (∀ d, ¬ FirstFault fault l d) ∧ FirstFault fault m e := by
  induction l with
  | nil => simp
  | cons x l ih =>
      simp only [List.cons_append, firstFault_cons_iff, ih]
      by_cases hx : ∀ d, ¬ fault x d
      · simp [hx]
      · simp [hx]

theorem firstFault_map_iff {γ : Type} {g : γ → α} {l : List γ} :
    FirstFault fault (l.map g) e ↔ FirstFault (fun x => fault (g x)) l e := by
  induction l with
  | nil => simp
  | cons x l ih => simp only [List.map_cons, firstFault_cons_iff, ih]

/-- Of lists that are joined, the first faulty one has the first fault. -/
theorem firstFault_flatMap_iff {γ : Type} {g : γ → List α} {l : List γ} :
    FirstFault fault (l.flatMap g) e ↔ FirstFault (fun x => FirstFault fault (g x)) l e := by
  induction l with
  | nil => simp
  | cons x l ih => rw [List.flatMap_cons, firstFault_append_iff, firstFault_cons_iff, ih]

/-- A list is gone through as far as the first member that fails. -/
theorem mapM_eq_error_iff {f : α → Except ε β} {l : List α} :
    l.mapM f = .error e ↔ FirstFault (fun x e => f x = .error e) l e := by
  induction l with
  | nil => simp [pure, Except.pure]
  | cons x l ih =>
      rw [List.mapM_cons, bind_eq_error_iff, firstFault_cons_iff, ← ih]
      cases f x with
      | error d => simp
      | ok y =>
          simp only [bind_pure_eq_error_iff]
          simp

/-- A computation that fails with the faults of what it is given succeeds with what is without
faults, and then its result is the only one that is right. -/
theorem outcome_of_faults {x : Except ε α} {valid : Prop} {faulty : ε → Prop} {right : α → Prop}
    (hfaulty : ∀ e, x = .error e ↔ faulty e) (hvalid : valid ↔ ∀ e, ¬ faulty e)
    (hright : ∀ a, x = .ok a → right a) (hunique : ∀ a b, right a → right b → a = b) :
    ((∃ a, x = .ok a) ↔ valid) ∧ (∀ a, x = .ok a ↔ valid ∧ right a) ∧
      ∀ e, x = .error e ↔ faulty e := by
  have hok : (∃ a, x = .ok a) ↔ valid := by
    simp only [exists_eq_ok_iff, ne_eq, hfaulty, hvalid]
  refine ⟨hok, fun a => ⟨fun h => ⟨hok.1 ⟨a, h⟩, hright a h⟩, ?_⟩, hfaulty⟩
  rintro ⟨h, ha⟩
  obtain ⟨b, hb⟩ := hok.2 h
  rw [hb, hunique a b ha (hright b hb)]

end RegularLanguages
