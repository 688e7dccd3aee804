import Std.Data.TreeMap
import Std.Data.TreeSet
import RegularLanguages.Key

/-!
# Places in a list

An `Index` tells where the values of a list stand in it, without going through the list. The values
are keys, kept in a search tree in their order. `place?_ofList` says that the place is that of the
first occurrence.
-/

namespace RegularLanguages

namespace Key

variable {κ : Type} [Key κ]

def compare (a b : κ) : Ordering := if before a b then .lt else if before b a then .gt else .eq

theorem compare_eq_eq_iff {a b : κ} : compare a b = .eq ↔ a = b := by
  unfold compare
  constructor
  · intro h
    split at h
    · cases h
    · split at h
      · cases h
      · rename_i hab hba
        exact eq_of_not_before (by simpa using hab) (by simpa using hba)
  · rintro rfl
    simp [before_irrefl]

theorem isLE_compare_iff {a b : κ} : (compare a b).isLE = true ↔ before b a = false := by
  unfold compare
  split
  · rename_i h
    simp [not_before_of_before h]
  · split <;> simp_all

theorem swap_compare (a b : κ) : (compare a b).swap = compare b a := by
  unfold compare
  by_cases hab : before a b = true
  · simp [hab, not_before_of_before hab]
  · by_cases hba : before b a = true <;> simp [hab, hba]

instance : Std.TransCmp (compare : κ → κ → Ordering) where
  eq_swap := (swap_compare _ _).symm
  isLE_trans {a b c} hab hbc := by
    rw [isLE_compare_iff] at *
    cases hca : before c a with
    | false => rfl
    | true =>
      by_cases h : before a b = true
      · exact absurd (before_trans hca h) (by simp [hbc])
      · have heq : a = b := eq_of_not_before (by simpa using h) hab
        subst heq
        rw [hbc] at hca
        cases hca

instance : Std.LawfulEqCmp (compare : κ → κ → Ordering) where
  compare_self := compare_eq_eq_iff.2 rfl
  eq_of_compare := compare_eq_eq_iff.1

end Key

abbrev KeySet (κ : Type) [Key κ] : Type := Std.TreeSet κ Key.compare

/-- Whether the keys of a list differ from each other and from those of a set. -/
def KeySet.distinct {κ : Type} [Key κ] (known : KeySet κ) : List κ → Bool
  | [] => true
  | x :: xs => !known.contains x && distinct (known.insert x) xs

theorem KeySet.contains_insert_iff {κ : Type} [Key κ] {s : KeySet κ} {x y : κ} :
    (s.insert x).contains y = true ↔ y = x ∨ s.contains y = true := by
  rw [Std.TreeSet.contains_insert, Bool.or_eq_true, beq_iff_eq, Key.compare_eq_eq_iff]
  exact or_congr_left eq_comm

theorem KeySet.nodup_of_distinct {κ : Type} [Key κ] {known : KeySet κ} {l : List κ}
    (h : known.distinct l = true) : l.Nodup ∧ ∀ x ∈ l, known.contains x = false := by
  induction l generalizing known with
  | nil => exact ⟨List.nodup_nil, fun x hx => absurd hx List.not_mem_nil⟩
  | cons y ys ih =>
    rw [distinct, Bool.and_eq_true, Bool.not_eq_true'] at h
    have hys := ih h.2
    refine ⟨List.nodup_cons.2 ⟨fun hy => ?_, hys.1⟩, fun x hx => ?_⟩
    · have hc := hys.2 y hy
      rw [contains_insert_iff.2 (.inl rfl)] at hc
      cases hc
    · rcases List.mem_cons.1 hx with rfl | hx
      · exact h.1
      · cases hc : known.contains x with
        | false => rfl
        | true =>
          have hn := hys.2 x hx
          rw [contains_insert_iff.2 (.inr hc)] at hn
          cases hn

structure Index (κ : Type) [Key κ] where
  places : Std.TreeMap κ Nat Key.compare
  size : Nat

namespace Index

variable {κ : Type} [Key κ]

def ofList (l : List κ) : Index κ :=
  ⟨l.zipIdx.foldr (fun e places => places.insert e.1 e.2) ∅, l.length⟩

def place? (index : Index κ) (x : κ) : Option Nat := index.places[x]?

def place (index : Index κ) (x : κ) : Nat := (index.place? x).getD index.size

private theorem getElem?_foldr_insert [DecidableEq κ] (l : List κ) (k : Nat) (x : κ) :
    ((l.zipIdx k).foldr (fun e places => Std.TreeMap.insert places e.1 e.2)
      (∅ : Std.TreeMap κ Nat Key.compare))[x]? = (l.idxOf? x).map (k + ·) := by
  induction l generalizing k with
  | nil => simp
  | cons y ys ih =>
    rw [List.zipIdx_cons, List.foldr_cons, Std.TreeMap.getElem?_insert, ih, List.idxOf?_cons]
    by_cases h : y = x
    · simp [h]
    · have hne : ¬ Key.compare y x = .eq := fun hc => h (Key.compare_eq_eq_iff.1 hc)
      simp only [hne, if_false, beq_iff_eq, h, Option.map_map]
      cases ys.idxOf? x <;> simp
      omega

/-- A value has the place at which the list holds it first. -/
theorem place?_ofList [DecidableEq κ] (l : List κ) (x : κ) : (ofList l).place? x = l.idxOf? x := by
  rw [place?, ofList, getElem?_foldr_insert]
  simp

theorem place_ofList [DecidableEq κ] (l : List κ) (x : κ) : (ofList l).place x = l.idxOf x := by
  rw [place, place?_ofList, ofList]
  induction l with
  | nil => rfl
  | cons y ys ih =>
    rw [List.idxOf?_cons, List.idxOf_cons, ← ih]
    by_cases h : y = x
    · simp [h]
    · simp only [beq_eq_false_iff_ne.2 h, cond_false, List.length_cons]
      cases ys.idxOf? x <;> rfl

end Index

end RegularLanguages
