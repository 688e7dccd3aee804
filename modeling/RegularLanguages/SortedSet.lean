import RegularLanguages.Key

/-!
# Finite sets as ascending lists

A `SortedSet` lists its members once each, in the order of their keys. Equal sets are equal
structures (`SortedSet.ext`), so a set can itself serve as a key, whatever insertions and removals
it came from.
-/

namespace RegularLanguages

structure SortedSet (κ : Type) [Key κ] where
  toList : List κ
  ascending : toList.Pairwise (fun a b => Key.before a b = true)

namespace SortedSet

variable {κ : Type} [Key κ]

/-- Puts a key at its place in an ascending list, which keeps one copy of it. -/
def place (x : κ) : List κ → List κ
  | [] => [x]
  | y :: ys =>
    if Key.before x y then x :: y :: ys
    else if Key.before y x then y :: place x ys
    else y :: ys

theorem mem_place {x z : κ} {l : List κ} : z ∈ place x l ↔ z = x ∨ z ∈ l := by
  induction l with
  | nil => simp [place]
  | cons y ys ih =>
    unfold place
    split
    · simp
    · split
      · rw [List.mem_cons, ih, List.mem_cons]
        exact or_left_comm
      · have hxy : x = y := Key.eq_of_not_before (by simpa using ‹¬ Key.before x y = true›)
          (by simpa using ‹¬ Key.before y x = true›)
        simp [hxy]

theorem ascending_place (x : κ) {l : List κ} (h : l.Pairwise (fun a b => Key.before a b = true)) :
    (place x l).Pairwise (fun a b => Key.before a b = true) := by
  induction l with
  | nil => simp [place]
  | cons y ys ih =>
    rw [List.pairwise_cons] at h
    unfold place
    split
    · rename_i hxy
      refine List.pairwise_cons.2 ⟨fun z hz => ?_, List.pairwise_cons.2 h⟩
      rcases List.mem_cons.1 hz with rfl | hz
      · exact hxy
      · exact Key.before_trans hxy (h.1 z hz)
    · split
      · rename_i hyx
        refine List.pairwise_cons.2 ⟨fun z hz => ?_, ih h.2⟩
        rcases mem_place.1 hz with rfl | hz
        · exact hyx
        · exact h.1 z hz
      · exact List.pairwise_cons.2 h

/-- Puts a key before the merge of the later keys with a list, or after keys of the list that stand
before it. -/
def mergeKey (x : κ) (mergeLater : List κ → List κ) : List κ → List κ
  | [] => x :: mergeLater []
  | y :: ys =>
    if Key.before x y then x :: mergeLater (y :: ys)
    else if Key.before y x then y :: mergeKey x mergeLater ys
    else x :: mergeLater ys

def merge : List κ → List κ → List κ
  | [] => fun ys => ys
  | x :: xs => mergeKey x (merge xs)

theorem mem_mergeKey {x z : κ} {xs : List κ} {mergeLater : List κ → List κ} {ys : List κ}
    (h : ∀ zs, z ∈ mergeLater zs ↔ z ∈ xs ∨ z ∈ zs) :
    z ∈ mergeKey x mergeLater ys ↔ z ∈ x :: xs ∨ z ∈ ys := by
  induction ys with
  | nil => simp [mergeKey, h]
  | cons y ys ih =>
    unfold mergeKey
    split
    · simp only [List.mem_cons, h, or_assoc]
    · split
      · simp only [List.mem_cons, ih]
        exact or_left_comm
      · have hxy : x = y := Key.eq_of_not_before (by simpa using ‹¬ Key.before x y = true›)
          (by simpa using ‹¬ Key.before y x = true›)
        subst hxy
        rw [List.mem_cons, h, List.mem_cons, List.mem_cons]
        exact ⟨fun hz => hz.elim (fun e => .inl (.inl e)) (fun hz => hz.imp .inr .inr),
          fun hz => hz.elim (fun hz => hz.imp_right .inl) (fun hz => hz.imp_right .inr)⟩

theorem mem_merge {z : κ} {xs ys : List κ} : z ∈ merge xs ys ↔ z ∈ xs ∨ z ∈ ys := by
  induction xs generalizing ys with
  | nil => simp [merge]
  | cons x xs ih => exact mem_mergeKey fun zs => ih

theorem ascending_mergeKey {x : κ} {xs ys : List κ}
    (hxs : (x :: xs).Pairwise (fun a b => Key.before a b = true))
    (hys : ys.Pairwise (fun a b => Key.before a b = true))
    (h : ∀ zs : List κ, zs.Pairwise (fun a b => Key.before a b = true) →
      (merge xs zs).Pairwise (fun a b => Key.before a b = true)) :
    (mergeKey x (merge xs) ys).Pairwise (fun a b => Key.before a b = true) := by
  have hx := (List.pairwise_cons.1 hxs).1
  induction ys with
  | nil =>
    refine List.pairwise_cons.2 ⟨fun z hz => ?_, h [] List.Pairwise.nil⟩
    exact hx z ((mem_merge.1 hz).resolve_right List.not_mem_nil)
  | cons y ys ih =>
    have hy := List.pairwise_cons.1 hys
    unfold mergeKey
    split
    · rename_i hxy
      refine List.pairwise_cons.2 ⟨fun z hz => ?_, h _ hys⟩
      rcases mem_merge.1 hz with hz | hz
      · exact hx z hz
      · rcases List.mem_cons.1 hz with rfl | hz
        · exact hxy
        · exact Key.before_trans hxy (hy.1 z hz)
    · split
      · rename_i hyx
        refine List.pairwise_cons.2 ⟨fun z hz => ?_, ih hy.2⟩
        have hmem : z ∈ mergeKey x (merge xs) ys ↔ z ∈ x :: xs ∨ z ∈ ys :=
          mem_mergeKey fun _ => mem_merge
        rcases hmem.1 hz with hz | hz
        · rcases List.mem_cons.1 hz with rfl | hz
          · exact hyx
          · exact Key.before_trans hyx (hx z hz)
        · exact hy.1 z hz
      · rename_i hxy hyx
        have heq : x = y := Key.eq_of_not_before (by simpa using hxy) (by simpa using hyx)
        subst heq
        refine List.pairwise_cons.2 ⟨fun z hz => ?_, h _ hy.2⟩
        exact (mem_merge.1 hz).elim (hx z) (hy.1 z)

theorem ascending_merge {xs ys : List κ} (hxs : xs.Pairwise (fun a b => Key.before a b = true))
    (hys : ys.Pairwise (fun a b => Key.before a b = true)) :
    (merge xs ys).Pairwise (fun a b => Key.before a b = true) := by
  induction xs generalizing ys with
  | nil => exact hys
  | cons x xs ih =>
    exact ascending_mergeKey hxs hys fun zs hzs => ih (List.pairwise_cons.1 hxs).2 hzs

instance : Membership κ (SortedSet κ) where
  mem s x := x ∈ s.toList

instance [DecidableEq κ] (x : κ) (s : SortedSet κ) : Decidable (x ∈ s) :=
  List.instDecidableMemOfLawfulBEq x s.toList

theorem mem_toList {x : κ} {s : SortedSet κ} : x ∈ s.toList ↔ x ∈ s := Iff.rfl

instance [DecidableEq κ] : DecidableEq (SortedSet κ)
  | ⟨a, ha⟩, ⟨b, hb⟩ =>
    if h : a = b then isTrue (by subst h; rfl) else isFalse fun e => h (congrArg toList e)

def empty : SortedSet κ := ⟨[], List.Pairwise.nil⟩

instance : EmptyCollection (SortedSet κ) := ⟨empty⟩

instance : Inhabited (SortedSet κ) := ⟨empty⟩

def insert (x : κ) (s : SortedSet κ) : SortedSet κ :=
  ⟨place x s.toList, ascending_place x s.ascending⟩

def singleton (x : κ) : SortedSet κ := insert x empty

def filter (p : κ → Bool) (s : SortedSet κ) : SortedSet κ :=
  ⟨s.toList.filter p, s.ascending.filter p⟩

def union (s t : SortedSet κ) : SortedSet κ :=
  ⟨merge s.toList t.toList, ascending_merge s.ascending t.ascending⟩

instance : Union (SortedSet κ) := ⟨union⟩

def joinPairs : List (SortedSet κ) → List (SortedSet κ)
  | s :: t :: rest => (s ∪ t) :: joinPairs rest
  | l => l

/-- Unites the sets of a list, by twos as many times as the number says, and then the rest one by
one. -/
def joinAll : Nat → List (SortedSet κ) → SortedSet κ
  | 0, l => l.foldr union empty
  | k + 1, l => joinAll k (joinPairs l)

def ofList (l : List κ) : SortedSet κ := joinAll (l.length.log2 + 1) (l.map singleton)

def size (s : SortedSet κ) : Nat := s.toList.length

def image {ι : Type} [Key ι] (f : κ → ι) (s : SortedSet κ) : SortedSet ι := ofList (s.toList.map f)

/-! ## Members -/

@[simp] theorem not_mem_empty (x : κ) : x ∉ (∅ : SortedSet κ) := List.not_mem_nil

@[simp] theorem mem_insert {x z : κ} {s : SortedSet κ} : z ∈ insert x s ↔ z = x ∨ z ∈ s := mem_place

@[simp] theorem mem_singleton {x z : κ} : z ∈ singleton x ↔ z = x := by
  rw [singleton, mem_insert]
  exact or_iff_left (not_mem_empty z)

@[simp] theorem mem_union {z : κ} {s t : SortedSet κ} : z ∈ s ∪ t ↔ z ∈ s ∨ z ∈ t := mem_merge

theorem mem_joinPairs {z : κ} {l : List (SortedSet κ)} :
    (∃ s ∈ joinPairs l, z ∈ s) ↔ ∃ s ∈ l, z ∈ s := by
  fun_induction joinPairs l with
  | case1 s t rest ih => simp [ih, or_assoc]
  | case2 l => exact Iff.rfl

theorem mem_joinAll {z : κ} {k : Nat} {l : List (SortedSet κ)} :
    z ∈ joinAll k l ↔ ∃ s ∈ l, z ∈ s := by
  induction k generalizing l with
  | zero =>
    induction l with
    | nil => exact iff_of_false (not_mem_empty z) (by simp)
    | cons s l ih =>
      rw [show joinAll 0 (s :: l) = s ∪ joinAll 0 l from rfl, mem_union, ih]
      simp
  | succ k ih => rw [joinAll, ih, mem_joinPairs]

@[simp] theorem mem_ofList {z : κ} {l : List κ} : z ∈ ofList l ↔ z ∈ l := by
  rw [ofList, mem_joinAll]
  constructor
  · rintro ⟨s, hs, hz⟩
    obtain ⟨x, hx, rfl⟩ := List.mem_map.1 hs
    exact mem_singleton.1 hz ▸ hx
  · intro hz
    exact ⟨singleton z, List.mem_map.2 ⟨z, hz, rfl⟩, mem_singleton.2 rfl⟩

@[simp] theorem mem_filter {z : κ} {p : κ → Bool} {s : SortedSet κ} :
    z ∈ s.filter p ↔ z ∈ s ∧ p z = true :=
  List.mem_filter

@[simp] theorem mem_image {ι : Type} [Key ι] {f : κ → ι} {z : ι} {s : SortedSet κ} :
    z ∈ s.image f ↔ ∃ x ∈ s, f x = z := by
  rw [image, mem_ofList, List.mem_map]
  rfl

theorem ext_toList {s t : SortedSet κ} (h : s.toList = t.toList) : s = t := by
  cases s
  cases t
  cases h
  rfl

@[ext] theorem ext {s t : SortedSet κ} (h : ∀ x, x ∈ s ↔ x ∈ t) : s = t :=
  ext_toList <|
    Key.eq_of_pairwise_of_mem_iff (fun _ _ => Key.not_before_of_before) s.ascending t.ascending h

end SortedSet

end RegularLanguages
