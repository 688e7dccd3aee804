import RegularLanguages.Key

/-!
# Finite maps as ascending lists of entries

A `SortedMap` lists one entry for each of its keys, in the order of the keys. Maps that look up
alike are equal structures (`SortedMap.ext`).
-/

namespace RegularLanguages

structure SortedMap (κ α : Type) [Key κ] where
  toList : List (κ × α)
  ascending : toList.Pairwise (fun a b => Key.before a.1 b.1 = true)

namespace SortedMap

variable {κ α : Type} [Key κ]

/-- Puts an entry at its place in an ascending list, where it replaces the entry of its key. -/
def place (k : κ) (v : α) : List (κ × α) → List (κ × α)
  | [] => [(k, v)]
  | e :: es =>
    if Key.before k e.1 then (k, v) :: e :: es
    else if Key.before e.1 k then e :: place k v es
    else (k, v) :: es

theorem mem_place {k : κ} {v : α} {e : κ × α} {l : List (κ × α)} (h : e ∈ place k v l) :
    e = (k, v) ∨ e ∈ l := by
  induction l with
  | nil => exact .inl (List.mem_singleton.1 h)
  | cons d ds ih =>
    unfold place at h
    split at h
    · exact List.mem_cons.1 h
    · split at h
      · rcases List.mem_cons.1 h with rfl | h
        · exact .inr List.mem_cons_self
        · exact (ih h).imp_right (List.mem_cons_of_mem d)
      · exact (List.mem_cons.1 h).imp_right (List.mem_cons_of_mem d)

theorem ascending_place (k : κ) (v : α) {l : List (κ × α)}
    (h : l.Pairwise (fun a b => Key.before a.1 b.1 = true)) :
    (place k v l).Pairwise (fun a b => Key.before a.1 b.1 = true) := by
  induction l with
  | nil => simp [place]
  | cons e es ih =>
    have hes := List.pairwise_cons.1 h
    unfold place
    split
    · rename_i hke
      refine List.pairwise_cons.2 ⟨fun d hd => ?_, h⟩
      rcases List.mem_cons.1 hd with rfl | hd
      · exact hke
      · exact Key.before_trans hke (hes.1 d hd)
    · split
      · rename_i hek
        refine List.pairwise_cons.2 ⟨fun d hd => ?_, ih hes.2⟩
        rcases mem_place hd with rfl | hd
        · exact hek
        · exact hes.1 d hd
      · rename_i hke hek
        have hk : k = e.1 := Key.eq_of_not_before (by simpa using hke) (by simpa using hek)
        subst hk
        exact List.pairwise_cons.2 hes

instance [DecidableEq κ] [DecidableEq α] : DecidableEq (SortedMap κ α)
  | ⟨a, ha⟩, ⟨b, hb⟩ =>
    if h : a = b then isTrue (by subst h; rfl) else isFalse fun e => h (congrArg toList e)

def empty : SortedMap κ α := ⟨[], List.Pairwise.nil⟩

instance : EmptyCollection (SortedMap κ α) := ⟨empty⟩

instance : Inhabited (SortedMap κ α) := ⟨empty⟩

def set (m : SortedMap κ α) (k : κ) (v : α) : SortedMap κ α :=
  ⟨place k v m.toList, ascending_place k v m.ascending⟩

/-- The map of a list of entries; of two with one key the earlier counts. -/
def ofList (l : List (κ × α)) : SortedMap κ α := l.foldr (fun e m => m.set e.1 e.2) empty

def find? [DecidableEq κ] (k : κ) : List (κ × α) → Option α
  | [] => none
  | e :: es => if e.1 = k then some e.2 else find? k es

def get? [DecidableEq κ] (m : SortedMap κ α) (k : κ) : Option α := find? k m.toList

def filter (p : κ → α → Bool) (m : SortedMap κ α) : SortedMap κ α :=
  ⟨m.toList.filter fun e => p e.1 e.2, m.ascending.filter _⟩

def erase [DecidableEq κ] (m : SortedMap κ α) (k : κ) : SortedMap κ α :=
  m.filter fun k' _ => !decide (k' = k)

def keys (m : SortedMap κ α) : List κ := m.toList.map (·.1)

/-! ## Look-ups -/

section Lookup

variable [DecidableEq κ]

theorem find?_eq_some_iff {k : κ} {v : α} {l : List (κ × α)}
    (h : l.Pairwise (fun a b => Key.before a.1 b.1 = true)) : find? k l = some v ↔ (k, v) ∈ l := by
  induction l with
  | nil => simp [find?]
  | cons e es ih =>
    rw [List.pairwise_cons] at h
    unfold find?
    split
    · rename_i hek
      constructor
      · intro hv
        rw [← Option.some.inj hv, ← hek]
        exact List.mem_cons_self
      · intro hv
        rcases List.mem_cons.1 hv with hv | hv
        · rw [← hv]
        · exact absurd hek (Key.ne_of_before (h.1 _ hv))
    · rename_i hek
      rw [ih h.2, List.mem_cons]
      exact (or_iff_right fun hv => hek (by rw [← hv])).symm

omit [Key κ] in
theorem find?_eq_some_iff_of_unique {k : κ} {l : List (κ × α)}
    (h : ∀ u v, (k, u) ∈ l → (k, v) ∈ l → u = v) {v : α} :
    find? k l = some v ↔ (k, v) ∈ l := by
  induction l with
  | nil => simp [find?]
  | cons e es ih =>
    unfold find?
    split
    · rename_i hek
      subst hek
      rw [Option.some.injEq]
      constructor
      · rintro rfl
        exact List.mem_cons_self
      · exact fun hv => h _ _ List.mem_cons_self hv
    · rename_i hek
      rw [ih fun u v hu hv => h u v (List.mem_cons_of_mem e hu) (List.mem_cons_of_mem e hv),
        List.mem_cons]
      exact (or_iff_right fun hv => hek (by rw [← hv])).symm

theorem get?_eq_some_iff {m : SortedMap κ α} {k : κ} {v : α} :
    m.get? k = some v ↔ (k, v) ∈ m.toList :=
  find?_eq_some_iff m.ascending

@[simp] theorem get?_empty (k : κ) : (∅ : SortedMap κ α).get? k = none := rfl

theorem find?_place (k k' : κ) (v : α) (l : List (κ × α)) :
    find? k' (place k v l) = if k = k' then some v else find? k' l := by
  induction l with
  | nil => simp [place, find?]
  | cons e es ih =>
    unfold place
    split
    · simp [find?]
    · split
      · rename_i hek
        by_cases h : k = k'
        · subst h
          have : e.1 ≠ k := Key.ne_of_before hek
          simp [find?, this, ih]
        · simp [find?, ih, h]
      · rename_i hke hek
        have hk : k = e.1 := Key.eq_of_not_before (by simpa using hke) (by simpa using hek)
        subst hk
        by_cases h : e.1 = k' <;> simp [find?, h]

theorem get?_set (m : SortedMap κ α) (k k' : κ) (v : α) :
    (m.set k v).get? k' = if k = k' then some v else m.get? k' := find?_place k k' v m.toList

theorem get?_ofList (l : List (κ × α)) (k : κ) : (ofList l).get? k = find? k l := by
  induction l with
  | nil => rfl
  | cons e es ih =>
    rw [show ofList (e :: es) = (ofList es).set e.1 e.2 from rfl, get?_set, ih]
    rfl

theorem get?_filter {m : SortedMap κ α} {p : κ → α → Bool} {k : κ} {v : α} :
    (m.filter p).get? k = some v ↔ m.get? k = some v ∧ p k v = true := by
  rw [get?_eq_some_iff, get?_eq_some_iff]
  exact List.mem_filter

theorem get?_erase (m : SortedMap κ α) (k k' : κ) :
    (m.erase k).get? k' = if k = k' then none else m.get? k' := by
  ext v
  rw [erase, get?_filter]
  by_cases h : k = k'
  · simp [h]
  · simp [h, Ne.symm h]

end Lookup

theorem ext_toList {m n : SortedMap κ α} (h : m.toList = n.toList) : m = n := by
  cases m
  cases n
  cases h
  rfl

theorem ext [DecidableEq κ] {m n : SortedMap κ α} (h : ∀ k, m.get? k = n.get? k) : m = n :=
  ext_toList <| Key.eq_of_pairwise_of_mem_iff (fun _ _ => Key.not_before_of_before)
    m.ascending n.ascending
    fun ⟨k, v⟩ => by rw [← get?_eq_some_iff, ← get?_eq_some_iff, h]

end SortedMap

end RegularLanguages
