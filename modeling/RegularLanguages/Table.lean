import RegularLanguages.Index

/-!
# Tables in the order of writing

A table has one value for each of its keys and keeps the keys in the order in which they were
entered first.
-/

namespace RegularLanguages

structure Table (α : Type) where
  toList : List (String × α)
  nodup : (toList.map (·.1)).Nodup

namespace Table

variable {α : Type}

/-- Gives a key a value: in its place if the list has it, else at the end. -/
def enter (key : String) (value : α) : List (String × α) → List (String × α)
  | [] => [(key, value)]
  | e :: es => if e.1 = key then (key, value) :: es else e :: enter key value es

theorem mem_map_enter {key k : String} {value : α} {l : List (String × α)} :
    k ∈ (enter key value l).map (·.1) ↔ k = key ∨ k ∈ l.map (·.1) := by
  induction l with
  | nil => simp [enter]
  | cons e es ih =>
    unfold enter
    split
    · rename_i h
      simp [h]
    · rw [List.map_cons, List.mem_cons, ih, List.map_cons, List.mem_cons]
      exact or_left_comm

theorem nodup_enter (key : String) (value : α) {l : List (String × α)} (h : (l.map (·.1)).Nodup) :
    ((enter key value l).map (·.1)).Nodup := by
  induction l with
  | nil => simp [enter]
  | cons e es ih =>
    rw [List.map_cons, List.nodup_cons] at h
    unfold enter
    split
    · rename_i hkey
      rw [List.map_cons, List.nodup_cons]
      exact hkey ▸ h
    · rename_i hkey
      rw [List.map_cons, List.nodup_cons]
      exact ⟨fun hmem => (mem_map_enter.1 hmem).elim hkey h.1, ih h.2⟩

def empty : Table α := ⟨[], List.nodup_nil⟩

instance : Inhabited (Table α) := ⟨empty⟩

instance [DecidableEq α] : DecidableEq (Table α)
  | ⟨a, ha⟩, ⟨b, hb⟩ =>
    if h : a = b then isTrue (by subst h; rfl) else isFalse fun e => h (congrArg toList e)

def insert (t : Table α) (key : String) (value : α) : Table α :=
  ⟨enter key value t.toList, nodup_enter key value t.nodup⟩

/-- The table of a list of entries: of a repeated key the first place and the last value count. -/
def ofList (entries : List (String × α)) : Table α :=
  if h : KeySet.distinct ∅ (entries.map (·.1)) = true then ⟨entries, (KeySet.nodup_of_distinct h).1⟩
  else entries.foldl (fun t e => t.insert e.1 e.2) empty

theorem enter_of_not_mem {key : String} {value : α} {l : List (String × α)}
    (h : key ∉ l.map (·.1)) :
    enter key value l = l ++ [(key, value)] := by
  induction l with
  | nil => rfl
  | cons e es ih =>
    rw [List.map_cons, List.mem_cons, not_or] at h
    rw [enter, if_neg (Ne.symm h.1), ih h.2, List.cons_append]

private theorem toList_foldl_insert {entries : List (String × α)} {t : Table α}
    (h : (t.toList.map (·.1) ++ entries.map (·.1)).Nodup) :
    (entries.foldl (fun t e => t.insert e.1 e.2) t).toList = t.toList ++ entries := by
  induction entries generalizing t with
  | nil => simp
  | cons e es ih =>
    have hmem : e.1 ∉ t.toList.map (·.1) := fun hm =>
      (List.nodup_append.1 h).2.2 _ hm _ List.mem_cons_self rfl
    have hins : (t.insert e.1 e.2).toList = t.toList ++ [e] := enter_of_not_mem hmem
    rw [List.foldl_cons, ih, hins, List.append_assoc, List.singleton_append]
    rw [hins]
    simpa using h

theorem ofList_eq_foldl (entries : List (String × α)) :
    ofList entries = entries.foldl (fun t e => t.insert e.1 e.2) empty := by
  unfold ofList
  split
  · rename_i h
    have hl := toList_foldl_insert (t := empty)
        (by simpa [empty] using (KeySet.nodup_of_distinct h).1)
    cases ht : entries.foldl (fun t e => t.insert e.1 e.2) empty
    rw [ht] at hl
    cases hl
    rfl
  · rfl

theorem toList_ofList {entries : List (String × α)} (h : (entries.map (·.1)).Nodup) :
    (ofList entries).toList = entries := by
  rw [ofList_eq_foldl, toList_foldl_insert]
  · rfl
  · exact h

theorem ofList_toList (t : Table α) : ofList t.toList = t := by
  have h := toList_ofList t.nodup
  cases t
  cases hl : ofList _
  rw [hl] at h
  cases h
  rfl

def keys (t : Table α) : List String := t.toList.map (·.1)

end Table

end RegularLanguages
