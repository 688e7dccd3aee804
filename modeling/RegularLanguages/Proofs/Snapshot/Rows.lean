import Mathlib.Data.List.Basic
import RegularLanguages.Proofs.LabelTable
import RegularLanguages.Proofs.Outcome
import RegularLanguages.Proofs.Places
import RegularLanguages.Rows
import RegularLanguages.SortedMap
import RegularLanguages.Table

/-!
# Rows of snapshots

A snapshot gives each state a row with what leads away from it. Here are the row of a state in a
map from pairs (`SortedMap.row`), and the entries of a table that is read row by row: the first
fault among them is that of the table (`Table.mapM_rows_eq_error_iff`).
-/

namespace RegularLanguages

/-! ## Rows of maps -/

namespace SortedMap

variable {κ α : Type} [Key κ] {m : SortedMap (Nat × κ) α} {q : Nat} {k : κ} {v : α}

def row (m : SortedMap (Nat × κ) α) (q : Nat) : List (κ × α) :=
  m.toList.filterMap fun e => if e.1.1 = q then some (e.1.2, e.2) else none

theorem getD_rowsOf_toList (m : SortedMap (Nat × κ) α) (q : Nat) :
    (rowsOf (m.toList.map fun e => (e.1.1, e.1.2, e.2)))[q]?.getD [] = m.row q := by
  rw [getD_rowsOf, List.filterMap_map]
  rfl

theorem mem_row : (k, v) ∈ m.row q ↔ ((q, k), v) ∈ m.toList := by
  unfold row
  rw [List.mem_filterMap]
  constructor
  · rintro ⟨e, he, heq⟩
    by_cases hq : e.1.1 = q
    · rw [if_pos hq, Option.some.injEq, Prod.mk.injEq] at heq
      rw [← hq, ← heq.1, ← heq.2]
      exact he
    · simp [hq] at heq
  · intro he
    exact ⟨_, he, if_pos rfl⟩

theorem nodup_keys_row (m : SortedMap (Nat × κ) α) (q : Nat) : ((m.row q).map (·.1)).Nodup := by
  rw [List.Nodup, List.pairwise_map, row, List.pairwise_filterMap]
  refine m.ascending.imp ?_
  intro d e hde x hx y hy hxy
  have hne := Key.ne_of_before hde
  by_cases hd : d.1.1 = q
  · by_cases he : e.1.1 = q
    · simp only [hd, he, if_true, Option.some.injEq] at hx hy
      subst hx hy
      exact hne (Prod.ext (hd.trans he.symm) hxy)
    · simp [he] at hy
  · simp [hd] at hx

end SortedMap

/-! ## Entries of tables -/

namespace Table

variable {α β ε : Type}

theorem value_unique {t : Table α} {key : String} {v w : α} (hv : (key, v) ∈ t.toList)
    (hw : (key, w) ∈ t.toList) : v = w :=
  (Prod.ext_iff.1 (List.inj_on_of_nodup_map t.nodup hv hw rfl)).2

/-- A value in a table of rows, with the state of its row and its key there. -/
structure Entry (α : Type) where
  state : String
  key : String
  value : α

def entries (t : Table (Table α)) : List (Entry α) :=
  t.toList.flatMap fun (state, row) => row.toList.map fun (key, v) => ⟨state, key, v⟩

variable {t : Table (Table α)} {d e : Entry α}

theorem mem_entries :
    e ∈ t.entries ↔ ∃ row, (e.state, row) ∈ t.toList ∧ (e.key, e.value) ∈ row.toList := by
  simp only [entries, List.mem_flatMap, List.mem_map, Prod.exists]
  constructor
  · rintro ⟨state, row, hrow, key, v, hv, rfl⟩
    exact ⟨row, hrow, hv⟩
  · rintro ⟨row, hrow, hv⟩
    exact ⟨e.state, row, hrow, e.key, e.value, hv, rfl⟩

theorem entry_unique (hd : d ∈ t.entries) (he : e ∈ t.entries) (hstate : d.state = e.state)
    (hkey : d.key = e.key) : d = e := by
  obtain ⟨row, hrow, hv⟩ := mem_entries.1 hd
  obtain ⟨row', hrow', hw⟩ := mem_entries.1 he
  rw [hstate] at hrow
  rw [value_unique hrow hrow', hkey] at hv
  have hvalue := value_unique hv hw
  cases d
  cases e
  simp_all

/-- If rows fail with the first fault of their entries, so does the table. -/
theorem mapM_rows_eq_error_iff {f : String × Table α → Except ε β} {fault : Entry α → ε → Prop}
    (h : ∀ state row, (state, row) ∈ t.toList → ∀ x,
      f (state, row) = .error x ↔ FirstFault (fun (key, v) => fault ⟨state, key, v⟩) row.toList x)
    {x : ε} : t.toList.mapM f = .error x ↔ FirstFault fault t.entries x := by
  rw [mapM_eq_error_iff, entries, firstFault_flatMap_iff]
  apply firstFault_congr
  rintro ⟨state, row⟩ hrow x
  rw [h state row hrow, firstFault_map_iff]

end Table

end RegularLanguages
