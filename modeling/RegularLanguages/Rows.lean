/-!
# Rows

A list of pairs of a state and an entry is put into rows, one for each state, so that the entries
of a state can be looked up without a search.
-/

namespace RegularLanguages

def rowsOf {α : Type} (entries : List (Nat × α)) : Array (List α) :=
  entries.foldr (fun e rows => rows.modify e.1 (e.2 :: ·))
    (Array.replicate (entries.foldr (fun e n => max (e.1 + 1) n) 0) [])

private theorem size_foldr_modify {α : Type} (entries : List (Nat × α)) (rows : Array (List α)) :
    (entries.foldr (fun e rows => rows.modify e.1 (e.2 :: ·)) rows).size = rows.size := by
  induction entries with
  | nil => rfl
  | cons e es ih => rw [List.foldr_cons, Array.size_modify, ih]

private theorem getD_foldr_modify {α : Type} (entries : List (Nat × α)) (rows : Array (List α))
    (h : ∀ e ∈ entries, e.1 < rows.size) (q : Nat) :
    ((entries.foldr (fun e rows => rows.modify e.1 (e.2 :: ·)) rows)[q]?).getD [] =
      (entries.filterMap fun e => if e.1 = q then some e.2 else none) ++ rows[q]?.getD [] := by
  induction entries with
  | nil => rfl
  | cons e es ih =>
    have hes := ih fun d hd => h d (List.mem_cons_of_mem e hd)
    have he : e.1 < (es.foldr (fun e rows => rows.modify e.1 (e.2 :: ·)) rows).size := by
      rw [size_foldr_modify]
      exact h e List.mem_cons_self
    rw [List.foldr_cons, Array.getElem?_modify]
    by_cases heq : e.1 = q
    · subst heq
      rw [if_pos rfl, Array.getElem?_eq_getElem he]
      rw [Array.getElem?_eq_getElem he, Option.getD_some] at hes
      simp [hes]
    · rw [if_neg heq, hes]
      simp [heq]

private theorem lt_foldr_max {α : Type} {entries : List (Nat × α)} {e : Nat × α} (h : e ∈ entries) :
    e.1 < entries.foldr (fun e n => max (e.1 + 1) n) 0 := by
  induction entries with
  | nil => exact absurd h List.not_mem_nil
  | cons d es ih =>
    rw [List.foldr_cons]
    rcases List.mem_cons.1 h with rfl | h
    · omega
    · have := ih h
      omega

theorem getD_rowsOf {α : Type} (entries : List (Nat × α)) (q : Nat) :
    (rowsOf entries)[q]?.getD [] =
      entries.filterMap fun e => if e.1 = q then some e.2 else none := by
  rw [rowsOf, getD_foldr_modify]
  · rw [Array.getElem?_replicate]
    split <;> simp
  · intro e he
    rw [Array.size_replicate]
    exact lt_foldr_max he

end RegularLanguages
