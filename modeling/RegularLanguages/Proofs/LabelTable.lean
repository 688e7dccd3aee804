import Mathlib.Data.List.Nodup
import RegularLanguages.LabelTable

/-!
# Labels tell states apart

However labels are entered, no label is entered twice: `intern` leaves a label out that is in use,
and `internFresh` adds primes to it. As a table holds fewer labels than there are ways to prime
one, some way is unused (`fresh_not_mem`). In a table of different labels, a label leads back to
its state (`id?_eq_some_iff`).
-/

namespace RegularLanguages.LabelTable

variable {t : LabelTable} {label : String} {labels : List String} {q : Nat}

/-! ## Looking labels up -/

theorem uses_eq_true_iff : t.uses label = true ↔ label ∈ t.toList := by
  rw [uses, id?, List.isSome_idxOf?]

theorem uses_eq_false_iff : t.uses label = false ↔ label ∉ t.toList := by
  rw [← Bool.not_eq_true, uses_eq_true_iff]

theorem getElem?_eq_some_display (h : q < t.size) : t.toList[q]? = some (t.display q) := by
  have hget : t.toList[q]? = some t.toList[q] := List.getElem?_eq_getElem h
  rw [display, get?, hget, Option.getD_some]

theorem display_mem (h : q < t.size) : t.display q ∈ t.toList :=
  List.mem_of_getElem? (getElem?_eq_some_display h)

theorem id?_eq_some_iff (ht : t.toList.Nodup) :
    t.id? label = some q ↔ t.toList[q]? = some label := by
  rw [id?, List.idxOf?_eq_some_iff, List.getElem?_eq_some_iff]
  constructor
  · rintro ⟨h, hget, -⟩
    exact ⟨h, hget⟩
  · rintro ⟨h, hget⟩
    refine ⟨h, hget, fun j hj hlt => ?_⟩
    have hjq : j = q := (List.Nodup.getElem_inj_iff ht).1 (hlt.trans hget.symm)
    omega

theorem id?_eq_some_iff_display (ht : t.toList.Nodup) :
    t.id? label = some q ↔ q < t.size ∧ t.display q = label := by
  rw [id?_eq_some_iff ht]
  constructor
  · intro h
    have hlt : q < t.size := (List.getElem?_eq_some_iff.1 h).1
    rw [getElem?_eq_some_display hlt, Option.some.injEq] at h
    exact ⟨hlt, h⟩
  · rintro ⟨hlt, rfl⟩
    exact getElem?_eq_some_display hlt

theorem id?_eq_none_iff : t.id? label = none ↔ label ∉ t.toList := by
  rw [← uses_eq_true_iff, uses, Option.not_isSome_iff_eq_none]

theorem exists_id?_eq_some_iff : (∃ q, t.id? label = some q) ↔ label ∈ t.toList := by
  rw [← uses_eq_true_iff, uses, Option.isSome_iff_exists]

theorem id?_display (ht : t.toList.Nodup) (h : q < t.size) : t.id? (t.display q) = some q :=
  (id?_eq_some_iff_display ht).2 ⟨h, rfl⟩

theorem display_inj {p : Nat} (ht : t.toList.Nodup) (hp : p < t.size) (hq : q < t.size)
    (h : t.display p = t.display q) : p = q := by
  have hid := id?_display ht hp
  rw [h, id?_display ht hq, Option.some.injEq] at hid
  exact hid.symm

theorem lt_size_of_id? (h : t.id? label = some q) : q < t.size :=
  (List.idxOf?_eq_some_iff.1 h).1

theorem id?_inj {other : String} (h : t.id? label = some q) (hother : t.id? other = some q) :
    label = other := by
  obtain ⟨_, hlabel, -⟩ := List.idxOf?_eq_some_iff.1 h
  obtain ⟨_, hlabel', -⟩ := List.idxOf?_eq_some_iff.1 hother
  exact hlabel.symm.trans hlabel'

theorem id?_eq_id?_iff {other : String} {p : Nat} (h : t.id? label = some q)
    (hother : t.id? other = some p) :
    q = p ↔ label = other := by
  constructor
  · rintro rfl
    exact id?_inj h hother
  · rintro rfl
    exact Option.some.inj (h.symm.trans hother)

theorem displayIn_eq_display (t : LabelTable) : displayIn t.toList.toArray = t.display :=
  funext (displayIn_toArray t)

theorem map_display_range (t : LabelTable) : (List.range t.size).map t.display = t.toList := by
  apply List.ext_getElem?
  intro q
  rw [List.getElem?_map]
  by_cases h : q < t.size
  · rw [List.getElem?_range h, getElem?_eq_some_display h]
    rfl
  · rw [List.getElem?_eq_none (by simpa using h), List.getElem?_eq_none (Nat.not_lt.1 h)]
    rfl

theorem display_sequential (n q : Nat) : (sequential n).display q = toString q := by
  rw [display, get?, sequential, List.getElem?_map]
  by_cases h : q < n
  · rw [List.getElem?_range h]
    rfl
  · rw [List.getElem?_eq_none (by simpa using h)]
    rfl

/-! ## Labels in another order -/

section Reordered

variable {l : List Nat} {f : Nat → String}

theorem id?_map (hf : (l.map f).Nodup) (hq : q ∈ l) : id? ⟨l.map f⟩ (f q) = some (l.idxOf q) := by
  rw [id?_eq_some_iff hf, List.getElem?_map, List.getElem?_idxOf hq]
  rfl

theorem display_idxOf (hq : q ∈ l) : display ⟨l.map f⟩ (l.idxOf q) = f q := by
  rw [display, get?, List.getElem?_map, List.getElem?_idxOf hq]
  rfl

theorem nodup_map_display (ht : t.toList.Nodup) (hl : l.Nodup) (hlt : ∀ q ∈ l, q < t.size) :
    (l.map t.display).Nodup := by
  rw [List.nodup_map_iff_inj_on hl]
  intro p hp q hq hpq
  exact display_inj ht (hlt p hp) (hlt q hq) hpq

end Reordered

/-! ## Primes -/

def primed (label : String) : Nat → String
  | 0 => label
  | k + 1 => primed (label ++ "'") k

theorem length_primed (label : String) (k : Nat) : (primed label k).length = label.length + k := by
  induction k generalizing label with
  | zero => rfl
  | succ k ih =>
      have hone : "'".length = 1 := rfl
      rw [primed, ih, String.length_append, hone]
      omega

/-- If the last label that is tried is in use, so are all before it. -/
theorem primed_mem_of_prime_mem {fuel k : Nat} (h : t.prime fuel label ∈ t.toList) (hk : k ≤ fuel) :
    primed label k ∈ t.toList := by
  induction fuel generalizing label k with
  | zero =>
      rw [Nat.le_zero.1 hk]
      exact h
  | succ fuel ih =>
      unfold prime at h
      split at h
      · rename_i huses
        cases k with
        | zero => exact uses_eq_true_iff.1 huses
        | succ k =>
            rw [primed]
            exact ih h (Nat.le_of_succ_le_succ hk)
      · rename_i huses
        exact absurd (uses_eq_true_iff.2 h) huses

theorem fresh_not_mem (t : LabelTable) (base : String) : t.fresh base ∉ t.toList := by
  intro h
  have hnodup : ((List.range (t.size + 1)).map (primed base)).Nodup := by
    apply List.nodup_range.map
    intro j k hjk
    have hlen := congrArg String.length hjk
    rw [length_primed, length_primed] at hlen
    omega
  have hsub : (List.range (t.size + 1)).map (primed base) ⊆ t.toList := by
    intro l hl
    obtain ⟨k, hk, rfl⟩ := List.mem_map.1 hl
    exact primed_mem_of_prime_mem h (Nat.le_of_lt_succ (List.mem_range.1 hk))
  have hle := hnodup.length_le_of_subset hsub
  rw [List.length_map, List.length_range] at hle
  exact Nat.not_succ_le_self t.size hle

theorem fresh_eq_self (h : label ∉ t.toList) : t.fresh label = label := by
  have huses : ¬ t.uses label = true := mt uses_eq_true_iff.1 h
  rw [fresh]
  cases t.size with
  | zero => rfl
  | succ k => rw [prime, if_neg huses]

/-! ## Entering labels -/

theorem nodup_append_singleton (ht : t.toList.Nodup) (h : label ∉ t.toList) :
    (t.toList ++ [label]).Nodup := by
  rw [List.nodup_append]
  refine ⟨ht, List.nodup_singleton label, fun a ha b hb => ?_⟩
  rw [List.mem_singleton.1 hb]
  rintro rfl
  exact h ha

theorem nodup_intern (ht : t.toList.Nodup) (label : String) : (t.intern label).toList.Nodup := by
  unfold intern
  split
  · exact ht
  · rename_i huses
    exact nodup_append_singleton ht fun h => huses (uses_eq_true_iff.2 h)

theorem nodup_foldl_intern (ht : t.toList.Nodup) (labels : List String) :
    (labels.foldl intern t).toList.Nodup := by
  induction labels generalizing t with
  | nil => exact ht
  | cons label labels ih => exact ih (nodup_intern ht label)

theorem size_intern (t : LabelTable) (label : String) :
    (t.intern label).size = max t.size ((t.id? label).getD t.size + 1) := by
  unfold intern uses
  cases hid : t.id? label with
  | none =>
      rw [Option.getD_none, Option.isSome_none, if_neg Bool.false_ne_true, size, size,
        List.length_append, List.length_singleton]
      omega
  | some q =>
      have hlt := lt_size_of_id? hid
      rw [Option.getD_some, Option.isSome_some, if_pos rfl]
      omega

theorem nodup_internFresh (ht : t.toList.Nodup) (label : String) :
    (t.internFresh label).toList.Nodup :=
  nodup_append_singleton ht (fresh_not_mem t label)

theorem size_internFresh (t : LabelTable) (label : String) :
    (t.internFresh label).size = t.size + 1 := by
  rw [internFresh, size, size, List.length_append, List.length_singleton]

theorem display_internFresh (h : q < t.size) (base : String) :
    (t.internFresh base).display q = t.display q := by
  rw [display, display, get?, get?, internFresh, List.getElem?_append_left h]

theorem display_internFresh_size (t : LabelTable) (base : String) :
    (t.internFresh base).display t.size = t.fresh base := by
  rw [display, get?, internFresh, size, List.getElem?_concat_length, Option.getD_some]

theorem nodup_internAllFresh (ht : t.toList.Nodup) (labels : List String) :
    (t.internAllFresh labels).toList.Nodup := by
  rw [internAllFresh_eq_foldl]
  induction labels generalizing t with
  | nil => exact ht
  | cons label labels ih => exact ih (nodup_internFresh ht label)

theorem size_internAllFresh (t : LabelTable) (labels : List String) :
    (t.internAllFresh labels).size = t.size + labels.length := by
  rw [internAllFresh_eq_foldl]
  induction labels generalizing t with
  | nil => rfl
  | cons label labels ih =>
      rw [List.foldl_cons, ih, size_internFresh, List.length_cons]
      omega

theorem toList_internAllFresh (h : (t.toList ++ labels).Nodup) :
    (t.internAllFresh labels).toList = t.toList ++ labels := by
  rw [internAllFresh_eq_foldl]
  induction labels generalizing t with
  | nil => rw [List.foldl_nil, List.append_nil]
  | cons label labels ih =>
      have hnew : label ∉ t.toList := fun hmem =>
        (List.nodup_append.1 h).2.2 label hmem label List.mem_cons_self rfl
      rw [List.append_cons] at h ⊢
      rw [List.foldl_cons, internFresh, fresh_eq_self hnew]
      exact ih h

theorem nodup_reserve (ht : t.toList.Nodup) (q : Nat) : (t.reserve q).toList.Nodup := by
  unfold reserve
  split
  · exact ht
  · exact nodup_internAllFresh ht _

theorem size_reserve (t : LabelTable) (q : Nat) : (t.reserve q).size = max t.size (q + 1) := by
  unfold reserve
  split
  · omega
  · rw [size_internAllFresh, List.length_map, List.length_range']
    omega

/-! ## Labels that are there stay -/

theorem prefix_intern (t : LabelTable) (label : String) : t.toList <+: (t.intern label).toList := by
  unfold intern
  split
  · exact List.prefix_refl _
  · exact List.prefix_append _ _

theorem prefix_foldl_intern (t : LabelTable) (labels : List String) :
    t.toList <+: (labels.foldl intern t).toList := by
  induction labels generalizing t with
  | nil => exact List.prefix_refl _
  | cons label labels ih => exact (t.prefix_intern label).trans (ih (t.intern label))

theorem prefix_internAllFresh (t : LabelTable) (labels : List String) :
    t.toList <+: (t.internAllFresh labels).toList := by
  rw [internAllFresh_eq_foldl]
  induction labels generalizing t with
  | nil => exact List.prefix_refl _
  | cons label labels ih => exact (List.prefix_append _ _).trans (ih (t.internFresh label))

theorem prefix_reserve (t : LabelTable) (q : Nat) : t.toList <+: (t.reserve q).toList := by
  unfold reserve
  split
  · exact List.prefix_refl _
  · exact t.prefix_internAllFresh _

theorem display_of_prefix {more : LabelTable} (h : t.toList <+: more.toList) (hq : q < t.size) :
    more.display q = t.display q := by
  obtain ⟨rest, hrest⟩ := h
  rw [display, display, get?, get?, ← hrest, List.getElem?_append_left hq]

theorem id?_of_prefix {more : LabelTable} (hmore : more.toList.Nodup) (h : t.toList <+: more.toList)
    (hid : t.id? label = some q) : more.id? label = some q := by
  obtain ⟨hlt, hlabel⟩ := (id?_eq_some_iff_display (hmore.sublist h.sublist)).1 hid
  have hmorelt : q < more.size := Nat.lt_of_lt_of_le hlt h.length_le
  have hsame : more.display q = t.display q := display_of_prefix h hlt
  exact (id?_eq_some_iff_display hmore).2 ⟨hmorelt, hsame.trans hlabel⟩

theorem id?_internFresh (ht : t.toList.Nodup) (h : t.id? label = some q) (base : String) :
    (t.internFresh base).id? label = some q :=
  id?_of_prefix (nodup_internFresh ht base) (List.prefix_append _ _) h

theorem display_intern (t : LabelTable) (label : String) :
    (t.intern label).display ((t.id? label).getD t.size) = label := by
  unfold intern uses
  cases hid : t.id? label with
  | none =>
      rw [Option.isSome_none, if_neg Bool.false_ne_true, Option.getD_none, display, get?, size,
        List.getElem?_concat_length, Option.getD_some]
  | some q =>
      obtain ⟨hlt, hget, -⟩ := List.idxOf?_eq_some_iff.1 hid
      rw [Option.isSome_some, if_pos rfl, Option.getD_some, display, get?,
        List.getElem?_eq_getElem hlt, Option.getD_some, hget]

/-! ## Tables of lists -/

theorem nodup_empty : empty.toList.Nodup := List.nodup_nil

theorem nodup_ofList (labels : List String) : (ofList labels).toList.Nodup := by
  rw [ofList_eq_foldl]
  exact nodup_foldl_intern nodup_empty labels

theorem foldl_intern (t : LabelTable) (labels : List String) :
    labels.foldl intern t = ⟨t.toList ++ (labels.filter (· ∉ t.toList)).eraseDups⟩ := by
  induction labels generalizing t with
  | nil => simp
  | cons label labels ih =>
      rw [List.foldl_cons, ih, intern]
      by_cases hmem : label ∈ t.toList
      · simp [uses_eq_true_iff.2 hmem, hmem]
      · have huses : ¬ t.uses label = true := mt uses_eq_true_iff.1 hmem
        have hrest : labels.filter (· ∉ t.toList ++ [label]) =
            (labels.filter (· ∉ t.toList)).filter fun l => !l == label := by
          rw [List.filter_filter]
          apply List.filter_congr
          intro l _
          rw [Bool.eq_iff_iff]
          simp [and_comm]
        rw [if_neg huses, hrest]
        simp [hmem, List.eraseDups_cons]

/-- Different labels are entered as they stand, and of those after them each that is new, by first
occurrence. -/
theorem toList_ofList_append (hnodup : labels.Nodup) (more : List String) :
    (ofList (labels ++ more)).toList = labels ++ (more.filter (· ∉ labels)).eraseDups := by
  have hdups : ∀ {l : List String}, l.Nodup → l.eraseDups = l := by
    intro l hl
    induction l with
    | nil => rfl
    | cons x l ih =>
        rw [List.nodup_cons] at hl
        have hfilter : l.filter (fun y => !y == x) = l := by
          rw [List.filter_eq_self]
          intro y hy
          have hne : y ≠ x := fun h => hl.1 (h ▸ hy)
          simpa using hne
        rw [List.eraseDups_cons, hfilter, ih hl.2]
  have hlabels : labels.foldl intern empty = ⟨labels⟩ := by
    rw [foldl_intern]
    simp [empty, hdups hnodup]
  rw [ofList_eq_foldl, List.foldl_append, hlabels, foldl_intern]

theorem mem_ofList : label ∈ (ofList labels).toList ↔ label ∈ labels := by
  rw [ofList_eq_foldl, foldl_intern]
  simp [empty]

theorem ofList_append (hnodup : labels.Nodup) {more : List String}
    (hmore : ∀ l ∈ more, l ∈ labels) :
    ofList (labels ++ more) = ⟨labels⟩ := by
  have hnone : more.filter (· ∉ labels) = [] := by
    simpa [List.filter_eq_nil_iff] using hmore
  have htable := toList_ofList_append hnodup more
  rw [hnone, List.eraseDups_nil, List.append_nil] at htable
  exact congrArg LabelTable.mk htable

theorem nodup_project (t : LabelTable) (states : List Nat) : (t.project states).toList.Nodup :=
  nodup_internAllFresh nodup_empty _

theorem size_project (t : LabelTable) (states : List Nat) :
    (t.project states).size = states.length := by
  rw [project, size_internAllFresh, displayAll, List.length_map]
  exact Nat.zero_add _

theorem project_eq {states : List Nat} (ht : t.toList.Nodup) (hstates : states.Nodup)
    (hlt : ∀ q ∈ states, q < t.size) : t.project states = ⟨states.map t.display⟩ := by
  rw [project, displayAll, displayIn_eq_display]
  exact congrArg mk (toList_internAllFresh (nodup_map_display ht hstates hlt))

theorem project_congr {s t : LabelTable} {states : List Nat}
    (h : ∀ q ∈ states, s.display q = t.display q) :
    s.project states = t.project states := by
  rw [project, project, displayAll, displayAll, displayIn_eq_display, displayIn_eq_display,
    List.map_congr_left h]

theorem project_range (ht : t.toList.Nodup) : t.project (List.range t.size) = t := by
  rw [project_eq ht List.nodup_range fun q hq => List.mem_range.1 hq, map_display_range]

end RegularLanguages.LabelTable
