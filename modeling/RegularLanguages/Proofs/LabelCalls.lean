import Mathlib.Order.Bounds.Basic
import RegularLanguages.LabelCalls
import RegularLanguages.Proofs.LabelTable

/-!
# Tables of labels that are made by calls

The loop that adds primes is stated here without a bound on its rounds (`LabelTable.Rounds`). It
ends for every label, and until then it has added the fewest primes that make the label unused. So
a selection of states is taken over without a failure: every label that is entered is new, and
becomes the label of the next state.

Whatever calls have made a table, no label stands in it twice. From this follows what the table has
to do (`LabelTable.NamesStates`).
-/

namespace RegularLanguages

namespace LabelTable

variable {t : LabelTable} {label result : String} {labels : List String} {k q : Nat}

/-! ## Adding primes -/

/-- `Rounds t label k result` says that the loop that adds a prime to a label as long as it is in
use, begun with `label`, ends with `result` after `k` rounds. -/
inductive Rounds (t : LabelTable) : String → Nat → String → Prop
  | done {label : String} : t.uses label = false → Rounds t label 0 label
  | next {label result : String} {k : Nat} :
    t.uses label = true → Rounds t (label ++ "'") k result → Rounds t label (k + 1) result

theorem Rounds.eq_primed (h : t.Rounds label k result) : result = primed label k := by
  induction h with
  | done => rfl
  | next _ _ ih => exact ih

theorem Rounds.not_mem (h : t.Rounds label k result) : result ∉ t.toList := by
  induction h with
  | done huses => exact uses_eq_false_iff.1 huses
  | next _ _ ih => exact ih

theorem Rounds.primed_mem (h : t.Rounds label k result) {j : Nat} (hj : j < k) :
    primed label j ∈ t.toList := by
  induction h generalizing j with
  | done => exact absurd hj (Nat.not_lt_zero j)
  | next huses _ ih =>
      cases j with
      | zero => exact uses_eq_true_iff.1 huses
      | succ j => exact ih (Nat.lt_of_succ_lt_succ hj)

theorem Rounds.isLeast (h : t.Rounds label k result) :
    IsLeast {j | primed label j ∉ t.toList} k := by
  have hunused : primed label k ∉ t.toList := h.eq_primed ▸ h.not_mem
  refine ⟨hunused, fun j hj => ?_⟩
  by_contra hlt
  exact hj (h.primed_mem (Nat.lt_of_not_le hlt))

theorem exists_rounds_prime {fuel : Nat} (h : t.prime fuel label ∉ t.toList) :
    ∃ k ≤ fuel, t.Rounds label k (t.prime fuel label) := by
  induction fuel generalizing label with
  | zero => exact ⟨0, Nat.le_refl 0, .done (uses_eq_false_iff.2 h)⟩
  | succ fuel ih =>
      unfold prime at h ⊢
      cases huses : t.uses label with
      | false => exact ⟨0, Nat.zero_le _, .done huses⟩
      | true =>
          rw [if_pos huses] at h
          obtain ⟨k, hle, hk⟩ := ih h
          exact ⟨k + 1, Nat.succ_le_succ hle, .next huses hk⟩

/-- The loop ends, with no more primes than there are labels. -/
theorem exists_rounds_fresh (t : LabelTable) (base : String) :
    ∃ k ≤ t.size, t.Rounds base k (t.fresh base) :=
  exists_rounds_prime (fresh_not_mem t base)

/-- A label is another one with the fewest primes that keep it off a list. -/
def FewestPrimes (used : List String) (base label : String) : Prop :=
  ∃ k, IsLeast {j | primed base j ∉ used} k ∧ label = primed base k

theorem fewestPrimes_fresh (t : LabelTable) (base : String) :
    FewestPrimes t.toList base (t.fresh base) := by
  obtain ⟨k, -, hk⟩ := t.exists_rounds_fresh base
  exact ⟨k, hk.isLeast, hk.eq_primed⟩

/-! ## Entering labels -/

theorem findOrEnter_eq (t : LabelTable) (label : String) :
    t.findOrEnter label = ((t.id? label).getD t.size, t.intern label) := by
  unfold findOrEnter intern uses
  cases t.id? label <;> rfl

theorem findOrEnter_fresh (t : LabelTable) (base : String) :
    t.findOrEnter (t.fresh base) = (t.size, t.internFresh base) := by
  rw [findOrEnter, id?_eq_none_iff.2 (fresh_not_mem t base)]
  rfl

theorem id?_findOrEnter (ht : t.toList.Nodup) (label : String) :
    (t.findOrEnter label).2.id? label = some (t.findOrEnter label).1 := by
  rw [findOrEnter_eq, id?_eq_some_iff_display (nodup_intern ht label), size_intern]
  exact ⟨by omega, display_intern t label⟩

theorem foldl_findOrEnter (t : LabelTable) (labels : List String) :
    labels.foldl (fun t label => (t.findOrEnter label).2) t = labels.foldl intern t := by
  simp only [findOrEnter_eq]

/-! ## Taking labels over -/

theorem takeOver_size (t taken : LabelTable) (q : Nat) :
    t.takeOver taken q taken.size = some (taken.internFresh (t.display q)) := by
  have hlabel : (if taken.uses (t.display q) then taken.fresh (t.display q) else t.display q) =
      taken.fresh (t.display q) := by
    split
    · rfl
    · rename_i huses
      exact (fresh_eq_self fun hmem => huses (uses_eq_true_iff.2 hmem)).symm
  simp only [takeOver, hlabel, findOrEnter_fresh, if_true]

theorem foldlM_takeOver (t taken : LabelTable) (states : List Nat) :
    (states.zipIdx taken.size).foldlM (fun taken x => t.takeOver taken x.1 x.2) taken =
      some ((states.map t.display).foldl internFresh taken) := by
  induction states generalizing taken with
  | nil => rfl
  | cons q states ih =>
      have hrest := ih (taken.internFresh (t.display q))
      rw [size_internFresh] at hrest
      rw [List.zipIdx_cons, List.foldlM_cons, takeOver_size]
      exact hrest

/-- No label is refused, whatever the selection: each gets its place in the selection as its
state. -/
theorem takeOverAll_eq (t : LabelTable) (states : List Nat) :
    t.takeOverAll states = some (t.project states) := by
  rw [project, internAllFresh_eq_foldl, displayAll, displayIn_eq_display]
  exact t.foldlM_takeOver empty states

theorem internAllFresh_cons (t : LabelTable) (label : String) (labels : List String) :
    t.internAllFresh (label :: labels) = (t.internFresh label).internAllFresh labels := by
  rw [internAllFresh_eq_foldl, internAllFresh_eq_foldl]
  rfl

/-- A label gets the fewest primes that tell it from all labels before it. -/
theorem fewestPrimes_internAllFresh {i : Nat} (h : labels[i]? = some label) :
    ∃ entered, (t.internAllFresh labels).get? (t.size + i) = some entered ∧
      FewestPrimes ((t.internAllFresh labels).toList.take (t.size + i)) label entered := by
  induction labels generalizing t i with
  | nil => cases h
  | cons first labels ih =>
      rw [internAllFresh_cons]
      cases i with
      | zero =>
          obtain rfl : first = label := Option.some.inj h
          obtain ⟨rest, hrest⟩ := (t.internFresh first).prefix_internAllFresh labels
          have hall : ((t.internFresh first).internAllFresh labels).toList =
              t.toList ++ t.fresh first :: rest := by
            rw [← hrest, internFresh, List.append_assoc, List.singleton_append]
          refine ⟨t.fresh first, ?_, ?_⟩
          · rw [get?, hall, Nat.add_zero, size, List.getElem?_append_right (Nat.le_refl _),
              Nat.sub_self]
            rfl
          · rw [hall, Nat.add_zero, size, List.take_left]
            exact t.fewestPrimes_fresh first
      | succ i =>
          have hrest := ih (t := t.internFresh first) h
          rwa [size_internFresh, Nat.add_right_comm, Nat.add_assoc] at hrest

theorem fewestPrimes_project {states : List Nat} {i : Nat} (h : states[i]? = some q) :
    ∃ label, (t.project states).get? i = some label ∧
      FewestPrimes ((t.project states).toList.take i) (t.display q) label := by
  have hlabel : (t.displayAll states)[i]? = some (t.display q) := by
    rw [displayAll, displayIn_eq_display, List.getElem?_map, h]
    rfl
  have hentered := fewestPrimes_internAllFresh (t := empty) hlabel
  rwa [show empty.size = 0 from rfl, Nat.zero_add] at hentered

/-! ## What a table has to do -/

/-- What a table of labels has to do. Its labels lead to states and back, also when more labels are
entered; a label is made unused with the fewest primes; and the labels of any selection of states,
also of states that are selected twice or do not exist, are taken over one for each place, with the
fewest primes again. -/
structure NamesStates (t : LabelTable) : Prop where
  distinct : t.toList.Nodup
  id?_iff : ∀ label q, t.id? label = some q ↔ t.get? q = some label
  findOrEnter_answer : ∀ label, (t.findOrEnter label).2.id? label = some (t.findOrEnter label).1
  id?_kept : ∀ (labels : List String) (label : String) (q : Nat), t.id? label = some q →
    (labels.foldl (fun t label => (t.findOrEnter label).2) t).id? label = some q
  fresh_ends : ∀ base, ∃ k ≤ t.size, t.Rounds base k (t.fresh base)
  fresh_fewest : ∀ base, FewestPrimes t.toList base (t.fresh base)
  takeOverAll_ends : ∀ states, t.takeOverAll states = some (t.project states)
  project_size : ∀ states, (t.project states).size = states.length
  project_fewest : ∀ states i q, states[i]? = some q →
    ∃ label, (t.project states).get? i = some label ∧
    FewestPrimes ((t.project states).toList.take i) (t.display q) label

theorem namesStates_of_nodup (ht : t.toList.Nodup) : t.NamesStates where
  distinct := ht
  id?_iff _ _ := id?_eq_some_iff ht
  findOrEnter_answer := id?_findOrEnter ht
  id?_kept labels label q hid := by
    rw [foldl_findOrEnter]
    exact id?_of_prefix (nodup_foldl_intern ht labels) (t.prefix_foldl_intern labels) hid
  fresh_ends := t.exists_rounds_fresh
  fresh_fewest := t.fewestPrimes_fresh
  takeOverAll_ends := t.takeOverAll_eq
  project_size := t.size_project
  project_fewest _ _ _ h := fewestPrimes_project h

end LabelTable

namespace LabelCall

theorem exists_perform {t : LabelTable} (ht : t.toList.Nodup) (c : LabelCall) :
    ∃ t', perform t c = some t' ∧ t'.toList.Nodup := by
  cases c with
  | empty => exact ⟨_, rfl, LabelTable.nodup_empty⟩
  | sequential n => exact ⟨_, rfl, LabelTable.nodup_sequential n⟩
  | findOrEnter label =>
      refine ⟨_, rfl, ?_⟩
      rw [LabelTable.findOrEnter_eq]
      exact LabelTable.nodup_intern ht label
  | project states => exact ⟨_, t.takeOverAll_eq states, t.nodup_project states⟩

theorem exists_foldlM_perform {t : LabelTable} (ht : t.toList.Nodup) (calls : List LabelCall) :
    ∃ t', calls.foldlM perform t = some t' ∧ t'.toList.Nodup := by
  induction calls generalizing t with
  | nil => exact ⟨t, rfl, ht⟩
  | cons c calls ih =>
      obtain ⟨t', hperform, ht'⟩ := exists_perform ht c
      rw [List.foldlM_cons, hperform]
      exact ih ht'

/-- Calls make a table without a failure, and it does what it has to do for the states that it
names. -/
theorem namesStates_of_made (calls : List LabelCall) :
    ∃ t, made calls = some t ∧ t.NamesStates := by
  obtain ⟨t, hmade, ht⟩ := exists_foldlM_perform LabelTable.nodup_empty calls
  exact ⟨t, hmade, LabelTable.namesStates_of_nodup ht⟩

-- The second label of state `0` is the one that state `1` had, which gets a prime more. `7` is no
-- state.
example :
    made [.findOrEnter "a", .findOrEnter "a'", .findOrEnter "a", .project [0, 0, 1, 7, 7]] =
      some ⟨["a", "a'", "a''", "7", "7'"]⟩ := by
  decide +kernel

end LabelCall

end RegularLanguages
