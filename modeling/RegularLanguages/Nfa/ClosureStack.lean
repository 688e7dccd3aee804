import RegularLanguages.Nfa.Run

/-!
# Empty moves with a stack

The usual search for the states that empty moves lead to. States that are still to be looked at lie
on a stack, where one state may lie more than once. The state on top is passed over if it is known
by now; else it becomes known, and the targets of its empty moves that are not known yet go on the
stack.

Every round takes a state off the stack, and what a new state puts on it are no more states than it
has empty moves, so the search ends.
-/

namespace RegularLanguages.Nfa

/-- The targets of the empty moves from a state that are not known, with the last one on top. -/
def unknownTargets (n : Nfa) (known : StateSet) (q : Nat) : List Nat :=
  ((n.targets q .epsilon).toList.filter (· ∉ known)).reverse

/-- How many empty moves come from states that are not known. -/
def unknownMoves (n : Nfa) (known : StateSet) : Nat := n.emptyMoves.countP fun e => e.1 ∉ known

theorem length_unknownTargets_le (n : Nfa) (known : StateSet) (q : Nat) :
    (n.unknownTargets known q).length ≤ n.emptyMoves.countP fun e => e.1 = q := by
  have hrow :
      ((n.edgesFrom q).filterMap fun e => if e.1 = .epsilon then some e.2 else none).length =
      n.emptyMoves.countP fun e => e.1 = q := by
    rw [edgesFrom, emptyMoves, List.filterMap_filterMap, List.countP_filterMap,
      List.length_filterMap_eq_countP]
    refine List.countP_congr fun e _ => ?_
    by_cases hq : e.source = q <;> by_cases hs : e.symbol = .epsilon <;> simp [hq, hs]
  have htargets : (n.targets q .epsilon).toList.length ≤
      ((n.edgesFrom q).filterMap fun e => if e.1 = .epsilon then some e.2 else none).length := by
    refine (n.targets q .epsilon).nodup_toList.length_le_of_subset fun p hp => ?_
    rwa [StateSet.mem_toList, targets, rowTargets, StateSet.mem_ofList] at hp
  rw [unknownTargets, List.length_reverse, ← hrow]
  exact Nat.le_trans (List.length_filter_le _ _) htargets

theorem unknownMoves_insert (n : Nfa) {known : StateSet} {q : Nat} (hq : q ∉ known) :
    n.unknownMoves known =
      n.unknownMoves (known.insert q) + n.emptyMoves.countP fun e => e.1 = q := by
  unfold unknownMoves
  induction n.emptyMoves with
  | nil => rfl
  | cons e es ih =>
    rw [List.countP_cons, List.countP_cons, List.countP_cons, ih]
    by_cases he : e.1 = q
    · simp [he, hq]
      omega
    · simp [he]
      omega

/-- The states that are known when the stack has become empty. -/
def searchFrom (n : Nfa) (known : StateSet) : List Nat → StateSet
  | [] => known
  | q :: pending =>
    if q ∈ known then n.searchFrom known pending
    else n.searchFrom (known.insert q) (n.unknownTargets (known.insert q) q ++ pending)
termination_by pending => n.unknownMoves known + pending.length
decreasing_by
  · simp
  · rename_i hq
    have hmoves := n.unknownMoves_insert hq
    have htargets := n.length_unknownTargets_le (known.insert q) q
    simp only [List.length_append, List.length_cons]
    omega

def searchClosure (n : Nfa) (s : StateSet) : StateSet := n.searchFrom ∅ s.toList.reverse

end RegularLanguages.Nfa
