import Mathlib.Logic.Relation
import RegularLanguages.Nfa.ClosureStack
import RegularLanguages.Proofs.Nfa.Paths

/-!
# Closing sets of states under empty moves

The search with a stack ends with the closure of the set (`searchClosure_eq`): at every point of
it, what is known or pending has been reached, and the empty moves of known states lead to such
states again (`Searches`). The closure holds the states that are reached by empty moves, however
many, so it keeps the set, the order and unions, and closing twice is closing once.
-/

namespace RegularLanguages.Nfa

variable {n : Nfa} {s known : StateSet} {pending : List Nat} {p q : Nat}

theorem mem_unknownTargets :
    q ∈ n.unknownTargets known p ↔ ⟨p, .epsilon, q⟩ ∈ n.edges ∧ q ∉ known := by
  rw [unknownTargets, List.mem_reverse, List.mem_filter, StateSet.mem_toList, mem_targets,
    decide_eq_true_iff]

/-! ## The search -/

/-- What holds of the known and the pending states while a set is closed. -/
structure Searches (n : Nfa) (s known : StateSet) (pending : List Nat) : Prop where
  start : ∀ q ∈ s, q ∈ known ∨ q ∈ pending
  target : ∀ p ∈ known, ∀ q, ⟨p, .epsilon, q⟩ ∈ n.edges → q ∈ known ∨ q ∈ pending
  reached : ∀ q, q ∈ known ∨ q ∈ pending → q ∈ n.closure s

theorem searches_start (n : Nfa) (s : StateSet) : n.Searches s ∅ s.toList.reverse where
  start q hq := by simp [hq]
  target p hp := absurd hp (StateSet.not_mem_empty p)
  reached q hq := by
    have hs : q ∈ s := by simpa using hq
    exact mem_closure.2 ⟨q, hs, .refl q⟩

theorem Searches.pass (h : n.Searches s known (q :: pending)) (hq : q ∈ known) :
    n.Searches s known pending := by
  have hdrop : ∀ {r : Nat}, r ∈ known ∨ r ∈ q :: pending → r ∈ known ∨ r ∈ pending := by
    rintro r (hr | hr)
    · exact .inl hr
    · rcases List.mem_cons.1 hr with rfl | hr
      · exact .inl hq
      · exact .inr hr
  refine ⟨fun r hr => hdrop (h.start r hr), fun p hp r hr => hdrop (h.target p hp r hr),
    fun r hr => ?_⟩
  exact h.reached r (hr.imp_right (List.mem_cons_of_mem q))

theorem Searches.enter (h : n.Searches s known (q :: pending)) :
    n.Searches s (known.insert q) (n.unknownTargets (known.insert q) q ++ pending) := by
  have hkeep : ∀ {r : Nat}, r ∈ known ∨ r ∈ q :: pending →
      r ∈ known.insert q ∨ r ∈ n.unknownTargets (known.insert q) q ++ pending := by
    rintro r (hr | hr)
    · exact .inl (StateSet.mem_insert.2 (.inr hr))
    · rcases List.mem_cons.1 hr with rfl | hr
      · exact .inl (StateSet.mem_insert.2 (.inl rfl))
      · exact .inr (List.mem_append_right _ hr)
  have hq := h.reached q (.inr List.mem_cons_self)
  refine ⟨fun r hr => hkeep (h.start r hr), fun p hp r hr => ?_, fun r hr => ?_⟩
  · rcases StateSet.mem_insert.1 hp with rfl | hp
    · by_cases hknown : r ∈ known.insert p
      · exact .inl hknown
      · exact .inr (List.mem_append_left _ (mem_unknownTargets.2 ⟨hr, hknown⟩))
    · exact hkeep (h.target p hp r hr)
  · rcases hr with hr | hr
    · rcases StateSet.mem_insert.1 hr with rfl | hr
      · exact hq
      · exact h.reached r (.inl hr)
    · rcases List.mem_append.1 hr with hr | hr
      · obtain ⟨o, ho, hoq⟩ := mem_closure.1 hq
        exact mem_closure.2 ⟨o, ho, hoq.append (.empty (mem_unknownTargets.1 hr).1 (.refl r))⟩
      · exact h.reached r (.inr (List.mem_cons_of_mem q hr))

/-- When nothing is pending, the known states are closed under empty moves. -/
theorem Searches.eq_closure (h : n.Searches s known []) : known = n.closure s := by
  refine StateSet.ext fun q => ⟨fun hq => h.reached q (.inl hq), fun hq => ?_⟩
  obtain ⟨p, hp, hpq⟩ := mem_closure.1 hq
  have hclosed : ∀ p ∈ known, ∀ r, (p, r) ∈ n.emptyMoves → r ∈ known := fun p hp r hr =>
    (h.target p hp r (mem_emptyMoves.1 hr)).resolve_right List.not_mem_nil
  exact StateSet.mem_of_leads hclosed (leads_emptyMoves_iff.2 hpq)
    ((h.start p hp).resolve_right List.not_mem_nil)

theorem Searches.searchFrom_eq (h : n.Searches s known pending) :
    n.searchFrom known pending = n.closure s := by
  fun_induction searchFrom n known pending with
  | case1 known => exact h.eq_closure
  | case2 known q pending hq ih => exact ih (h.pass hq)
  | case3 known q pending hq ih => exact ih h.enter

/-- The search with a stack finds the closure. -/
theorem searchClosure_eq (n : Nfa) (s : StateSet) : n.searchClosure s = n.closure s :=
  (searches_start n s).searchFrom_eq

/-! ## Laws of closing -/

theorem path_nil_iff_reflTransGen :
    Path n p [] q ↔ Relation.ReflTransGen (fun p q => ⟨p, .epsilon, q⟩ ∈ n.edges) p q := by
  constructor
  · intro h
    generalize hword : ([] : List Char) = word at h
    induction h with
    | refl => exact .refl
    | empty he _ ih => exact .head he (ih hword)
    | char => cases hword
  · intro h
    induction h using Relation.ReflTransGen.head_induction_on with
    | refl => exact .refl _
    | head he _ ih => exact .empty he ih

theorem closure_mono {t : StateSet} (h : ∀ q ∈ s, q ∈ t) (hq : q ∈ n.closure s) :
    q ∈ n.closure t := by
  obtain ⟨p, hp, hpq⟩ := mem_closure.1 hq
  exact mem_closure.2 ⟨p, h p hp, hpq⟩

theorem closure_union (n : Nfa) (s t : StateSet) :
    n.closure (s ∪ t) = n.closure s ∪ n.closure t := by
  refine StateSet.ext fun q => ?_
  simp only [StateSet.mem_union, mem_closure, or_and_right, exists_or]

theorem move_union (n : Nfa) (s t : StateSet) (c : Char) :
    n.move (s ∪ t) c = n.move s c ∪ n.move t c := by
  refine StateSet.ext fun q => ?_
  simp only [StateSet.mem_union, mem_move, or_and_right, exists_or]

/-- What closing does to any set, whether its members are states or not. -/
structure ClosesSets (n : Nfa) : Prop where
  searchClosure_eq : ∀ s, n.searchClosure s = n.closure s
  mem_closure_iff : ∀ s q, q ∈ n.closure s ↔
    ∃ p ∈ s, Relation.ReflTransGen (fun p q => ⟨p, .epsilon, q⟩ ∈ n.edges) p q
  mem_closure_self : ∀ s, ∀ q ∈ s, q ∈ n.closure s
  closure_closure : ∀ s, n.closure (n.closure s) = n.closure s
  closure_mono : ∀ s t : StateSet, (∀ q ∈ s, q ∈ t) → ∀ q ∈ n.closure s, q ∈ n.closure t
  closure_union : ∀ s t, n.closure (s ∪ t) = n.closure s ∪ n.closure t
  step_union : ∀ s t c, n.step (s ∪ t) c = n.step s c ∪ n.step t c
  closure_step : ∀ s c, n.closure (n.step s c) = n.step s c

/-- The closure of a set is what a search with a stack ends with: the states that empty moves lead
to. -/
theorem closes_sets (n : Nfa) : n.ClosesSets where
  searchClosure_eq := n.searchClosure_eq
  mem_closure_iff s q := by simp only [mem_closure, path_nil_iff_reflTransGen]
  mem_closure_self s q hq := mem_closure.2 ⟨q, hq, .refl q⟩
  closure_closure := n.closure_closure
  closure_mono _ _ h _ := closure_mono h
  closure_union := n.closure_union
  step_union s t c := by rw [step, step, step, move_union, closure_union]
  closure_step := n.closure_step

end RegularLanguages.Nfa
