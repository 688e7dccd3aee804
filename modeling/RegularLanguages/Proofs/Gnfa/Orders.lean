import RegularLanguages.Proofs.Gnfa.Labels

/-!
# Orders of elimination

An expression of a generalized automaton is found by eliminating the states of a list, one after
another, and then all others between the start and the accepting state. The list has to name states
between these two, each of them once (`Gnfa.eliminateList_eq_ok_iff`). Any other list fails at the
first state that is not there to be eliminated (`Gnfa.WellFormed.eliminateList_eq_error_iff`).
-/

namespace RegularLanguages.Gnfa

variable {g g' : Gnfa} {p q : Nat} {order gone : List Nat} {e : EliminationError} {r : Regex}

/-! ## States that are left -/

theorem interior_foldl_bypass (g : Gnfa) (qs : List Nat) :
    (qs.foldl bypass g).interior = g.interior.filter fun q => decide (q ∉ qs) := by
  induction qs generalizing g with
  | nil => simp
  | cons q qs ih =>
      rw [List.foldl_cons, ih, interior_bypass, List.filter_filter]
      apply List.filter_congr
      intro p _
      rw [Bool.eq_iff_iff]
      simp [and_comm]

/-- Whether a list names states between the start and the accepting state, each of them once. -/
def Eliminable (g : Gnfa) (order : List Nat) : Prop :=
  order.Nodup ∧ ∀ q ∈ order, q ∈ g.interior

theorem eliminable_cons :
    g.Eliminable (q :: order) ↔ q ∈ g.interior ∧ (g.bypass q).Eliminable order := by
  simp only [Eliminable, List.nodup_cons, List.forall_mem_cons, mem_interior_bypass]
  constructor
  · rintro ⟨⟨hnot, hnodup⟩, hq, hrest⟩
    exact ⟨hq, hnodup, fun p hp => ⟨hrest p hp, fun heq => hnot (heq ▸ hp)⟩⟩
  · rintro ⟨hq, hnodup, hrest⟩
    exact ⟨⟨fun hmem => (hrest q hmem).2 rfl, hnodup⟩, hq, fun p hp => (hrest p hp).1⟩

theorem eliminable_append {rest : List Nat} :
    g.Eliminable (order ++ rest) ↔ g.Eliminable order ∧ (order.foldl bypass g).Eliminable rest := by
  induction order generalizing g with
  | nil => simp [Eliminable]
  | cons q order ih =>
    rw [List.cons_append, eliminable_cons, eliminable_cons, ih, List.foldl_cons, and_assoc]

theorem eliminable_interior (g : Gnfa) : g.Eliminable g.interior :=
  ⟨nodup_interior g, fun _ hq => hq⟩

theorem eliminateList_eq_ok_iff :
    g.eliminateList order = .ok g' ↔ g.Eliminable order ∧ order.foldl bypass g = g' := by
  induction order generalizing g with
  | nil => simp [eliminateList, Eliminable]
  | cons q order ih =>
      rw [eliminateList, bind_eq_ok_iff, eliminable_cons, List.foldl_cons]
      simp only [eliminate_eq_ok_iff, ih]
      constructor
      · rintro ⟨_, ⟨hq, rfl⟩, horder, hfold⟩
        exact ⟨⟨hq, horder⟩, hfold⟩
      · rintro ⟨⟨hq, horder⟩, hfold⟩
        exact ⟨_, ⟨hq, rfl⟩, horder, hfold⟩

theorem reductions_iff : Reductions g order g' ↔ g.eliminateList order = .ok g' := by
  constructor
  · intro h
    induction h with
    | refl => rfl
    | step hq _ ih =>
      exact bind_eq_ok_iff.2 ⟨_, eliminate_eq_ok_iff.2 (reduces_iff.1 hq), ih⟩
  · intro h
    induction order generalizing g with
    | nil =>
        cases h
        exact .refl _
    | cons q order ih =>
        obtain ⟨g₁, hq, h⟩ := bind_eq_ok_iff.1 h
        exact .step (.state hq) (ih h)

/-! ## The expression that is left -/

theorem interior_bypassInterior (g : Gnfa) : g.bypassInterior.interior = [] := by
  rw [bypassInterior, interior_foldl_bypass, List.filter_eq_nil_iff]
  intro q hq
  simp [hq]

theorem regex?_bypassInterior (g : Gnfa) :
    g.bypassInterior.regex? =
      some (g.bypassInterior.label g.bypassInterior.start g.bypassInterior.accept) := by
  rw [regex?, isFinal, interior_bypassInterior]
  rfl

theorem toRegex_nil_ofNfa (n : Nfa) : (ofNfa n).toRegex [] = .ok n.toRegex := by
  rw [Nfa.toRegex, regex?_bypassInterior]
  rfl

theorem toRegex_eq_ok_iff_exists :
    g.toRegex order = .ok r ↔
      g.Eliminable order ∧ (order.foldl bypass g).bypassInterior.regex? = some r := by
  rw [toRegex, bind_eq_ok_iff]
  simp only [eliminateList_eq_ok_iff, regex?_bypassInterior, Option.some.injEq]
  constructor
  · rintro ⟨_, ⟨horder, rfl⟩, h⟩
    cases h
    exact ⟨horder, rfl⟩
  · rintro ⟨horder, rfl⟩
    exact ⟨_, ⟨horder, rfl⟩, rfl⟩

theorem eq_interior_foldl_bypass {rest : List Nat} (hrest : rest.Pairwise (· < ·))
    (hmem : ∀ q, q ∈ rest ↔ q ∈ g.interior ∧ q ∉ order) :
    (order.foldl bypass g).interior = rest := by
  apply Key.eq_of_pairwise_of_mem_iff (r := fun a b => decide (a < b))
  · intro a b hab
    exact decide_eq_false (Nat.lt_asymm (of_decide_eq_true hab))
  · exact (pairwise_interior _).imp decide_eq_true
  · exact hrest.imp decide_eq_true
  · intro q
    rw [interior_foldl_bypass, List.mem_filter, decide_eq_true_iff, hmem]

theorem toRegex_eq_ok_iff :
    g.toRegex order = .ok r ↔ g.Eliminable order ∧ ∃ rest g', rest.Pairwise (· < ·) ∧
      (∀ q, q ∈ rest ↔ q ∈ g.interior ∧ q ∉ order) ∧ Reductions g (order ++ rest) g' ∧
        g'.regex? = some r := by
  rw [toRegex_eq_ok_iff_exists]
  simp only [reductions_iff, eliminateList_eq_ok_iff, eliminable_append, List.foldl_append]
  apply and_congr_right
  intro horder
  constructor
  · intro h
    refine ⟨_, _, pairwise_interior (order.foldl bypass g), fun q => ?_,
      ⟨⟨horder, eliminable_interior _⟩, rfl⟩, h⟩
    rw [interior_foldl_bypass, List.mem_filter, decide_eq_true_iff]
  · rintro ⟨rest, _, hrest, hmem, ⟨-, rfl⟩, h⟩
    rw [bypassInterior, eq_interior_foldl_bypass hrest hmem]
    exact h

/-! ## The first state that cannot be eliminated -/

/-- `Refused g gone q e` says that the state `q` cannot be eliminated when the states in `gone` have
been, and that the error is `e`. -/
inductive Refused (g : Gnfa) (gone : List Nat) (q : Nat) : EliminationError → Prop
  | start : q = g.start → Refused g gone q (.start (g.stateLabel q))
  | accept : q = g.accept → Refused g gone q (.accept (g.stateLabel q))
  | unknown : q ∉ g.states → Refused g gone q (.unknown (g.stateLabel q))
  | gone : q ∈ gone → Refused g gone q (.unknown (g.stateLabel q))

theorem refused_bypass : Refused (g.bypass q) gone p e ↔ Refused g (q :: gone) p e := by
  constructor
  · rintro (h | h | h | h)
    · exact .start h
    · exact .accept h
    · by_cases hp : p = q
      · exact .gone (List.mem_cons.2 (.inl hp))
      · exact .unknown fun hmem => h (StateSet.mem_erase.2 ⟨hmem, hp⟩)
    · exact .gone (List.mem_cons_of_mem q h)
  · rintro (h | h | h | h)
    · exact .start h
    · exact .accept h
    · exact .unknown fun hmem => h (StateSet.mem_erase.1 hmem).1
    · rcases List.mem_cons.1 h with rfl | h
      · exact .unknown fun hmem => (StateSet.mem_erase.1 hmem).2 rfl
      · exact .gone h

namespace WellFormed

theorem eliminate_eq_error_iff (hg : g.WellFormed) :
    g.eliminate q = .error e ↔ Refused g [] q e := by
  unfold eliminate
  constructor
  · intro h
    split_ifs at h with hstart haccept hmem
    · cases h
      exact .start hstart
    · cases h
      exact .accept haccept
    · cases h
      exact .unknown hmem
  · -- The start and the accepting state are two states that are there, so only one reason applies.
    rintro (rfl | rfl | h | h)
    · rw [if_pos rfl]
    · rw [if_neg hg.start_ne_accept.symm, if_pos rfl]
    · have hstart : q ≠ g.start := fun heq => h (heq ▸ hg.start_mem)
      have haccept : q ≠ g.accept := fun heq => h (heq ▸ hg.accept_mem)
      rw [if_neg hstart, if_neg haccept, if_neg h]
    · cases h

theorem eliminateList_eq_error_iff (hg : g.WellFormed) :
    g.eliminateList order = .error e ↔ ∃ before q after, order = before ++ q :: after ∧
      g.Eliminable before ∧ Refused g before q e := by
  induction order generalizing g with
  | nil => simp [eliminateList]
  | cons p order ih =>
      rw [eliminateList, bind_eq_error_iff, hg.eliminate_eq_error_iff]
      constructor
      · rintro (h | ⟨_, hok, h⟩)
        · exact ⟨[], p, order, rfl, ⟨List.nodup_nil, fun _ hq => absurd hq List.not_mem_nil⟩, h⟩
        · obtain ⟨hp, rfl⟩ := eliminate_eq_ok_iff.1 hok
          obtain ⟨before, q, after, rfl, hbefore, h⟩ := (ih (hg.bypass hp)).1 h
          exact ⟨p :: before, q, after, rfl, eliminable_cons.2 ⟨hp, hbefore⟩, refused_bypass.1 h⟩
      · rintro ⟨before, q, after, horder, hbefore, h⟩
        cases before with
        | nil =>
            cases horder
            exact .inl h
        | cons _ before =>
            cases horder
            obtain ⟨hp, hbefore⟩ := eliminable_cons.1 hbefore
            exact .inr ⟨_, eliminate_eq_ok_iff.2 ⟨hp, rfl⟩,
              (ih (hg.bypass hp)).2 ⟨before, q, after, rfl, hbefore, refused_bypass.2 h⟩⟩

end WellFormed

/-- The states of a list are eliminated if it names states between the start and the accepting
state, each of them once, and then the others follow in ascending order. Otherwise the first state
that is not there to be eliminated is named. -/
theorem toRegex_by_order :
    (∀ g : Gnfa, Made g → ∀ order : List Nat,
      ((∃ r, g.toRegex order = .ok r) ↔ order.Nodup ∧ ∀ q ∈ order, q ∈ g.interior) ∧
      (∀ r, g.toRegex order = .ok r → ∃ rest g', rest.Pairwise (· < ·) ∧
        (∀ q, q ∈ rest ↔ q ∈ g.interior ∧ q ∉ order) ∧ Reductions g (order ++ rest) g' ∧
          g'.regex? = some r) ∧
      ∀ e, g.toRegex order = .error e ↔ ∃ before q after, order = before ++ q :: after ∧
        (before.Nodup ∧ ∀ p ∈ before, p ∈ g.interior) ∧ Refused g before q e) ∧
    ∀ n : Nfa, (ofNfa n).toRegex [] = .ok n.toRegex := by
  refine ⟨fun g hg order => ⟨?_, ?_, fun e => ?_⟩, toRegex_nil_ofNfa⟩
  · simp only [toRegex_eq_ok_iff_exists, regex?_bypassInterior, Option.some.injEq, exists_and_left]
    exact and_iff_left ⟨_, rfl⟩
  · intro r hr
    exact (toRegex_eq_ok_iff.1 hr).2
  · rw [toRegex, bind_pure_eq_error_iff]
    exact hg.wellFormed.eliminateList_eq_error_iff

/-- The second state is taken out before the first one, and it is not there to be taken out
again. -/
theorem toRegex_by_order_twice :
    let n : Nfa := ⟨.sequential 2, 0, .singleton 1,
      .ofList [⟨0, .epsilon, 1⟩, ⟨0, .char 'b', 1⟩, ⟨1, .char 'a', 0⟩, ⟨1, .char 'b', 1⟩]⟩
    Made (ofNfa n) ∧
      (∃ r, (ofNfa n).toRegex [1] = .ok r ∧ ∃ rest g', rest.Pairwise (· < ·) ∧
        (∀ q, q ∈ rest ↔ q ∈ (ofNfa n).interior ∧ q ∉ [1]) ∧ Reductions (ofNfa n) ([1] ++ rest) g' ∧
          g'.regex? = some r) ∧
      (ofNfa n).toRegex [1, 1, 2] = .error (.unknown "1") ∧
      (ofNfa n).toRegex [] = .ok n.toRegex := by
  intro n
  have hmade : Made (ofNfa n) := .ofNfa (by decide +kernel)
  have hlabel : (ofNfa n).stateLabel 1 = "1" := by decide +kernel
  have hone : [1].Nodup ∧ ∀ q ∈ [1], q ∈ (ofNfa n).interior := by decide +kernel
  obtain ⟨hall, hnone⟩ := toRegex_by_order
  obtain ⟨hok, hresult, -⟩ := hall (ofNfa n) hmade [1]
  obtain ⟨r, hr⟩ := hok.2 hone
  obtain ⟨-, -, herror⟩ := hall (ofNfa n) hmade [1, 1, 2]
  refine ⟨hmade, ⟨r, hr, hresult r hr⟩, ?_, hnone n⟩
  rw [← hlabel]
  exact (herror _).2 ⟨[1], 1, [2], rfl, hone, .gone List.mem_cons_self⟩

end RegularLanguages.Gnfa
