import RegularLanguages.Nfa.Run

/-!
# Runs and paths

A run keeps a set of states, and a path goes from one state to the next. The set after a word holds
exactly the states at the end of the paths that spell the word (`mem_stepAll`), so an automaton
accepts the words that lead from its start to an accepting state (`accepts_iff_path`).

A path may also be given by its edges, one after another (`path_iff_walk`). Its word is then what
is left of their symbols without the empty moves.
-/

namespace RegularLanguages.Nfa

/-! ## States of well-formed automata -/

instance (n : Nfa) : Decidable n.WellFormed :=
  decidable_of_iff
    (n.labels.toList.Nodup ∧ n.start < n.size ∧ (∀ q ∈ n.accepting.toList, q < n.size) ∧
      ∀ e ∈ n.edges.toList, e.source < n.size ∧ e.target < n.size)
    ⟨fun ⟨hlabels, hstart, haccepting, hends⟩ =>
      ⟨hlabels, hstart, fun q hq => haccepting q (StateSet.mem_toList.2 hq),
        fun e he => (hends e he).1, fun e he => (hends e he).2⟩,
    fun h => ⟨h.labels_nodup, h.start_lt, fun q hq => h.accepting_lt q (StateSet.mem_toList.1 hq),
      fun e he => ⟨h.source_lt e he, h.target_lt e he⟩⟩⟩

theorem wellFormed_of_sequential {n : Nfa} (size : Nat) (hlabels : n.labels = .sequential size)
    (hstart : n.start < size) (haccepting : ∀ q ∈ n.accepting, q < size)
    (hends : ∀ p a q, ⟨p, a, q⟩ ∈ n.edges → p < size ∧ q < size) : n.WellFormed := by
  have hsize : n.size = size := by
    rw [Nfa.size, hlabels, LabelTable.size_sequential]
  rw [← hsize] at hstart haccepting hends
  refine ⟨?_, hstart, haccepting, fun e he => (hends _ _ _ he).1, fun e he => (hends _ _ _ he).2⟩
  rw [hlabels]
  exact LabelTable.nodup_sequential size

theorem WellFormed.ends_lt {n : Nfa} (hn : n.WellFormed) {p q : Nat} {a : Symbol}
    (he : ⟨p, a, q⟩ ∈ n.edges) : p < n.size ∧ q < n.size :=
  ⟨hn.source_lt _ he, hn.target_lt _ he⟩

theorem WellFormed.path_lt {n : Nfa} (hn : n.WellFormed) {p q : Nat} {w : List Char}
    (h : Path n p w q) (hp : p < n.size) : q < n.size := by
  induction h with
  | refl => exact hp
  | empty he _ ih => exact ih (hn.ends_lt he).2
  | char he _ ih => exact ih (hn.ends_lt he).2

/-! ## Edges from a state -/

section Edges

variable {n : Nfa} {p q : Nat} {a : Symbol}

theorem mem_edgesFrom : (a, p) ∈ n.edgesFrom q ↔ ⟨q, a, p⟩ ∈ n.edges := by
  unfold edgesFrom
  rw [List.mem_filterMap]
  constructor
  · rintro ⟨e, he, heq⟩
    by_cases hs : e.source = q
    · rw [if_pos hs, Option.some.injEq, Prod.mk.injEq] at heq
      rw [← hs, ← heq.1, ← heq.2]
      exact he
    · rw [if_neg hs] at heq
      cases heq
  · intro he
    exact ⟨_, he, if_pos rfl⟩

theorem mem_rowTargets {row : List (Symbol × Nat)} : p ∈ rowTargets row a ↔ (a, p) ∈ row := by
  unfold rowTargets
  rw [StateSet.mem_ofList, List.mem_filterMap]
  constructor
  · rintro ⟨e, he, heq⟩
    by_cases hs : e.1 = a
    · rw [if_pos hs, Option.some.injEq] at heq
      rw [← hs, ← heq]
      exact he
    · rw [if_neg hs] at heq
      cases heq
  · intro he
    exact ⟨_, he, if_pos rfl⟩

theorem mem_rowSymbols {row : List (Symbol × Nat)} : a ∈ rowSymbols row ↔ ∃ p, (a, p) ∈ row := by
  unfold rowSymbols
  rw [SortedSet.mem_ofList, List.mem_map]
  constructor
  · rintro ⟨e, he, rfl⟩
    exact ⟨e.2, he⟩
  · rintro ⟨p, hp⟩
    exact ⟨_, hp, rfl⟩

theorem mem_targets : p ∈ n.targets q a ↔ ⟨q, a, p⟩ ∈ n.edges := by
  rw [targets, mem_rowTargets, mem_edgesFrom]

theorem mem_symbolsFrom : a ∈ n.symbolsFrom q ↔ ∃ p, ⟨q, a, p⟩ ∈ n.edges := by
  rw [symbolsFrom, mem_rowSymbols]
  simp only [mem_edgesFrom]

theorem isDeterministic_iff :
    n.isDeterministic = true ↔
      (∀ p q, ⟨p, .epsilon, q⟩ ∉ n.edges) ∧
        ∀ p a q r, ⟨p, a, q⟩ ∈ n.edges → ⟨p, a, r⟩ ∈ n.edges → q = r := by
  simp only [isDeterministic, getD_edgeRows, List.all_eq_true, Bool.and_eq_true, bne_iff_ne,
    decide_eq_true_iff]
  constructor
  · intro h
    refine ⟨fun p q he => (h _ he).1 rfl, fun p a q r hq hr => ?_⟩
    exact StateSet.size_le_one_iff.1 (h _ hq).2 q (mem_targets.2 hq) r (mem_targets.2 hr)
  · rintro ⟨hempty, htarget⟩ ⟨p, a, q⟩ he
    refine ⟨fun ha => hempty p q (ha ▸ he), StateSet.size_le_one_iff.2 fun x hx y hy => ?_⟩
    exact htarget p a x y (mem_targets.1 hx) (mem_targets.1 hy)

end Edges

/-! ## Runs as paths -/

theorem Path.append {n : Nfa} {p q r : Nat} {u v : List Char} (hu : Path n p u q)
    (hv : Path n q v r) : Path n p (u ++ v) r := by
  induction hu with
  | refl => exact hv
  | empty he _ ih => exact .empty he (ih hv)
  | char he _ ih => exact .char he (ih hv)

/-- A path along a character is empty moves, an edge on the character, and the rest. -/
theorem path_cons_iff {n : Nfa} {p r : Nat} {c : Char} {w : List Char} :
    Path n p (c :: w) r ↔ ∃ p' q, Path n p [] p' ∧ ⟨p', .char c, q⟩ ∈ n.edges ∧ Path n q w r := by
  constructor
  · intro h
    generalize hword : c :: w = word at h
    induction h with
    | refl => cases hword
    | empty he _ ih =>
        obtain ⟨p', q, hp', hq, hw⟩ := ih hword
        exact ⟨p', q, .empty he hp', hq, hw⟩
    | char he hw _ =>
        cases hword
        exact ⟨_, _, .refl _, he, hw⟩
  · rintro ⟨p', q, hp', he, hw⟩
    exact hp'.append (.char he hw)

theorem mem_emptyMoves {n : Nfa} {p q : Nat} :
    (p, q) ∈ n.emptyMoves ↔ ⟨p, .epsilon, q⟩ ∈ n.edges := by
  unfold emptyMoves
  rw [List.mem_filterMap]
  constructor
  · rintro ⟨e, he, heq⟩
    by_cases hs : e.symbol = .epsilon
    · rw [if_pos hs, Option.some.injEq, Prod.mk.injEq] at heq
      rw [← heq.1, ← heq.2, ← hs]
      exact he
    · rw [if_neg hs] at heq
      cases heq
  · intro he
    exact ⟨_, he, rfl⟩

theorem leads_emptyMoves_iff {n : Nfa} {p q : Nat} : Leads n.emptyMoves p q ↔ Path n p [] q := by
  constructor
  · intro h
    induction h with
    | refl => exact .refl _
    | step he _ ih => exact .empty (mem_emptyMoves.1 he) ih
  · intro h
    generalize hword : ([] : List Char) = word at h
    induction h with
    | refl => exact .refl _
    | empty he _ ih => exact .step (mem_emptyMoves.2 he) (ih hword)
    | char => cases hword

theorem mem_closure {n : Nfa} {s : StateSet} {q : Nat} :
    q ∈ n.closure s ↔ ∃ p ∈ s, Path n p [] q := by
  simp only [closure, StateSet.mem_reach, leads_emptyMoves_iff]

theorem closure_closure (n : Nfa) (s : StateSet) : n.closure (n.closure s) = n.closure s := by
  apply StateSet.ext
  intro q
  rw [mem_closure]
  constructor
  · rintro ⟨p, hp, hpq⟩
    obtain ⟨o, ho, hop⟩ := mem_closure.1 hp
    exact mem_closure.2 ⟨o, ho, hop.append hpq⟩
  · intro hq
    exact ⟨q, hq, .refl q⟩

theorem mem_move {n : Nfa} {s : StateSet} {c : Char} {q : Nat} :
    q ∈ n.move s c ↔ ∃ p ∈ s, ⟨p, .char c, q⟩ ∈ n.edges := by
  unfold move
  rw [StateSet.mem_ofList, List.mem_filterMap]
  constructor
  · rintro ⟨e, he, heq⟩
    by_cases hs : e.symbol = .char c ∧ e.source ∈ s
    · rw [if_pos hs, Option.some.injEq] at heq
      refine ⟨e.source, hs.2, ?_⟩
      rw [← heq, ← hs.1]
      exact he
    · rw [if_neg hs] at heq
      cases heq
  · rintro ⟨p, hp, he⟩
    exact ⟨_, he, if_pos ⟨rfl, hp⟩⟩

theorem mem_alphabet {n : Nfa} {c : Char} : c ∈ n.alphabet ↔ ∃ p q, ⟨p, .char c, q⟩ ∈ n.edges := by
  unfold alphabet
  rw [SortedSet.mem_ofList, List.mem_filterMap]
  constructor
  · rintro ⟨e, he, hc⟩
    refine ⟨e.source, e.target, ?_⟩
    rw [← Symbol.char?_eq_some_iff.1 hc]
    exact he
  · rintro ⟨p, q, he⟩
    exact ⟨_, he, rfl⟩

theorem mem_step {n : Nfa} {s : StateSet} {c : Char} {r : Nat} :
    r ∈ n.step s c ↔ ∃ p ∈ s, ∃ q, ⟨p, .char c, q⟩ ∈ n.edges ∧ Path n q [] r := by
  rw [step, mem_closure]
  constructor
  · rintro ⟨q, hq, hr⟩
    obtain ⟨p, hp, he⟩ := mem_move.1 hq
    exact ⟨p, hp, q, he, hr⟩
  · rintro ⟨p, hp, q, he, hr⟩
    exact ⟨q, mem_move.2 ⟨p, hp, he⟩, hr⟩

theorem closure_step (n : Nfa) (s : StateSet) (c : Char) : n.closure (n.step s c) = n.step s c :=
  closure_closure n _

theorem closure_initial (n : Nfa) : n.closure n.initial = n.initial :=
  closure_closure n _

theorem start_mem_initial (n : Nfa) : n.start ∈ n.initial :=
  mem_closure.2 ⟨n.start, StateSet.mem_singleton.2 rfl, .refl n.start⟩

theorem stepAll_cons (n : Nfa) (s : StateSet) (c : Char) (w : List Char) :
    n.stepAll s (c :: w) = n.stepAll (n.step s c) w := rfl

/-- The set after a word holds the states at the end of the paths that spell it. -/
theorem mem_stepAll {n : Nfa} {s : StateSet} {w : List Char} {r : Nat} (hs : n.closure s = s) :
    r ∈ n.stepAll s w ↔ ∃ p ∈ s, Path n p w r := by
  induction w generalizing s with
  | nil =>
      rw [← mem_closure, hs]
      rfl
  | cons c w ih =>
      rw [stepAll_cons, ih (closure_step n s c)]
      constructor
      · rintro ⟨q, hq, hw⟩
        obtain ⟨p, hp, o, he, hoq⟩ := mem_step.1 hq
        exact ⟨p, hp, .char he (hoq.append hw)⟩
      · rintro ⟨p, hp, hw⟩
        obtain ⟨p', q, hp', he, hw⟩ := path_cons_iff.1 hw
        have hmem : p' ∈ s := by
          rw [← hs, mem_closure]
          exact ⟨p, hp, hp'⟩
        exact ⟨q, mem_step.2 ⟨p', hmem, q, he, .refl q⟩, hw⟩

theorem mem_stepAll_initial {n : Nfa} {w : List Char} {r : Nat} :
    r ∈ n.stepAll n.initial w ↔ Path n n.start w r := by
  rw [mem_stepAll (closure_initial n)]
  constructor
  · rintro ⟨p, hp, hw⟩
    obtain ⟨o, ho, hop⟩ := mem_closure.1 hp
    rw [StateSet.mem_singleton.1 ho] at hop
    exact hop.append hw
  · intro hw
    exact ⟨n.start, start_mem_initial n, hw⟩

theorem isAccepting_iff {n : Nfa} {s : StateSet} :
    n.isAccepting s = true ↔ ∃ q ∈ s, q ∈ n.accepting := StateSet.intersects_iff

/-- A word is accepted if a path that spells it leads from the start to an accepting state. -/
theorem accepts_iff_path {n : Nfa} {w : List Char} :
    n.accepts w = true ↔ ∃ q ∈ n.accepting, Path n n.start w q := by
  rw [accepts, active_eq_stepAll, isAccepting_iff]
  simp only [mem_stepAll_initial, and_comm]

/-! ## Paths by their edges -/

/-- `Walk n p es q` says that the edges `es` of `n` lead one after another from `p` to `q`. -/
inductive Walk (n : Nfa) : Nat → List Edge → Nat → Prop
  | stay (q : Nat) : Walk n q [] q
  | edge {e : Edge} {es : List Edge} {q : Nat} : e ∈ n.edges → Walk n e.target es q →
      Walk n e.source (e :: es) q

def spelling (es : List Edge) : List Char := es.filterMap fun e => e.symbol.char?

theorem Walk.path {n : Nfa} {p q : Nat} {es : List Edge} (h : Walk n p es q) :
    Path n p (spelling es) q := by
  induction h with
  | stay q => exact .refl q
  | @edge e es q he _ ih =>
      obtain ⟨p, a, r⟩ := e
      cases a with
      | epsilon => exact .empty he ih
      | char c => exact .char he ih

theorem Path.exists_walk {n : Nfa} {p q : Nat} {w : List Char} (h : Path n p w q) :
    ∃ es, Walk n p es q ∧ spelling es = w := by
  induction h with
  | refl q => exact ⟨[], .stay q, rfl⟩
  | empty he _ ih =>
      obtain ⟨es, hes, hspelling⟩ := ih
      exact ⟨_, .edge he hes, hspelling⟩
  | @char p q r c w he _ ih =>
      obtain ⟨es, hes, hspelling⟩ := ih
      refine ⟨_, .edge he hes, ?_⟩
      change c :: spelling es = c :: w
      rw [hspelling]

theorem path_iff_walk {n : Nfa} {p q : Nat} {w : List Char} :
    Path n p w q ↔ ∃ es, Walk n p es q ∧ spelling es = w := by
  constructor
  · exact Path.exists_walk
  · rintro ⟨es, hes, rfl⟩
    exact hes.path

/-- The set after a word is that of the states at the end of the walks from the start that spell
the word, and a word is accepted if one of them is accepting. -/
theorem active_by_walks (n : Nfa) (w : List Char) :
    n.active w = n.stepAll n.initial w ∧
      (∀ q, q ∈ n.active w ↔ ∃ es, Walk n n.start es q ∧ spelling es = w) ∧
      (n.accepts w = true ↔ ∃ q ∈ n.accepting, ∃ es, Walk n n.start es q ∧ spelling es = w) := by
  refine ⟨active_eq_stepAll n w, fun q => ?_, ?_⟩
  · rw [active_eq_stepAll, mem_stepAll_initial, path_iff_walk]
  · rw [accepts_iff_path]
    simp only [path_iff_walk]

/-- Two empty moves that lead back to where they began are passed as often as one likes. -/
example :
    let n : Nfa := ⟨.sequential 3, 0, .singleton 2,
      .ofList [⟨0, .epsilon, 1⟩, ⟨1, .epsilon, 0⟩, ⟨1, .char 'a', 2⟩, ⟨2, .epsilon, 0⟩]⟩
    n.active ['a', 'a'] = .below 3 ∧ n.accepts ['a', 'b'] = false := by
  decide +kernel

end RegularLanguages.Nfa
