import RegularLanguages.Proofs.Nfa.Renaming
import RegularLanguages.Proofs.RenamedSearch

/-!
# Renumbering by a search

`renumber` numbers the states as a search finds them, which is by the least of the paths that lead
to them: by the number of edges first, and then edge by edge by symbol and target. The states that
no path leads to follow in their old order. This order is `Precedes`, and the numbers stand in it
(`number_lt_number_iff`).

The targets in the paths change with the numbers. But as the new numbers stand in the order of the
search, the least paths stay the least and in order, so a second search finds the states in the
order of their numbers (`searchOrder_renumber`). Renumbering again changes nothing.
-/

namespace RegularLanguages

/-- Symbols are compared by rank, so the empty move stands before the characters. -/
instance : LinearOrder Symbol := LinearOrder.lift' Symbol.rank fun _ _ => Symbol.rank_inj

namespace Nfa

open Search

variable {n m : Nfa} {f : Nat → Nat} {p q i j : Nat}

/-! ## Paths by their edges -/

theorem ascendingRows_edgesFrom (n : Nfa) : AscendingRows (withTargets n.edgesFrom) := by
  intro q
  rw [withTargets, List.pairwise_map, edgesFrom, List.pairwise_filterMap]
  apply n.edges.ascending.imp
  intro d e hbefore x hx y hy
  rw [Option.ite_none_right_eq_some, Option.some.injEq] at hx hy
  obtain ⟨hd, rfl⟩ := hx
  obtain ⟨he, rfl⟩ := hy
  rw [Prod.Lex.toLex_lt_toLex]
  have hparts : Key.before d.parts e.parts = true := hbefore
  simp only [Edge.parts, Key.before_prod_iff, Key.before_nat_iff, hd, he, lt_self_iff_false,
    false_or, true_and] at hparts
  exact hparts.imp_left Key.before_nat_iff.1

theorem ascendingRows_of_isDeterministic (h : n.isDeterministic = true) :
    AscendingRows n.edgesFrom := by
  intro q
  have hrow := n.ascendingRows_edgesFrom q
  rw [withTargets, List.pairwise_map] at hrow
  apply hrow.imp_of_mem
  rintro ⟨a, x⟩ ⟨b, y⟩ hx hy hlt
  rcases Prod.Lex.toLex_lt_toLex.1 hlt with hab | ⟨rfl, hxy⟩
  · exact hab
  · have htarget := (isDeterministic_iff.1 h).2 q a x y (mem_edgesFrom.1 hx) (mem_edgesFrom.1 hy)
    exact absurd hxy (by simp [htarget])

def IsReached (n : Nfa) (q : Nat) : Prop := ∃ w, Spells n.edgesFrom n.start w q

/-- The least path from the start to a state: the shortest one, and of these the first by its
edges. -/
def LeastPath (n : Nfa) (q : Nat) (u : List (Symbol ×ₗ Nat)) : Prop :=
  Least (withTargets n.edgesFrom) n.start q u

theorem LeastPath.isReached {u : List (Symbol ×ₗ Nat)} (h : n.LeastPath q u) : n.IsReached q :=
  ⟨_, spells_iff_withTargets.2 ⟨u, h.1, rfl⟩⟩

theorem WellFormed.lt_of_isReached (hn : n.WellFormed) (h : n.IsReached q) : q < n.size := by
  obtain ⟨w, hw⟩ := h
  exact hn.lt_of_spells hw hn.start_lt

/-- The search for `renumber`, with the targets of the edges in the labels. -/
def trips (n : Nfa) : List (Visit Nat (Symbol ×ₗ Nat)) :=
  explore (withTargets n.edgesFrom) (fun _ => false) n.size n.start

theorem reached_eq_trips (n : Nfa) : n.reached = n.trips.map (·.node) := by
  have hlabels : ∀ q, n.edgesFrom q = (withTargets n.edgesFrom q).map fun e =>
      ((ofLex e.1).1, e.2) := by
    intro q
    rw [withTargets, List.map_map]
    exact (List.map_id _).symm
  rw [reached_eq, explore_relabel hlabels, List.map_map]
  rfl

theorem WellFormed.enumerates_trips (hn : n.WellFormed) :
    Enumerates (withTargets n.edgesFrom) n.start n.trips := by
  apply explore_enumerates n.ascendingRows_edgesFrom
  apply reachesAtMost_of_lt
  intro t q ht
  exact hn.lt_of_isReached ⟨_, spells_iff_withTargets.2 ⟨t, ht, rfl⟩⟩

theorem WellFormed.exists_leastPath (hn : n.WellFormed) (h : n.IsReached q) :
    ∃ u, n.LeastPath q u := by
  obtain ⟨w, hw⟩ := h
  obtain ⟨t, ht, -⟩ := spells_iff_withTargets.1 hw
  exact hn.enumerates_trips.exists_least ht

theorem WellFormed.mem_reached (hn : n.WellFormed) : q ∈ n.reached ↔ n.IsReached q := by
  rw [reached_eq_trips, List.mem_map]
  constructor
  · rintro ⟨v, hv, rfl⟩
    exact LeastPath.isReached (hn.enumerates_trips.least v hv)
  · intro h
    obtain ⟨u, hu⟩ := hn.exists_leastPath h
    exact hn.enumerates_trips.covers u q hu.1

/-! ## The order of the numbers -/

/-- The order of the states by their least paths, those that are not reached last. -/
def Precedes (n : Nfa) (p q : Nat) : Prop :=
  (∃ u v, n.LeastPath p u ∧ n.LeastPath q v ∧ List.Shortlex (· < ·) u v) ∨
    ¬ n.IsReached q ∧ (n.IsReached p ∨ p < q)

instance (n : Nfa) : Std.Asymm n.Precedes where
  asymm p q := by
    rintro (⟨u, v, hu, hv, huv⟩ | ⟨hq, hpq⟩) (⟨v', u', hv', hu', hvu⟩ | ⟨hp, hqp⟩)
    · rw [hv.unique hv', hu.unique hu'] at huv
      exact asymm huv hvu
    · exact hp hu.isReached
    · exact hq hv'.isReached
    · have hlt := hpq.resolve_left hp
      have hgt := hqp.resolve_left hq
      omega

theorem WellFormed.pairwise_searchOrder (hn : n.WellFormed) :
    n.searchOrder.Pairwise n.Precedes := by
  rw [searchOrder_eq, List.pairwise_append]
  refine ⟨?_, ?_, fun p hp q hq => ?_⟩
  · have hfound := hn.enumerates_trips.toFound
    rw [reached_eq_trips, List.pairwise_map]
    apply hfound.ascending.imp_of_mem
    intro u v hu hv huv
    exact .inl ⟨u.word, v.word, hfound.least u hu, hfound.least v hv, huv⟩
  · have hlt : n.unreached.Pairwise (· < ·) := List.pairwise_lt_range.filter _
    apply hlt.imp_of_mem
    intro p q _ hq hpq
    exact .inr ⟨fun h => (mem_unreached.1 hq).2 (hn.mem_reached.2 h), .inr hpq⟩
  · exact .inr ⟨fun h => (mem_unreached.1 hq).2 (hn.mem_reached.2 h), .inl (hn.mem_reached.1 hp)⟩

theorem WellFormed.number_lt_number_iff (hn : n.WellFormed) (hp : p < n.size) (hq : q < n.size) :
    n.number p < n.number q ↔ n.Precedes p q :=
  Index.place_lt_place_iff hn.pairwise_searchOrder (hn.mem_searchOrder.2 hp)
    (hn.mem_searchOrder.2 hq)

/-- The least number of edges that lead from the start to a state. -/
structure Distance (n : Nfa) (q k : Nat) : Prop where
  attained : ∃ w, Spells n.edgesFrom n.start w q ∧ w.length = k
  least : ∀ w, Spells n.edgesFrom n.start w q → k ≤ w.length

theorem LeastPath.length_eq {u : List (Symbol ×ₗ Nat)} (hu : n.LeastPath q u) (h : n.Distance q i) :
    u.length = i := by
  obtain ⟨w, hw, rfl⟩ := h.attained
  have hle := h.least _ (spells_iff_withTargets.2 ⟨u, hu.1, rfl⟩)
  rw [List.length_map] at hle
  obtain ⟨t, ht, rfl⟩ := spells_iff_withTargets.1 hw
  rw [List.length_map] at hle ⊢
  have hnot : ¬ t.length < u.length := fun hlt => hu.2 t ht (List.Shortlex.of_length_lt hlt)
  omega

theorem WellFormed.precedes_of_distance_lt (hn : n.WellFormed) (hp : n.Distance p i)
    (hq : n.Distance q j) (hij : i < j) : n.Precedes p q := by
  obtain ⟨w, hw, -⟩ := hp.attained
  obtain ⟨x, hx, -⟩ := hq.attained
  obtain ⟨u, hu⟩ := hn.exists_leastPath ⟨w, hw⟩
  obtain ⟨v, hv⟩ := hn.exists_leastPath ⟨x, hx⟩
  refine .inl ⟨u, v, hu, hv, List.Shortlex.of_length_lt ?_⟩
  rw [hu.length_eq hp, hv.length_eq hq]
  exact hij

/-! ## The order of a second search -/

theorem Renamed.carries (h : Renamed f n m) (hn : n.WellFormed) :
    Carries (· < n.size) id f n.edgesFrom m.edgesFrom where
  closed _ he := (hn.ends_lt (mem_edgesFrom.1 he)).2
  inj hx hy := h.bijOn.injOn hx hy
  mem_iff {x b z} hx := by
    rw [mem_edgesFrom, h.edge_iff hn hx]
    constructor
    · rintro ⟨y, he, rfl⟩
      exact ⟨b, y, mem_edgesFrom.2 he, rfl, rfl⟩
    · rintro ⟨_, y, he, rfl, rfl⟩
      exact ⟨y, mem_edgesFrom.1 he, rfl⟩

theorem Renamed.isReached_iff (h : Renamed f n m) (hn : n.WellFormed) (hq : q < n.size) :
    m.IsReached (f q) ↔ n.IsReached q := by
  have hspells : ∀ {w : List Symbol} {z : Nat}, Spells m.edgesFrom m.start w z ↔
      ∃ u y, Spells n.edgesFrom n.start u y ∧ u.map id = w ∧ f y = z := by
    intro w z
    rw [h.start_eq]
    exact (h.carries hn).spells_iff hn.start_lt
  constructor
  · rintro ⟨w, hw⟩
    obtain ⟨u, y, hu, -, hy⟩ := hspells.1 hw
    rw [h.bijOn.injOn (hn.lt_of_isReached ⟨u, hu⟩) hq hy] at hu
    exact ⟨u, hu⟩
  · rintro ⟨u, hu⟩
    exact ⟨_, hspells.2 ⟨u, q, hu, rfl, rfl⟩⟩

/-- The new numbers keep the order that they were given in. -/
theorem WellFormed.precedes_renumber (hn : n.WellFormed) (hp : p < n.size) (hq : q < n.size)
    (h : n.Precedes p q) : n.renumber.1.Precedes (n.number p) (n.number q) := by
  have hrenamed := hn.renamed_renumber
  rcases h with ⟨u, v, hu, hv, huv⟩ | ⟨hunreached, hpq⟩
  · have hcarries := (hrenamed.carries hn).withTargets
    have hkeeps : KeepsLeast (retarget n.number) (withTargets n.edgesFrom) n.start := by
      apply keepsLeast_retarget hn.enumerates_trips
      intro x y u v hx hy huv
      exact (hn.number_lt_number_iff (hn.lt_of_isReached (LeastPath.isReached hx))
        (hn.lt_of_isReached (LeastPath.isReached hy))).2 (.inl ⟨u, v, hx, hy, huv⟩)
    exact .inl ⟨_, _, hu.rename hcarries hn.start_lt hkeeps, hv.rename hcarries hn.start_lt hkeeps,
      hkeeps.shortlex hu hv huv⟩
  · right
    rw [hrenamed.isReached_iff hn hp, hrenamed.isReached_iff hn hq, hn.number_lt_number_iff hp hq]
    exact ⟨hunreached, .inr (.inr ⟨hunreached, hpq⟩)⟩

/-- A second search finds the states in the order of their numbers. -/
theorem WellFormed.searchOrder_renumber (hn : n.WellFormed) :
    n.renumber.1.searchOrder = List.range n.size := by
  have hrange : (List.range n.size).Pairwise n.renumber.1.Precedes := by
    apply List.pairwise_lt_range.imp_of_mem
    intro i j hi hj hij
    obtain ⟨p, hp, rfl⟩ := hn.bijOn_number.surjOn (List.mem_range.1 hi)
    obtain ⟨q, hq, rfl⟩ := hn.bijOn_number.surjOn (List.mem_range.1 hj)
    exact hn.precedes_renumber hp hq ((hn.number_lt_number_iff hp hq).1 hij)
  apply hn.renumber.pairwise_searchOrder.eq_of_mem_iff hrange
  intro q
  rw [hn.renumber.mem_searchOrder, List.mem_range, hn.renamed_renumber.size_eq]

/-! ## Renumbered automata -/

theorem WellFormed.number_start (hn : n.WellFormed) : n.number n.start = 0 := by
  by_contra hne
  obtain ⟨q, hq, hzero⟩ := hn.bijOn_number.surjOn (Set.mem_Iio.2 (Nat.zero_lt_of_lt hn.start_lt))
  have hlt : n.number q < n.number n.start := by omega
  rcases (hn.number_lt_number_iff hq hn.start_lt).1 hlt with ⟨u, v, -, hv, huv⟩ | ⟨hunreached, -⟩
  · apply hv.2 [] (.refl n.start)
    rcases List.shortlex_nil_or_eq_nil v with hnil | rfl
    · exact hnil
    · exact absurd huv List.not_shortlex_nil_right
  · exact hunreached ⟨[], .refl n.start⟩

/-- States that stand in the order of the search and bear their numbers keep both. -/
theorem WellFormed.renumber_eq_self (hn : n.WellFormed) (horder : n.searchOrder = List.range n.size)
    (hlabels : n.labels = .sequential n.size) :
    n.renumber = (n, (List.range n.size).map fun i => (toString i, toString i)) := by
  have hplace : ∀ q < n.size, n.number q = q := by
    intro q hq
    rw [number, horder]
    exact Index.place_range hq
  rw [renumber_eq, ← hlabels, hn.within.rename_eq_self hplace, horder]
  congr 1
  apply List.ext_getElem
  · simp
  · intro i hi _
    simp [label, hlabels, LabelTable.display_sequential]

theorem WellFormed.renumber_renumber (hn : n.WellFormed) :
    n.renumber.1.renumber =
      (n.renumber.1, (List.range n.size).map fun i => (toString i, toString i)) := by
  have hsize := hn.renamed_renumber.size_eq
  have horder := hn.searchOrder_renumber
  rw [← hsize] at horder
  have hself := hn.renumber.renumber_eq_self horder (by rw [hsize]; rfl)
  rw [hsize] at hself
  exact hself

/-- What it is to number the states of `n` in the order of a search: the automaton `m` is `n` with
the states renamed by `f`, and `names` has the old label and the new one of each state, by
number. -/
structure NumberedBySearch (n : Nfa) (f : Nat → Nat) (m : Nfa) (names : List (String × String)) :
    Prop where
  renamed : Renamed f n m
  start_eq : m.start = 0
  labels_eq : m.labels = .sequential n.size
  accepts_eq : ∀ w, m.accepts w = n.accepts w
  reached_first : ∀ p q, n.IsReached p → q < n.size → ¬ n.IsReached q → f p < f q
  nearer_first : ∀ p q i j, n.Distance p i → n.Distance q j → i < j → f p < f q
  rest_in_order : ∀ p q, p < q → q < n.size → ¬ n.IsReached p → ¬ n.IsReached q → f p < f q
  length_names : names.length = n.size
  name_eq : ∀ q < n.size, names[f q]? = some (n.label q, toString (f q))
  again : m.renumber = (m, (List.range n.size).map fun i => (toString i, toString i))

theorem numberedBySearch_renumber (hn : n.WellFormed) :
    NumberedBySearch n n.number n.renumber.1 n.renumber.2 := by
  have hnames : n.renumber.2 = n.searchOrder.mapIdx fun i q => (n.label q, toString i) :=
    congrArg Prod.snd n.renumber_eq
  refine { renamed := hn.renamed_renumber, start_eq := hn.number_start, labels_eq := rfl,
           accepts_eq := hn.accepts_renumber, reached_first := ?_, nearer_first := ?_,
           rest_in_order := ?_, length_names := ?_, name_eq := ?_, again := hn.renumber_renumber }
  · intro p q hp hqlt hq
    exact (hn.number_lt_number_iff (hn.lt_of_isReached hp) hqlt).2 (.inr ⟨hq, .inl hp⟩)
  · intro p q i j hp hq hij
    obtain ⟨w, hw, -⟩ := hp.attained
    obtain ⟨x, hx, -⟩ := hq.attained
    exact (hn.number_lt_number_iff (hn.lt_of_isReached ⟨w, hw⟩) (hn.lt_of_isReached ⟨x, hx⟩)).2
      (hn.precedes_of_distance_lt hp hq hij)
  · intro p q hpq hqlt hp hq
    exact (hn.number_lt_number_iff (hpq.trans hqlt) hqlt).2 (.inr ⟨hq, .inr hpq⟩)
  · rw [hnames, List.length_mapIdx, hn.length_searchOrder]
  · intro q hq
    have hplace : n.searchOrder[n.number q]? = some q :=
      Index.getElem?_place n.nodup_searchOrder (hn.mem_searchOrder.2 hq)
    rw [hnames, List.getElem?_mapIdx, hplace]
    rfl

/-- A state with two targets on one character and an empty move to the second of them, which comes
first. -/
theorem numberedBySearch_renumber_branch :
    let n : Nfa := ⟨⟨["w", "x", "y", "z"]⟩, 3, .singleton 1,
      .ofList [⟨3, .char 'a', 1⟩, ⟨3, .char 'a', 2⟩, ⟨3, .epsilon, 2⟩, ⟨0, .epsilon, 3⟩]⟩
    n.renumber.2 = [("z", "0"), ("y", "1"), ("x", "2"), ("w", "3")] ∧
      NumberedBySearch n n.number n.renumber.1 n.renumber.2 :=
  ⟨by decide +kernel, numberedBySearch_renumber (by decide +kernel)⟩

end Nfa

end RegularLanguages
