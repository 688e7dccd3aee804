import RegularLanguages.Dfa.Subsets
import RegularLanguages.Proofs.BreadthFirst
import RegularLanguages.Proofs.Dfa.Runs
import RegularLanguages.Proofs.Places

/-!
# Automata numbered by a search

Determinization and minimization both number the nodes of a search in the order of their visits,
and both make the edges of the search the moves of an automaton. The runs of such an automaton are
the walks of the search (`Tabulates.run_eq_some_iff`), and its states stand in the order of the
least words that lead to them (`Tabulates.numberedByWords`).
-/

namespace RegularLanguages

/-! ## Characters and rows in ascending order -/

theorem before_char_iff {a b : Char} : Key.before a b = true ↔ a < b := by
  rw [show Key.before a b = Nat.blt a.toNat b.toNat from rfl, Nat.blt_eq]
  exact Iff.rfl

theorem SortedSet.pairwise_lt (s : SortedSet Char) : s.toList.Pairwise (· < ·) :=
  s.ascending.imp before_char_iff.1

theorem pairwise_filterMap_alphabet {α : Type} (s : SortedSet Char) {f : Char → Option (Char × α)}
    (hf : ∀ c e, f c = some e → e.1 = c) :
    (s.toList.filterMap f).Pairwise fun d e => d.1 < e.1 := by
  rw [List.pairwise_filterMap]
  apply s.pairwise_lt.imp
  intro a b hab d hd e he
  rw [hf a d hd, hf b e he]
  exact hab

theorem eq_of_mem_row {α : Type} {row : List (Char × α)} (h : row.Pairwise fun d e => d.1 < e.1)
    {c : Char} {x y : α} (hx : (c, x) ∈ row) (hy : (c, y) ∈ row) : x = y := by
  have hnodup : (row.map (·.1)).Nodup := by
    rw [List.Nodup, List.pairwise_map]
    exact h.imp fun hlt => ne_of_lt hlt
  exact congrArg Prod.snd (List.inj_on_of_nodup_map hnodup hx hy rfl)

/-! ## Places -/

theorem StateSet.mem_placesWhere {α : Type} {p : α → Bool} {l : List α} {i : Nat} :
    i ∈ placesWhere p l ↔ ∃ x, l[i]? = some x ∧ p x = true := by
  unfold placesWhere
  rw [mem_ofList, List.mem_filterMap]
  constructor
  · rintro ⟨⟨x, j⟩, hmem, hx⟩
    rw [List.mem_zipIdx_iff_getElem?] at hmem
    simp only [Option.ite_none_right_eq_some, Option.some.injEq] at hx
    obtain ⟨hp, rfl⟩ := hx
    exact ⟨x, hmem, hp⟩
  · rintro ⟨x, hx, hp⟩
    exact ⟨(x, i), List.mem_zipIdx_iff_getElem?.2 hx, if_pos hp⟩

namespace Dfa

open Search

variable {α : Type} [Key α] {next : α → List (Char × α)} {start : α} {visits : List (Visit α Char)}

/-! ## The moves between visits -/

theorem mem_place_visits (h : Found next start visits) {t : α} {j : Nat} :
    (Index.ofList (visits.map (·.node))).place? t = some j ↔
      ∃ v, visits[j]? = some v ∧ v.node = t := by
  rw [Index.place?_eq_some_iff h.nodup, List.getElem?_map, Option.map_eq_some_iff]

theorem get?_numberedMoves (hrows : ∀ x, (next x).Pairwise fun d e => d.1 < e.1)
    (h : Found next start visits) {i j : Nat} {c : Char} :
    (numberedMoves visits).get? (i, c) = some j ↔
      ∃ u v, visits[i]? = some u ∧ visits[j]? = some v ∧ (c, v.node) ∈ next u.node := by
  have hentry : ∀ {j : Nat}, ((i, c), j) ∈ (visits.mapIdx fun i v => v.edges.filterMap fun e =>
      ((Index.ofList (visits.map (·.node))).place? e.2).map fun j => ((i, e.1), j)).flatten ↔
      ∃ u v, visits[i]? = some u ∧ visits[j]? = some v ∧ (c, v.node) ∈ next u.node := by
    intro j
    simp only [List.mem_flatten, List.mem_mapIdx]
    constructor
    · rintro ⟨_, ⟨k, hk, rfl⟩, hmem⟩
      obtain ⟨⟨a, t⟩, he, hmap⟩ := List.mem_filterMap.1 hmem
      obtain ⟨m, hm, heq⟩ := Option.map_eq_some_iff.1 hmap
      cases heq
      obtain ⟨v, hv, rfl⟩ := (mem_place_visits h).1 hm
      rw [h.edges_eq _ (List.getElem_mem hk)] at he
      exact ⟨_, v, List.getElem?_eq_getElem hk, hv, he⟩
    · rintro ⟨u, v, hu, hv, he⟩
      obtain ⟨hi, rfl⟩ := List.getElem?_eq_some_iff.1 hu
      refine ⟨_, ⟨i, hi, rfl⟩, List.mem_filterMap.2 ⟨(c, v.node), ?_, ?_⟩⟩
      · rw [h.edges_eq _ (List.getElem_mem hi)]
        exact he
      · simp only [(mem_place_visits h).2 ⟨v, hv, rfl⟩, Option.map_some]
  rw [numberedMoves, SortedMap.get?_ofList, SortedMap.find?_eq_some_iff_of_unique, hentry]
  -- A node has one move for each character, and one place among the visits.
  intro j k hj hk
  obtain ⟨u, v, hu, hv, he⟩ := hentry.1 hj
  obtain ⟨u', v', hu', hv', he'⟩ := hentry.1 hk
  rw [hu, Option.some.injEq] at hu'
  subst hu'
  have hnode := eq_of_mem_row (hrows u.node) he he'
  have hplace := (mem_place_visits h).2 ⟨v, hv, hnode⟩
  rw [(mem_place_visits h).2 ⟨v', hv', rfl⟩, Option.some.injEq] at hplace
  exact hplace.symm

/-- `d.Tabulates next start visits` says that the states of `d` are the nodes that a search from
`start` visits, numbered in the order of the visits, and that its moves are the edges between
them. -/
structure Tabulates (d : Dfa) (next : α → List (Char × α)) (start : α)
    (visits : List (Visit α Char)) : Prop extends Enumerates next start visits where
  rows : ∀ x, (next x).Pairwise fun d e => d.1 < e.1
  size_eq : d.size = visits.length
  start_eq : d.start = 0
  moves_eq : d.moves = numberedMoves visits

namespace Tabulates

variable {d : Dfa}

theorem step_eq_some_iff (h : d.Tabulates next start visits) {i j : Nat} {c : Char} :
    d.step i c = some j ↔
      ∃ u v, visits[i]? = some u ∧ visits[j]? = some v ∧ (c, v.node) ∈ next u.node := by
  rw [step, h.moves_eq, get?_numberedMoves h.rows h.toFound]

theorem place_inj (h : d.Tabulates next start visits) {i j : Nat} {u v : Visit α Char}
    (hu : visits[i]? = some u) (hv : visits[j]? = some v) (hnode : u.node = v.node) : i = j := by
  have hi := (mem_place_visits h.toFound).2 ⟨u, hu, hnode⟩
  rw [(mem_place_visits h.toFound).2 ⟨v, hv, rfl⟩, Option.some.injEq] at hi
  exact hi.symm

theorem exists_place (h : d.Tabulates next start visits) {w : List Char} {y : α}
    (hw : Spells next start w y) :
    ∃ (j : Nat) (v : Visit α Char), visits[j]? = some v ∧ v.node = y := by
  obtain ⟨v, hv, hnode⟩ := h.covers w y hw
  obtain ⟨j, hj⟩ := List.getElem?_of_mem hv
  exact ⟨j, v, hj, hnode⟩

theorem lt_size_iff (h : d.Tabulates next start visits) {i : Nat} :
    i < d.size ↔ ∃ v, visits[i]? = some v := by
  rw [h.size_eq]
  constructor
  · intro hi
    exact ⟨_, List.getElem?_eq_getElem hi⟩
  · rintro ⟨v, hv⟩
    exact (List.getElem?_eq_some_iff.1 hv).1

theorem word_lt_iff (h : d.Tabulates next start visits) {i j : Nat} {u v : Visit α Char}
    (hu : visits[i]? = some u) (hv : visits[j]? = some v) :
    i < j ↔ List.Shortlex (· < ·) u.word v.word := by
  have hlt : ∀ {i j : Nat} {u v : Visit α Char}, visits[i]? = some u → visits[j]? = some v → i < j →
      List.Shortlex (· < ·) u.word v.word := by
    intro i j u v hu hv hij
    obtain ⟨hi, rfl⟩ := List.getElem?_eq_some_iff.1 hu
    obtain ⟨hj, rfl⟩ := List.getElem?_eq_some_iff.1 hv
    exact List.pairwise_iff_getElem.1 h.ascending i j hi hj hij
  constructor
  · exact hlt hu hv
  · intro hword
    rcases Nat.lt_trichotomy i j with hij | rfl | hji
    · exact hij
    · rw [hu, Option.some.injEq] at hv
      rw [hv] at hword
      exact absurd hword (shortlex_irrefl _)
    · exact absurd (shortlex_trans hword (hlt hv hu hji)) (shortlex_irrefl _)

theorem getElem?_zero (h : d.Tabulates next start visits) :
    ∃ v, visits[0]? = some v ∧ v.node = start := by
  obtain ⟨j, v, hv, hnode⟩ := h.exists_place (.refl start)
  have hnil : v.word = [] := by
    have hleast := h.least v (List.mem_of_getElem? hv)
    rw [hnode] at hleast
    have hle := hleast.2 [] (.refl start)
    cases hword : v.word with
    | nil => rfl
    | cons c w =>
        rw [hword] at hle
        exact absurd (List.Shortlex.of_length_lt (by simp)) hle
  have hzero : j = 0 := by
    by_contra hne
    have hpos : 0 < j := Nat.pos_of_ne_zero hne
    have hlen : 0 < visits.length := Nat.zero_lt_of_lt (List.getElem?_eq_some_iff.1 hv).1
    have hword := (h.word_lt_iff (List.getElem?_eq_getElem hlen) hv).1 hpos
    rw [hnil] at hword
    exact List.not_shortlex_nil_right hword
  exact ⟨v, hzero ▸ hv, hnode⟩

/-! ## Runs and walks -/

/-- The runs of the automaton are the walks of the search. -/
theorem run_eq_some_iff (h : d.Tabulates next start visits) {w : List Char} {j : Nat} :
    d.run d.start w = some j ↔ ∃ v, visits[j]? = some v ∧ Spells next start w v.node := by
  rw [h.start_eq]
  induction w using List.reverseRecOn generalizing j with
  | nil =>
      obtain ⟨v, hv, hnode⟩ := h.getElem?_zero
      constructor
      · intro hj
        cases hj
        rw [← hnode]
        exact ⟨v, hv, .refl v.node⟩
      · rintro ⟨u, hu, hspells⟩
        have hstart : u.node = v.node := by
          rw [hnode]
          cases hspells
          rfl
        rw [h.place_inj hu hv hstart]
        rfl
  | append_singleton w c ih =>
      rw [run_concat, Option.bind_eq_some_iff]
      constructor
      · rintro ⟨i, hi, hstep⟩
        obtain ⟨u, v, hu, hv, he⟩ := h.step_eq_some_iff.1 hstep
        obtain ⟨u', hu', hspells⟩ := ih.1 hi
        rw [hu, Option.some.injEq] at hu'
        subst hu'
        exact ⟨v, hv, spells_append.2 ⟨_, hspells, spells_singleton.2 he⟩⟩
      · rintro ⟨v, hv, hspells⟩
        obtain ⟨x, hx, hc⟩ := spells_append.1 hspells
        obtain ⟨i, u, hu, rfl⟩ := h.exists_place hx
        exact ⟨i, ih.2 ⟨u, hu, hx⟩, h.step_eq_some_iff.2 ⟨u, v, hu, hv, spells_singleton.1 hc⟩⟩

/-- The least word that leads to a state is that of its visit. -/
theorem leastWord_iff (h : d.Tabulates next start visits) {i : Nat} {w : List Char} :
    d.LeastWord i w ↔ ∃ v, visits[i]? = some v ∧ v.word = w := by
  have hrun : ∀ {v : Visit α Char} {u : List Char}, visits[i]? = some v →
      (d.run d.start u = some i ↔ Spells next start u v.node) := by
    intro v u hv
    rw [h.run_eq_some_iff, hv]
    simp
  constructor
  · rintro ⟨hw, hleast⟩
    obtain ⟨v, hv, hspells⟩ := h.run_eq_some_iff.1 hw
    refine ⟨v, hv, (h.least v (List.mem_of_getElem? hv)).unique ⟨hspells, fun u hu => ?_⟩⟩
    exact hleast u ((hrun hv).2 hu)
  · rintro ⟨v, hv, rfl⟩
    have hleast := h.least v (List.mem_of_getElem? hv)
    exact ⟨(hrun hv).2 hleast.1, fun u hu => hleast.2 u ((hrun hv).1 hu)⟩

theorem numberedByWords (h : d.Tabulates next start visits) : d.NumberedByWords where
  exists_leastWord q hq := by
    obtain ⟨v, hv⟩ := h.lt_size_iff.1 hq
    exact ⟨v.word, h.leastWord_iff.2 ⟨v, hv, rfl⟩⟩
  lt_iff p q u v hp hq := by
    obtain ⟨x, hx, rfl⟩ := h.leastWord_iff.1 hp
    obtain ⟨y, hy, rfl⟩ := h.leastWord_iff.1 hq
    exact h.word_lt_iff hx hy

theorem ends_lt (h : d.Tabulates next start visits) {i j : Nat} {c : Char}
    (hstep : d.step i c = some j) : i < d.size ∧ j < d.size := by
  obtain ⟨u, v, hu, hv, -⟩ := h.step_eq_some_iff.1 hstep
  exact ⟨h.lt_size_iff.2 ⟨u, hu⟩, h.lt_size_iff.2 ⟨v, hv⟩⟩

theorem size_pos (h : d.Tabulates next start visits) : 0 < d.size := by
  obtain ⟨v, hv, -⟩ := h.getElem?_zero
  exact h.lt_size_iff.2 ⟨v, hv⟩

end Tabulates

end Dfa

end RegularLanguages
