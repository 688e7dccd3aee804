import RegularLanguages.Proofs.Dfa.Determinization
import RegularLanguages.Proofs.Dfa.NormalForm
import RegularLanguages.Proofs.Nfa.Renumbering

/-!
# Determinization of isomorphic automata

The steps of isomorphic automata lead to the images of each other's sets (`Renamed.step_image`).
The search through the sets takes the characters in order and does not look at the states in a set,
so it finds the images in the order of the sets. What is left of the states in the deterministic
automaton is the sets that its states stand for: all else is the same (`determinize_of_renamed`).
-/

namespace RegularLanguages

open Search

/-! ## Automata of one search -/

namespace Dfa

/-- `SubsetsRenamed f d e` says that `e` is the automaton `d`, except that the sets which its
states stand for are renamed by `f`. -/
structure SubsetsRenamed (f : Nat → Nat) (d e : Dfa) : Prop where
  size_eq : e.size = d.size
  start_eq : e.start = d.start
  accepting_eq : e.accepting = d.accepting
  moves_eq : e.moves = d.moves
  alphabet_eq : e.alphabet = d.alphabet
  labels_eq : e.labels = d.labels
  subset_eq : ∀ q, e.subset? q = (d.subset? q).map (·.image f)

section Tabulates

variable {α β : Type} [Key α] [Key β] {inside : α → Prop} {f : α → β} {next : α → List (Char × α)}
  {next' : β → List (Char × β)} {start : α} {visits : List (Visit α Char)}
  {visits' : List (Visit β Char)}
  {d e : Dfa}

theorem Tabulates.visits_rename (hd : d.Tabulates next start visits)
    (he : e.Tabulates next' (f start) visits')
    (hc : Carries inside id f next next') (hstart : inside start) :
    visits' = visits.map (renameVisit id f next') :=
  he.toEnumerates.unique (hd.toEnumerates.rename hc hstart (keepsLeast_id next start))

/-- The moves are between the numbers of the visits, and the names of the nodes do not come into
them. -/
theorem Tabulates.moves_rename (hd : d.Tabulates next start visits)
    (he : e.Tabulates next' (f start) visits')
    (hc : Carries inside id f next next') (hstart : inside start) : e.moves = d.moves := by
  have hinside : ∀ {i : Nat} {v : Visit α Char}, visits[i]? = some v → inside v.node := fun hv =>
    hc.inside_of_spells hstart (hd.least _ (List.mem_of_getElem? hv)).1
  have hedge : ∀ {c : Char} {u v : Visit α Char} {i j : Nat}, visits[i]? = some u →
      visits[j]? = some v →
      ((c, f v.node) ∈ next' (f u.node) ↔ (c, v.node) ∈ next u.node) := by
    intro c u v i j hu hv
    rw [hc.mem_iff (hinside hu)]
    constructor
    · rintro ⟨_, y, hy, rfl, heq⟩
      rw [hc.inj (hc.closed (hinside hu) hy) (hinside hv) heq] at hy
      exact hy
    · intro hv
      exact ⟨c, v.node, hv, rfl, rfl⟩
  apply SortedMap.ext
  rintro ⟨i, c⟩
  change e.step i c = d.step i c
  ext j
  rw [he.step_eq_some_iff, hd.step_eq_some_iff, hd.visits_rename he hc hstart]
  simp only [List.getElem?_map, Option.map_eq_some_iff]
  constructor
  · rintro ⟨_, _, ⟨u, hu, rfl⟩, ⟨v, hv, rfl⟩, he⟩
    exact ⟨u, v, hu, hv, (hedge hu hv).1 he⟩
  · rintro ⟨u, v, hu, hv, he⟩
    exact ⟨_, _, ⟨u, hu, rfl⟩, ⟨v, hv, rfl⟩, (hedge hu hv).2 he⟩

end Tabulates

end Dfa

namespace Nfa

variable {n m : Nfa} {f : Nat → Nat} {s t : StateSet} {p y : Nat} {w : List Char}

/-! ## Images of sets -/

def Holds (n : Nfa) (s : StateSet) : Prop := ∀ q ∈ s, q < n.size

theorem image_eq_empty_iff : s.image f = ∅ ↔ s = ∅ := by
  rw [← StateSet.isEmpty_iff, ← StateSet.isEmpty_iff, StateSet.isEmpty_iff_forall,
    StateSet.isEmpty_iff_forall]
  constructor
  · intro h q hq
    exact h (f q) (StateSet.mem_image.2 ⟨q, hq, rfl⟩)
  · intro h p hp
    obtain ⟨q, hq, -⟩ := StateSet.mem_image.1 hp
    exact h q hq

namespace Renamed

theorem image_inj (h : Renamed f n m) (hs : n.Holds s) (ht : n.Holds t)
    (himage : s.image f = t.image f) :
    s = t := by
  have hsub : ∀ {s t : StateSet}, n.Holds s → n.Holds t → s.image f = t.image f →
      ∀ q ∈ s, q ∈ t := by
    intro s t hs ht himage q hq
    have hmem : f q ∈ t.image f := himage ▸ StateSet.mem_image.2 ⟨q, hq, rfl⟩
    obtain ⟨r, hr, hrq⟩ := StateSet.mem_image.1 hmem
    rw [← h.bijOn.injOn (ht r hr) (hs q hq) hrq]
    exact hr
  apply StateSet.ext
  intro q
  exact ⟨hsub hs ht himage q, hsub ht hs himage.symm q⟩

theorem path_iff (h : Renamed f n m) (hn : n.WellFormed) (hp : p < n.size) :
    Path m (f p) w y ↔ ∃ q, f q = y ∧ Path n p w q := by
  constructor
  · intro hpath
    have hstay : ∀ p a y, p < n.size → ⟨f p, a, y⟩ ∈ m.edges →
        ∃ q, f q = y ∧ q < n.size ∧ ⟨p, a, q⟩ ∈ n.edges := by
      intro p a y hp he
      obtain ⟨q, he, hq⟩ := (h.edge_iff hn hp).1 he
      exact ⟨q, hq, (hn.ends_lt he).2, he⟩
    obtain ⟨q, hq, -, hpath⟩ := Path.of_rename hstay hp hpath
    exact ⟨q, hq, hpath⟩
  · rintro ⟨q, rfl, hpath⟩
    exact Path.rename
      (fun e he => (h.mem_edges_iff _ _ _).2 ⟨e.source, e.target, he, rfl, rfl⟩) hpath

theorem step_image (h : Renamed f n m) (hn : n.WellFormed) (hs : n.Holds s) (c : Char) :
    m.step (s.image f) c = (n.step s c).image f := by
  apply StateSet.ext
  intro y
  rw [mem_step, StateSet.mem_image]
  constructor
  · rintro ⟨_, himage, o, hedge, hway⟩
    obtain ⟨p, hp, rfl⟩ := StateSet.mem_image.1 himage
    obtain ⟨q, he, rfl⟩ := (h.edge_iff hn (hs p hp)).1 hedge
    obtain ⟨r, rfl, hpath⟩ := (h.path_iff hn (hn.ends_lt he).2).1 hway
    exact ⟨r, mem_step.2 ⟨p, hp, q, he, hpath⟩, rfl⟩
  · rintro ⟨r, hr, rfl⟩
    obtain ⟨p, hp, q, he, hpath⟩ := mem_step.1 hr
    exact ⟨f p, StateSet.mem_image.2 ⟨p, hp, rfl⟩, f q, (h.edge_iff hn (hs p hp)).2 ⟨q, he, rfl⟩,
      (h.path_iff hn (hn.ends_lt he).2).2 ⟨r, rfl, hpath⟩⟩

theorem initial_image (h : Renamed f n m) (hn : n.WellFormed) : m.initial = n.initial.image f := by
  apply StateSet.ext
  intro y
  rw [StateSet.mem_image]
  change y ∈ m.stepAll m.initial [] ↔ ∃ q ∈ n.stepAll n.initial [], f q = y
  simp only [mem_stepAll_initial, h.start_eq, h.path_iff hn hn.start_lt, and_comm]

theorem isAccepting_image (h : Renamed f n m) (hn : n.WellFormed) (hs : n.Holds s) :
    m.isAccepting (s.image f) = n.isAccepting s := by
  rw [Bool.eq_iff_iff, isAccepting_iff, isAccepting_iff]
  constructor
  · rintro ⟨y, hy, hacc⟩
    obtain ⟨q, hq, rfl⟩ := StateSet.mem_image.1 hy
    obtain ⟨r, hr, hrq⟩ := (h.mem_accepting_iff _).1 hacc
    rw [h.bijOn.injOn (hn.accepting_lt r hr) (hs q hq) hrq] at hr
    exact ⟨q, hq, hr⟩
  · rintro ⟨q, hq, hacc⟩
    exact ⟨f q, StateSet.mem_image.2 ⟨q, hq, rfl⟩, (h.mem_accepting_iff _).2 ⟨q, hacc, rfl⟩⟩

/-- The search through the sets of `m` goes along the images. -/
theorem carries_setMoves (h : Renamed f n m) (hn : n.WellFormed) :
    Carries n.Holds id (·.image f) n.setMoves m.setMoves where
  closed hs he := by
    obtain ⟨rfl, -⟩ := mem_setMoves.1 he
    intro r hr
    obtain ⟨p, -, q, hedge, hpath⟩ := mem_step.1 hr
    exact hn.path_lt hpath (hn.ends_lt hedge).2
  inj hs ht himage := h.image_inj hs ht himage
  mem_iff {s c u} hs := by
    rw [mem_setMoves, h.step_image hn hs]
    constructor
    · rintro ⟨rfl, hne⟩
      exact ⟨c, n.step s c,
        mem_setMoves.2 ⟨rfl, fun hempty => hne (image_eq_empty_iff.2 hempty)⟩, rfl, rfl⟩
    · rintro ⟨_, t, ht, rfl, rfl⟩
      obtain ⟨rfl, hne⟩ := mem_setMoves.1 ht
      exact ⟨rfl, fun hempty => hne (image_eq_empty_iff.1 hempty)⟩

end Renamed

/-! ## The deterministic automata -/

theorem WellFormed.holds_initial (hn : n.WellFormed) : n.Holds n.initial := by
  intro q hq
  have hmem : q ∈ n.stepAll n.initial [] := hq
  exact hn.stepAll_lt hmem

theorem WellFormed.holds_of_subset? (hn : n.WellFormed) {q : Nat}
    (h : n.determinize.subset? q = some s) :
    n.Holds s := by
  have htab := tabulates_determinize hn
  rw [subset?_determinize, Option.map_eq_some_iff] at h
  obtain ⟨v, hv, rfl⟩ := h
  obtain ⟨hstep, -⟩ :=
    (spells_setMoves_iff n.initial_ne_empty).1 (htab.least v (List.mem_of_getElem? hv)).1
  intro q hq
  rw [← hstep] at hq
  exact hn.stepAll_lt hq

/-- The deterministic automata of isomorphic ones are equal up to the names in the sets. -/
theorem determinize_of_renamed (hn : n.WellFormed) (hm : m.WellFormed) (h : Renamed f n m) :
    Dfa.SubsetsRenamed f n.determinize m.determinize := by
  have hcarries := h.carries_setMoves hn
  have htab := tabulates_determinize hn
  have htab' := tabulates_determinize hm
  rw [h.initial_image hn] at htab'
  have hvisits := htab.visits_rename htab' hcarries hn.holds_initial
  have hmoves := htab.moves_rename htab' hcarries hn.holds_initial
  have hsubset : ∀ q, m.determinize.subset? q = (n.determinize.subset? q).map (·.image f) := by
    intro q
    rw [subset?_determinize, subset?_determinize, hvisits, List.getElem?_map, Option.map_map,
      Option.map_map]
    rfl
  have hsize : m.determinize.size = n.determinize.size := by
    rw [htab'.size_eq, htab.size_eq, hvisits, List.length_map]
  refine { size_eq := hsize, start_eq := rfl, accepting_eq := ?_, moves_eq := hmoves,
           alphabet_eq := Dfa.alphabet_congr hmoves, labels_eq := ?_, subset_eq := hsubset }
  · apply StateSet.ext
    intro q
    rw [mem_accepting_determinize, mem_accepting_determinize]
    simp only [hsubset, Option.map_eq_some_iff]
    constructor
    · rintro ⟨_, ⟨s, hs, rfl⟩, hacc⟩
      rw [h.isAccepting_image hn (hn.holds_of_subset? hs)] at hacc
      exact ⟨s, hs, hacc⟩
    · rintro ⟨s, hs, hacc⟩
      rw [← h.isAccepting_image hn (hn.holds_of_subset? hs)] at hacc
      exact ⟨_, ⟨s, hs, rfl⟩, hacc⟩
  · rw [determinize, determinize, List.length_map, List.length_map, hvisits, List.length_map]

/-- An automaton and the same renumbered: the sets are found in one order, though their states are
not. -/
theorem determinize_of_renamed_renumber :
    let n : Nfa :=
      ⟨.sequential 3, 2, .singleton 0,
        .ofList [⟨2, .char 'a', 0⟩, ⟨2, .char 'b', 1⟩, ⟨1, .epsilon, 0⟩]⟩
    n.renumber.1.determinize.subset? 2 = some (.ofList [1, 2]) ∧
      Dfa.SubsetsRenamed n.number n.determinize n.renumber.1.determinize :=
  ⟨by decide +kernel, determinize_of_renamed (by decide +kernel) (by decide +kernel)
    (WellFormed.renamed_renumber (by decide +kernel))⟩

end Nfa

end RegularLanguages
