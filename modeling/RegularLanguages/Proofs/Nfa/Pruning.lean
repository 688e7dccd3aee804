import RegularLanguages.Proofs.Nfa.DeadStates

/-!
# Pruned automata

`prune` keeps the live states and the start, closes the gaps among their numbers and leaves all
else about them as it was (`partOn_restrict`). What is kept is live still, but for the start, since
the paths to accepting states are kept as a whole. So there is nothing left to prune
(`WellFormed.prune_prune`).
-/

namespace RegularLanguages.Nfa

variable {n m : Nfa} {keep : StateSet} {p q : Nat}

/-! ## Parts of automata under new numbers -/

/-- `PartOn keep f n m` says that `m` is the part of `n` on the states that `keep` holds of: its
states are their new numbers by `f`, which stand in the order of the old ones. -/
structure PartOn (keep : Nat → Prop) (f : Nat → Nat) (n m : Nfa) : Prop extends WellFormed m where
  bijOn : Set.BijOn f {q | keep q} (Set.Iio m.size)
  lt_iff : ∀ p q, keep p → keep q → (f p < f q ↔ p < q)
  label_eq : ∀ q, keep q → m.label (f q) = n.label q
  start_eq : m.start = f n.start
  mem_accepting_iff : ∀ q, keep q → (f q ∈ m.accepting ↔ q ∈ n.accepting)
  mem_edges_iff : ∀ p a q, keep p → keep q → (⟨f p, a, f q⟩ ∈ m.edges ↔ ⟨p, a, q⟩ ∈ n.edges)

/-- The number of a state when only those of a set are numbered. -/
def numberIn (keep : StateSet) (q : Nat) : Nat := (Index.ofList keep.toList).place q

theorem bijOn_numberIn (keep : StateSet) :
    Set.BijOn (numberIn keep) {q | q ∈ keep} (Set.Iio keep.toList.length) := by
  have hplaces := Index.bijOn_place keep.nodup_toList
  simp only [StateSet.mem_toList] at hplaces
  exact hplaces

theorem numberIn_inj (hp : p ∈ keep) (hq : q ∈ keep) : numberIn keep p = numberIn keep q ↔ p = q :=
  (bijOn_numberIn keep).injOn.eq_iff hp hq

theorem label_restrict (hn : n.WellFormed) (hkeep : ∀ q ∈ keep, q < n.size) (hq : q ∈ keep) :
    (n.restrict keep).label (numberIn keep q) = n.label q := by
  have hlabels : (n.restrict keep).labels = ⟨keep.toList.map n.label⟩ :=
    LabelTable.project_eq hn.labels_nodup keep.nodup_toList fun q hq =>
      hkeep q (StateSet.mem_toList.1 hq)
  rw [label, hlabels, numberIn, Index.place_ofList]
  exact LabelTable.display_idxOf (StateSet.mem_toList.2 hq)

theorem partOn_restrict (hn : n.WellFormed) (hkeep : ∀ q ∈ keep, q < n.size)
    (hstart : n.start ∈ keep) :
    PartOn (· ∈ keep) (numberIn keep) n (n.restrict keep) where
  toWellFormed := wellFormed_restrict hstart
  bijOn := by
    rw [size_restrict]
    exact bijOn_numberIn keep
  lt_iff p q hp hq :=
    Index.place_lt_place_iff keep.pairwise_toList
      (StateSet.mem_toList.2 hp) (StateSet.mem_toList.2 hq)
  label_eq q hq := label_restrict hn hkeep hq
  start_eq := rfl
  mem_accepting_iff q hq := by
    refine StateSet.mem_image.trans ⟨?_, fun hacc => ⟨q, StateSet.mem_inter.2 ⟨hacc, hq⟩, rfl⟩⟩
    rintro ⟨r, hr, hrq⟩
    obtain ⟨hacc, hrkeep⟩ := StateSet.mem_inter.1 hr
    rw [← (numberIn_inj hrkeep hq).1 hrq]
    exact hacc
  mem_edges_iff p a q hp hq := by
    refine mem_edges_rename.trans ⟨?_, fun he => ⟨p, q, rfl, rfl, mem_edges_part.2 ⟨he, hp, hq⟩⟩⟩
    rintro ⟨p', q', hpp, hqq, hpart⟩
    obtain ⟨he, hp', hq'⟩ := mem_edges_part.1 hpart
    rw [(numberIn_inj hp' hp).1 hpp, (numberIn_inj hq' hq).1 hqq] at he
    exact he

/-- Automata that agree on the states in a set have one part on it. -/
theorem restrict_congr (hlabels : ∀ q ∈ keep, m.label q = n.label q) (hstart : m.start = n.start)
    (haccepting : ∀ q ∈ keep, q ∈ m.accepting ↔ q ∈ n.accepting)
    (hedges : ∀ p a q, p ∈ keep → q ∈ keep → (⟨p, a, q⟩ ∈ m.edges ↔ ⟨p, a, q⟩ ∈ n.edges)) :
    m.restrict keep = n.restrict keep := by
  have hlabels : m.labels.project keep.toList = n.labels.project keep.toList :=
    LabelTable.project_congr fun q hq => hlabels q (StateSet.mem_toList.1 hq)
  have haccepting : (m.part keep).accepting = (n.part keep).accepting := by
    ext q
    rw [part, part, StateSet.mem_inter, StateSet.mem_inter]
    exact and_congr_left (haccepting q)
  have hedges : (m.part keep).edges = (n.part keep).edges := by
    ext ⟨p, a, q⟩
    rw [mem_edges_part, mem_edges_part]
    exact and_congr_left fun h => hedges p a q h.1 h.2
  have hstart : (m.part keep).start = (n.part keep).start := hstart
  rw [restrict_eq_rename, restrict_eq_rename, rename, rename, hlabels, hstart, haccepting, hedges]

theorem WellFormed.restrict_eq_self (hn : n.WellFormed) (hkeep : ∀ q, q ∈ keep ↔ q < n.size) :
    n.restrict keep = n := by
  have hstates : keep.toList = List.range n.size :=
    StateSet.toList_eq_of_mem_iff List.pairwise_lt_range fun q =>
      (hkeep q).trans List.mem_range.symm
  have haccepting : n.accepting ∩ keep = n.accepting := by
    ext q
    rw [StateSet.mem_inter, hkeep, and_iff_left_of_imp (hn.accepting_lt q)]
  have hedges : (n.part keep).edges = n.edges := by
    ext ⟨p, a, q⟩
    rw [mem_edges_part, hkeep, hkeep, and_iff_left_of_imp hn.ends_lt]
  have hpart : n.part keep = n := by
    change Nfa.mk n.labels n.start (n.accepting ∩ keep) (n.part keep).edges = n
    rw [haccepting, hedges]
  rw [restrict_eq_rename, hpart, hstates, size, LabelTable.project_range hn.labels_nodup]
  exact hn.within.rename_eq_self fun q hq => Index.place_range hq

/-! ## Pruning twice -/

theorem WellFormed.partOn_prune (hn : n.WellFormed) :
    PartOn (· ∈ n.kept) (numberIn n.kept) n n.prune :=
  partOn_restrict hn (fun _ hq => hn.kept_lt hq) n.start_mem_kept

theorem number_mem_liveStates_prune (hq : q ∈ n.liveStates) :
    numberIn n.kept q ∈ n.prune.liveStates := by
  have hkept : ∀ {q}, q ∈ n.liveStates → q ∈ n.kept := fun hq => mem_kept.2 (.inr hq)
  obtain ⟨r, hr, w, hpath⟩ := mem_liveStates.1 hq
  have hrkept := hkept (mem_liveStates.2 ⟨r, hr, [], .refl r⟩)
  have hpart := hpath.part (fun _ => hkept) (hkept hq) hr
  refine mem_liveStates.2 ⟨numberIn n.kept r, StateSet.mem_image.2
    ⟨r, StateSet.mem_inter.2 ⟨hr, hrkept⟩, rfl⟩, w, ?_⟩
  exact Path.rename (fun e he => SortedSet.mem_image.2 ⟨e, he, rfl⟩) hpart

theorem WellFormed.mem_kept_prune (hn : n.WellFormed) : q ∈ n.prune.kept ↔ q < n.prune.size := by
  refine ⟨(wellFormed_prune n).kept_lt, fun hq => ?_⟩
  obtain ⟨p, hp, rfl⟩ := hn.partOn_prune.bijOn.surjOn hq
  rcases mem_kept.1 hp with rfl | hlive
  · exact mem_kept.2 (.inl rfl)
  · exact mem_kept.2 (.inr (number_mem_liveStates_prune hlive))

theorem WellFormed.prune_prune (hn : n.WellFormed) : n.prune.prune = n.prune :=
  (wellFormed_prune n).restrict_eq_self fun _ => hn.mem_kept_prune

/-! ## What pruning does -/

/-- What it is to take the dead states out of `n`: the automaton `m` is the part of `n` on the live
states and the start, which `f` numbers. -/
structure WithoutDeadStates (n : Nfa) (f : Nat → Nat) (m : Nfa) : Prop where
  mem_liveStates_iff : ∀ q, q ∈ n.liveStates ↔ q < n.size ∧ ∃ r ∈ n.accepting, ∃ w, Path n q w r
  partOn : PartOn (fun q => q = n.start ∨ q ∈ n.liveStates) f n m
  accepting_live : ∀ q ∈ n.accepting, q ∈ n.liveStates
  accepts_eq : ∀ w, m.accepts w = n.accepts w
  again : m.prune = m

theorem withoutDeadStates_prune (hn : n.WellFormed) :
    WithoutDeadStates n (numberIn n.kept) n.prune where
  mem_liveStates_iff q := by
    rw [← mem_liveStates]
    exact ⟨fun hq => ⟨hn.liveStates_lt hq, hq⟩, And.right⟩
  partOn := by
    have hpart := hn.partOn_prune
    simp only [mem_kept] at hpart
    exact hpart
  accepting_live q hq := mem_liveStates.2 ⟨q, hq, [], .refl q⟩
  accepts_eq := accepts_prune n
  again := hn.prune_prune

/-- The start is dead, and its only neighbour goes. The live states stay, though the start does not
reach them. -/
theorem withoutDeadStates_prune_deadStart :
    let n : Nfa := ⟨⟨["a", "1", "b", "0"]⟩, 2, .singleton 3,
      .ofList [⟨2, .char 'x', 1⟩, ⟨1, .epsilon, 2⟩, ⟨0, .epsilon, 3⟩, ⟨3, .char 'y', 3⟩,
        ⟨3, .char 'x', 1⟩]⟩
    n.prune = ⟨⟨["a", "b", "0"]⟩, 1, .singleton 2, .ofList [⟨0, .epsilon, 2⟩, ⟨2, .char 'y', 2⟩]⟩ ∧
      WithoutDeadStates n (numberIn n.kept) n.prune :=
  ⟨by decide +kernel, withoutDeadStates_prune (by decide +kernel)⟩

end RegularLanguages.Nfa
