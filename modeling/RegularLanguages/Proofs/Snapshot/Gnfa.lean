import RegularLanguages.Proofs.Gnfa.Labels
import RegularLanguages.Proofs.Regex.Nesting
import RegularLanguages.Proofs.Snapshot.Rows

/-!
# Snapshots of generalized automata

Eliminations leave gaps among the numbers of states, and a snapshot closes them: the states come
back in the same order, numbered from `0` on (`Gnfa.Writable.ofSnapshot_snapshot`). Labels come
back in another nesting, which their texts do not show, so that a second snapshot is the first one
(`Gnfa.Writable.snapshot_compact`).
-/

namespace RegularLanguages.Gnfa

open Regex SnapshotFormat

/-! ## Automata that can be written -/

/-- A generalized automaton whose states have labels of their own, and whose edges have labels that
are read as they were written, but for the nesting. -/
structure Writable (g : Gnfa) : Prop extends WellFormed g where
  labels_nodup : g.labels.toList.Nodup
  states_lt : ∀ q ∈ g.states, q < g.labels.size
  noLeadingUnit : Labelled NoLeadingUnit g.edges
  letters : Labelled (fun r => ∀ c ∈ r.letters, Symbol.isInput c = true) g.edges

theorem writable_ofNfa {n : Nfa} (hn : n.WellFormed) (hread : n.Readable) : (ofNfa n).Writable where
  toWellFormed := wellFormed_ofNfa hn
  labels_nodup := LabelTable.nodup_internFresh (LabelTable.nodup_internFresh hn.labels_nodup _) _
  states_lt := by
    intro q hq
    have hlt : q < n.size + 2 := StateSet.mem_below.1 hq
    have hsize : (ofNfa n).labels.size = n.size + 2 := by
      rw [ofNfa, LabelTable.size_internFresh, LabelTable.size_internFresh, Nfa.size]
    omega
  noLeadingUnit := labelled_ofNfa inherited_noLeadingUnit.kept fun _ _ => trivial
  letters := by
    apply labelled_ofNfa (inherited_letters _).kept
    intro c hc d hd
    rw [List.mem_singleton.1 hd]
    exact hread c hc

theorem writable_ofSnapshot {s : Snapshot} {g : Gnfa} (h : ofSnapshot s = .ok g) : g.Writable where
  toWellFormed := wellFormed_ofSnapshot h
  labels_nodup := by
    obtain ⟨_, _, _, -, -, -, -, rfl⟩ := ofSnapshot_eq_ok_iff.1 h
    exact LabelTable.nodup_ofList _
  states_lt := by
    obtain ⟨_, _, _, -, -, -, -, rfl⟩ := ofSnapshot_eq_ok_iff.1 h
    exact fun q hq => StateSet.mem_below.1 hq
  noLeadingUnit := labelled_ofSnapshot inherited_noLeadingUnit (fun _ _ => trivial) h
  letters := by
    apply labelled_ofSnapshot (inherited_letters _) ?_ h
    intro c hc d hd
    rw [List.mem_singleton.1 hd]
    exact hc

variable {g : Gnfa} {p q : Nat} {r : Regex}

namespace Writable

theorem bypass (hg : g.Writable) (hq : q ∈ g.interior) : (g.bypass q).Writable where
  toWellFormed := hg.toWellFormed.bypass hq
  labels_nodup := hg.labels_nodup
  states_lt := fun p hp => hg.states_lt p (StateSet.mem_erase.1 hp).1
  noLeadingUnit := hg.noLeadingUnit.bypass inherited_noLeadingUnit.kept q
  letters := hg.letters.bypass (inherited_letters _).kept q

theorem reductions (hg : g.Writable) {qs : List Nat} {g' : Gnfa} (h : Reductions g qs g') :
    g'.Writable := by
  induction h with
  | refl g => exact hg
  | step hq _ ih =>
      obtain ⟨hinterior, rfl⟩ := reduces_iff.1 hq
      exact ih (hg.bypass hinterior)

theorem edge (hg : g.Writable) (h : ((p, q), r) ∈ g.edges.toList) :
    (p ∈ g.states ∧ p ≠ g.accept) ∧ (q ∈ g.states ∧ q ≠ g.start) ∧ r ≠ .emptySet ∧
      Regex.parse r.text = .ok r.renest :=
  ⟨hg.leaves _ h, hg.enters _ h, (hg.letters _ h).1, parse_text (hg.letters _ h).2
    (hg.noLeadingUnit _ h).2⟩

end Writable

/-! ## States without gaps -/

def place (g : Gnfa) (q : Nat) : Nat := g.states.toList.idxOf q

theorem place_inj (hp : p ∈ g.states) : g.place p = g.place q ↔ p = q :=
  List.idxOf_inj (StateSet.mem_toList.2 hp)

theorem place_lt_iff (hp : p ∈ g.states) (hq : q ∈ g.states) : g.place p < g.place q ↔ p < q :=
  idxOf_lt_idxOf_iff g.states.pairwise_toList (StateSet.mem_toList.2 hp) (StateSet.mem_toList.2 hq)

/-- An edge between the places of its ends, with its label in the nesting that is read. -/
def compactEdge (g : Gnfa) (e : (Nat × Nat) × Regex) : (Nat × Nat) × Regex :=
  ((g.place e.1.1, g.place e.1.2), e.2.renest)

def compact (g : Gnfa) : Gnfa where
  labels := ⟨g.states.toList.map g.stateLabel⟩
  states := .below g.states.size
  start := g.place g.start
  accept := g.place g.accept
  edges := .ofList <| g.states.toList.flatMap fun q =>
    (g.edges.row q).map fun (p, r) => g.compactEdge ((q, p), r)

theorem stateLabel_compact (hq : q ∈ g.states) :
    g.compact.stateLabel (g.place q) = g.stateLabel q :=
  LabelTable.display_idxOf (StateSet.mem_toList.2 hq)

theorem before_pair_iff {p q p' q' : Nat} :
    Key.before (p, q) (p', q') = true ↔ p < p' ∨ p = p' ∧ q < q' := by
  rw [Key.before_prod_iff, Key.before_nat_iff, Key.before_nat_iff]

namespace Writable

theorem mem_compact (hg : g.Writable) {e : (Nat × Nat) × Regex} :
    e ∈ (g.states.toList.flatMap fun q =>
      (g.edges.row q).map fun (p, r) => g.compactEdge ((q, p), r)) ↔
      ∃ d ∈ g.edges.toList, g.compactEdge d = e := by
  simp only [List.mem_flatMap, List.mem_map, Prod.exists, SortedMap.mem_row, StateSet.mem_toList]
  constructor
  · rintro ⟨p, -, q, r, h, rfl⟩
    exact ⟨p, q, r, h, rfl⟩
  · rintro ⟨p, q, r, h, rfl⟩
    exact ⟨p, (hg.edge h).1.1, q, r, h, rfl⟩

theorem toList_edges_compact (hg : g.Writable) :
    g.compact.edges.toList = g.edges.toList.map g.compactEdge := by
  apply Key.eq_of_pairwise_of_mem_iff (r := fun d e => Key.before d.1 e.1)
    (fun _ _ => Key.not_before_of_before) g.compact.edges.ascending
  · rw [List.pairwise_map]
    apply g.edges.ascending.imp_of_mem
    rintro ⟨⟨p, q⟩, r⟩ ⟨⟨p', q'⟩, r'⟩ h h' hbefore
    obtain ⟨⟨hp, -⟩, ⟨hq, -⟩, -⟩ := hg.edge h
    obtain ⟨⟨hp', -⟩, ⟨hq', -⟩, -⟩ := hg.edge h'
    rw [before_pair_iff] at hbefore
    rw [compactEdge, compactEdge, before_pair_iff, place_lt_iff hp hp', place_inj hp,
      place_lt_iff hq hq']
    exact hbefore
  · rintro ⟨k, r⟩
    rw [← SortedMap.get?_eq_some_iff, compact, SortedMap.get?_ofList,
      SortedMap.find?_eq_some_iff_of_unique, hg.mem_compact, List.mem_map]
    -- Edges between the same places join the same states.
    intro r r' hr hr'
    obtain ⟨⟨⟨p, q⟩, s⟩, h, hs⟩ := hg.mem_compact.1 hr
    obtain ⟨⟨⟨p', q'⟩, s'⟩, h', hs'⟩ := hg.mem_compact.1 hr'
    have hplaces := (congrArg Prod.fst hs).trans (congrArg Prod.fst hs').symm
    simp only [compactEdge, Prod.mk.injEq, place_inj (hg.edge h).1.1, place_inj (hg.edge h).2.1.1]
      at hplaces
    obtain ⟨rfl, rfl⟩ := hplaces
    rw [← SortedMap.get?_eq_some_iff] at h h'
    rw [h, Option.some.injEq] at h'
    rw [← h', hs] at hs'
    exact congrArg Prod.snd hs'

theorem row_compact (hg : g.Writable) (q : Nat) :
    g.compact.edges.row (g.place q) = (g.edges.row q).map fun (p, r) => (g.place p, r.renest) := by
  rw [SortedMap.row, SortedMap.row, hg.toList_edges_compact, List.filterMap_map, List.map_filterMap]
  apply List.filterMap_congr
  rintro ⟨⟨p, p'⟩, r⟩ h
  by_cases hp : p = q
  · simp [hp, compactEdge]
  · simp [hp, compactEdge, place_inj (hg.edge h).1.1]

theorem label_compact (hg : g.Writable) (p q : Nat) :
    g.compact.label (g.place p) (g.place q) = (g.label p q).renest := by
  have hget : ∀ r, g.compact.edges.get? (g.place p, g.place q) = some r ↔
      ∃ s, g.edges.get? (p, q) = some s ∧ s.renest = r := by
    intro r
    simp only [SortedMap.get?_eq_some_iff, hg.toList_edges_compact, List.mem_map, Prod.exists,
      compactEdge, Prod.mk.injEq]
    constructor
    · rintro ⟨p', q', s, h, ⟨hp', hq'⟩, rfl⟩
      rw [place_inj (hg.edge h).1.1] at hp'
      rw [place_inj (hg.edge h).2.1.1] at hq'
      exact ⟨s, hp' ▸ hq' ▸ h, rfl⟩
    · rintro ⟨s, h, rfl⟩
      exact ⟨p, q, s, h, ⟨rfl, rfl⟩, rfl⟩
  unfold label
  cases hedge : g.edges.get? (p, q) with
  | some s =>
      rw [(hget s.renest).2 ⟨s, hedge, rfl⟩]
      rfl
  | none =>
      have hnone : g.compact.edges.get? (g.place p, g.place q) = none := by
        rw [Option.eq_none_iff_forall_ne_some]
        intro r hr
        obtain ⟨s, hs, -⟩ := (hget r).1 hr
        rw [hedge] at hs
        cases hs
      rw [hnone]
      rfl

end Writable

/-! ## The rows of a snapshot -/

def snapshotRow (g : Gnfa) (q : Nat) : Table String :=
  Table.ofList <| (g.edges.row q).map fun (p, r) => (g.stateLabel p, r.text)

theorem snapshot_eq (g : Gnfa) :
    g.snapshot = ⟨g.stateLabel g.start, g.stateLabel g.accept,
      Table.ofList <| g.states.toList.map fun q => (g.stateLabel q, g.snapshotRow q)⟩ := by
  unfold snapshot
  simp only [LabelTable.displayIn_eq_display, SortedMap.getD_rowsOf_toList]
  rfl

namespace Writable

theorem toList_snapshotRow (hg : g.Writable) (q : Nat) :
    (g.snapshotRow q).toList = (g.edges.row q).map fun (p, r) => (g.stateLabel p, r.text) := by
  apply Table.toList_ofList
  rw [List.map_map]
  change ((g.edges.row q).map (g.stateLabel ∘ Prod.fst)).Nodup
  rw [← List.map_map]
  apply LabelTable.nodup_map_display hg.labels_nodup (g.edges.nodup_keys_row q)
  intro p hp
  obtain ⟨⟨p, r⟩, h, rfl⟩ := List.mem_map.1 hp
  exact hg.states_lt p (hg.edge (SortedMap.mem_row.1 h)).2.1.1

theorem nodup_keys (hg : g.Writable) : (g.states.toList.map g.stateLabel).Nodup :=
  LabelTable.nodup_map_display hg.labels_nodup g.states.nodup_toList
    fun q hq => hg.states_lt q (StateSet.mem_toList.1 hq)

theorem toList_table_snapshot (hg : g.Writable) :
    g.snapshot.table.toList = g.states.toList.map fun q => (g.stateLabel q, g.snapshotRow q) := by
  rw [snapshot_eq]
  apply Table.toList_ofList
  rw [List.map_map]
  exact hg.nodup_keys

theorem labels_snapshot (hg : g.Writable) :
    g.snapshot.labels = ⟨g.states.toList.map g.stateLabel⟩ := by
  have hkeys : g.snapshot.table.keys = g.states.toList.map g.stateLabel := by
    rw [Table.keys, hg.toList_table_snapshot, List.map_map]
    rfl
  rw [Snapshot.labels, hkeys, LabelTable.ofList_append hg.nodup_keys]
  rw [snapshot_eq]
  -- The start and the accepting state are among the states that are left.
  simp only [List.mem_cons, List.not_mem_nil, or_false, forall_eq_or_imp, forall_eq]
  exact ⟨List.mem_map_of_mem (StateSet.mem_toList.2 hg.start_mem),
    List.mem_map_of_mem (StateSet.mem_toList.2 hg.accept_mem)⟩

theorem id?_stateLabel (hg : g.Writable) (hq : q ∈ g.states) :
    g.snapshot.labels.id? (g.stateLabel q) = some (g.place q) := by
  rw [hg.labels_snapshot]
  exact LabelTable.id?_map hg.nodup_keys (StateSet.mem_toList.2 hq)

/-! ## There and back -/

theorem edgeOfEntry_snapshot (hg : g.Writable) (h : ((p, q), r) ∈ g.edges.toList) (state : String) :
    edgeOfEntry g.snapshot.labels.index (g.place g.start) (g.place g.accept) (g.place p) state
      (g.stateLabel q) r.text = .ok (some (g.compactEdge ((p, q), r))) := by
  obtain ⟨⟨hp, hpa⟩, ⟨hq, hqs⟩, hne, hparse⟩ := hg.edge h
  have hne' : r.renest ≠ .emptySet := mt (renest_eq_iff rfl).1 hne
  exact edgeOfEntry_eq_some_iff.2
    ⟨rfl, hg.id?_stateLabel hq, hparse, hne', mt (place_inj hq).1 hqs, mt (place_inj hp).1 hpa⟩

theorem edgesOfRow_snapshotRow (hg : g.Writable) (hq : q ∈ g.states) :
    edgesOfRow g.snapshot.labels.index (g.place g.start) (g.place g.accept) (g.stateLabel q)
      (g.snapshotRow q) =
      .ok ((g.edges.row q).map fun (p, r) => g.compactEdge ((q, p), r)) := by
  refine bind_eq_ok_iff.2 ⟨g.place q, target_eq_ok_iff.2 (hg.id?_stateLabel hq), ?_⟩
  rw [hg.toList_snapshotRow]
  refine bind_eq_ok_iff.2
    ⟨(g.edges.row q).map fun (p, r) => some (g.compactEdge ((q, p), r)), ?_, ?_⟩
  · exact mapM_map_eq_ok fun e he => hg.edgeOfEntry_snapshot (SortedMap.mem_row.1 he) _
  · simp [List.filterMap_map, pure, Except.pure]

theorem ofSnapshot_snapshot (hg : g.Writable) : ofSnapshot g.snapshot = .ok g.compact := by
  have hstart : g.snapshot.start = g.stateLabel g.start := by rw [snapshot_eq]
  have haccept : g.snapshot.accept = g.stateLabel g.accept := by rw [snapshot_eq]
  refine ofSnapshot_eq_ok_iff.2 ⟨g.place g.start, g.place g.accept, g.states.toList.map fun q =>
    (g.edges.row q).map fun (p, r) => g.compactEdge ((q, p), r), ?_, ?_, ?_, ?_, ?_⟩
  · rw [hstart, hg.id?_stateLabel hg.start_mem]
  · rw [haccept, hg.id?_stateLabel hg.accept_mem]
  · exact mt (place_inj hg.start_mem).1 hg.start_ne_accept
  · rw [hg.toList_table_snapshot]
    exact mapM_map_eq_ok fun q hq => hg.edgesOfRow_snapshotRow (StateSet.mem_toList.1 hq)
  · rw [hg.labels_snapshot, ← List.flatMap, compact, LabelTable.size, List.length_map]
    rfl

/-- Neither the gaps nor the nesting show in the snapshot. -/
theorem snapshot_compact (hg : g.Writable) : g.compact.snapshot = g.snapshot := by
  have hrow : ∀ q, g.compact.snapshotRow (g.place q) = g.snapshotRow q := by
    intro q
    rw [snapshotRow, snapshotRow, hg.row_compact q, List.map_map]
    congr 1
    apply List.map_congr_left
    rintro ⟨p, r⟩ h
    have hp := (hg.edge (SortedMap.mem_row.1 h)).2.1.1
    simp [stateLabel_compact hp, text_renest]
  have hstates : g.compact.states.toList = g.states.toList.map g.place := by
    rw [compact, StateSet.toList_below]
    exact (map_idxOf g.states.nodup_toList).symm
  rw [snapshot_eq, snapshot_eq, hstates, List.map_map]
  congr 1
  · exact stateLabel_compact hg.start_mem
  · exact stateLabel_compact hg.accept_mem
  · congr 1
    apply List.map_congr_left
    intro q hq
    rw [StateSet.mem_toList] at hq
    simp [stateLabel_compact hq, hrow q]

end Writable

/-- `Restored g h` says that `h` is what comes back of `g`: its snapshot is the same, down to the
order of the states and the texts of the labels, and between states with the labels of states of
`g` are expressions of the same language. -/
structure Restored (g h : Gnfa) : Prop where
  snapshot_eq : h.snapshot = g.snapshot
  exists_state : ∀ q ∈ g.states, ∃ q' ∈ h.states, h.labels.id? (g.stateLabel q) = some q'
  sameLanguage : ∀ p ∈ g.states, ∀ q ∈ g.states, ∀ p' q', h.labels.id? (g.stateLabel p) = some p' →
    h.labels.id? (g.stateLabel q) = some q' → SameLanguage (h.label p' q') (g.label p q)

theorem Writable.restored (hg : g.Writable) : Restored g g.compact := by
  have hid : ∀ {q}, q ∈ g.states → g.compact.labels.id? (g.stateLabel q) = some (g.place q) :=
    fun hq => LabelTable.id?_map hg.nodup_keys (StateSet.mem_toList.2 hq)
  refine ⟨hg.snapshot_compact, fun q hq => ⟨g.place q, ?_, hid hq⟩, ?_⟩
  · exact StateSet.mem_below.2 (List.idxOf_lt_length_of_mem (StateSet.mem_toList.2 hq))
  · intro p hp q hq p' q' hp' hq'
    rw [hid hp, Option.some.injEq] at hp'
    rw [hid hq, Option.some.injEq] at hq'
    rw [← hp', ← hq', hg.label_compact]
    exact renest_sameLanguage _

/-- A generalized automaton comes back from its snapshot after any number of reductions, whether it
was made from an automaton without reserved characters or read from another snapshot. -/
theorem snapshot_of_reductions :
    (∀ n : Nfa, n.WellFormed → (∀ c ∈ n.alphabet, Symbol.isInput c = true) →
      ∀ qs g, Reductions (ofNfa n) qs g → ∃ h, ofSnapshot g.snapshot = .ok h ∧ Restored g h) ∧
      ∀ s g₀, ofSnapshot s = .ok g₀ →
        ∀ qs g, Reductions g₀ qs g → ∃ h, ofSnapshot g.snapshot = .ok h ∧ Restored g h := by
  have hback : ∀ g₀ qs g, Writable g₀ → Reductions g₀ qs g →
      ∃ h, ofSnapshot g.snapshot = .ok h ∧ Restored g h := by
    intro g₀ qs g hg₀ hqs
    have hg := hg₀.reductions hqs
    exact ⟨g.compact, hg.ofSnapshot_snapshot, hg.restored⟩
  constructor
  · intro n hn hinput qs g hqs
    exact hback _ qs g (writable_ofNfa hn hinput) hqs
  · intro s g₀ hs qs g hqs
    exact hback _ qs g (writable_ofSnapshot hs) hqs

/-- The state taken out leaves a gap, and alternatives that were nested to the left, and a sequence
that was nested to the right, come back in another nesting; the other snapshot names a state by a
number. -/
theorem snapshot_of_reductions_gap :
    let n : Nfa := ⟨⟨["p", "start", "2"]⟩, 1, .singleton 2,
      .ofList [⟨0, .char 'a', 1⟩, ⟨1, .char 'b', 0⟩, ⟨1, .char 'a', 2⟩, ⟨1, .char 'b', 2⟩,
        ⟨1, .char 'c', 2⟩]⟩
    let g := (ofNfa n).bypass 0
    let s : Snapshot := ⟨"s", "0", .ofList [("s", .ofList [("p", "(a|b)|~"), ("0", "∅")]),
      ("p", .ofList [("p", "a(bc)"), ("0", "b*")])]⟩
    let g₀ : Gnfa := ⟨.ofList ["s", "p", "0"], .below 3, 0, 2, .ofList [
      ((0, 1), .union (.union (.char 'a') (.char 'b')) .emptyWord),
      ((1, 1), .concat (.char 'a') (.concat (.char 'b') (.char 'c'))), ((1, 2), .star (.char 'b'))]⟩
    ofSnapshot g.snapshot ≠ .ok g ∧ (∃ h, ofSnapshot g.snapshot = .ok h ∧ Restored g h) ∧
      ofSnapshot s = .ok g₀ ∧ ofSnapshot g₀.snapshot ≠ .ok g₀ ∧
        (∃ h, ofSnapshot g₀.snapshot = .ok h ∧ Restored g₀ h) ∧
          ∃ h, ofSnapshot (g₀.bypass 1).snapshot = .ok h ∧ Restored (g₀.bypass 1) h := by
  intro n g s g₀
  have hn : n.WellFormed := by decide +kernel
  have hs : ofSnapshot s = .ok g₀ := by decide +kernel
  have hreductions : Reductions (ofNfa n) [0] g :=
    .step (reduces_iff.2 ⟨by decide +kernel, rfl⟩) (.refl _)
  have hbypass : Reductions g₀ [1] (g₀.bypass 1) :=
    .step (reduces_iff.2 ⟨by decide +kernel, rfl⟩) (.refl _)
  obtain ⟨hofNfa, hofSnapshot⟩ := snapshot_of_reductions
  exact ⟨by decide +kernel, hofNfa n hn (List.all_eq_true.1 (by decide +kernel)) _ g hreductions,
    hs, by decide +kernel, hofSnapshot s g₀ hs _ _ (.refl _), hofSnapshot s g₀ hs _ _ hbypass⟩

end RegularLanguages.Gnfa
