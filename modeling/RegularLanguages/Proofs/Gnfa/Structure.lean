import RegularLanguages.Gnfa.Eliminate
import RegularLanguages.Proofs.Outcome
import RegularLanguages.Proofs.Snapshot.Nfa
import RegularLanguages.Snapshot.Gnfa

/-!
# The structure of generalized automata

No edge enters the start of a generalized automaton, none leaves its accepting state, and all edges
join states that are left. Automata and snapshots give such generalized automata, and the
elimination of a state keeps them so, whatever the order of elimination (`Gnfa.Made.wellFormed`).
-/

namespace RegularLanguages

namespace Gnfa

/-- Edges join states that are left; none enters the start and none leaves the accepting state. -/
structure WellFormed (g : Gnfa) : Prop where
  start_mem : g.start ∈ g.states
  accept_mem : g.accept ∈ g.states
  start_ne_accept : g.start ≠ g.accept
  leaves : ∀ e ∈ g.edges.toList, e.1.1 ∈ g.states ∧ e.1.1 ≠ g.accept
  enters : ∀ e ∈ g.edges.toList, e.1.2 ∈ g.states ∧ e.1.2 ≠ g.start

/-- A generalized automaton that comes from an automaton or a snapshot, after any number of
eliminations. -/
inductive Made : Gnfa → Prop
  | ofNfa {n : Nfa} : n.WellFormed → Made (ofNfa n)
  | ofSnapshot {s : Snapshot} {g : Gnfa} : Gnfa.ofSnapshot s = .ok g → Made g
  | eliminate {g g' : Gnfa} {q : Nat} : Made g → g.eliminate q = .ok g' → Made g'

/-! ## Edges that are joined -/

def labelIn (edges : SortedMap (Nat × Nat) Regex) (pair : Nat × Nat) : Regex :=
  (edges.get? pair).getD .emptySet

theorem labelIn_setLabel (edges : SortedMap (Nat × Nat) Regex) (pair k : Nat × Nat) (r : Regex) :
    labelIn (setLabel edges pair r) k = if pair = k then r else labelIn edges k := by
  unfold labelIn setLabel
  split
  · rename_i hr
    rw [SortedMap.get?_erase, hr]
    split <;> rfl
  · rw [SortedMap.get?_set]
    split <;> rfl

theorem labelIn_joinEdge (edges : SortedMap (Nat × Nat) Regex) (e : (Nat × Nat) × Regex)
    (k : Nat × Nat) :
    labelIn (joinEdge edges e) k =
      if e.1 = k then (labelIn edges k).plus e.2 else labelIn edges k := by
  rw [joinEdge, labelIn_setLabel]
  split
  · rename_i hk
    rw [← hk]
    rfl
  · rfl

theorem mem_joinEdge {edges : SortedMap (Nat × Nat) Regex} {d e : (Nat × Nat) × Regex}
    (h : e ∈ (joinEdge edges d).toList) : e.1 = d.1 ∨ e ∈ edges.toList := by
  rw [joinEdge, setLabel] at h
  split at h
  · right
    exact (List.mem_filter.1 h).1
  · rcases SortedMap.mem_place h with rfl | h
    · exact .inl rfl
    · exact .inr h

theorem mem_foldl_joinEdge {edges : SortedMap (Nat × Nat) Regex} {es : List ((Nat × Nat) × Regex)}
    {e : (Nat × Nat) × Regex} (h : e ∈ (es.foldl joinEdge edges).toList) :
    (∃ d ∈ es, d.1 = e.1) ∨ e ∈ edges.toList := by
  induction es generalizing edges with
  | nil => exact .inr h
  | cons d es ih =>
      rcases ih h with ⟨c, hc, heq⟩ | h
      · exact .inl ⟨c, List.mem_cons_of_mem d hc, heq⟩
      · rcases mem_joinEdge h with heq | h
        · exact .inl ⟨d, List.mem_cons_self, heq.symm⟩
        · exact .inr h

/-! ## Automata as generalized ones -/

/-- The edges that the generalized automaton of an automaton is made of, before they are joined. -/
def symbolEdges (n : Nfa) : List ((Nat × Nat) × Regex) :=
  ((n.size, n.start), Regex.emptyWord) ::
    (n.edges.toList.map (fun e => ((e.source, e.target), symbolRegex e.symbol)) ++
      n.accepting.toList.map fun q => ((q, n.size + 1), Regex.emptyWord))

theorem edges_ofNfa (n : Nfa) : (ofNfa n).edges = (symbolEdges n).foldl joinEdge ∅ := rfl

theorem mem_symbolEdges {n : Nfa} {p q : Nat} {r : Regex} :
    ((p, q), r) ∈ symbolEdges n ↔
      (p = n.size ∧ q = n.start ∧ r = .emptyWord) ∨
        (∃ a, ⟨p, a, q⟩ ∈ n.edges ∧ symbolRegex a = r) ∨
          (p ∈ n.accepting ∧ q = n.size + 1 ∧ r = .emptyWord) := by
  rw [symbolEdges, List.mem_cons, List.mem_append, List.mem_map, List.mem_map, Prod.mk.injEq,
    Prod.mk.injEq, and_assoc]
  apply or_congr_right
  apply or_congr
  · constructor
    · rintro ⟨e, he, heq⟩
      cases heq
      exact ⟨e.symbol, he, rfl⟩
    · rintro ⟨a, he, rfl⟩
      exact ⟨_, he, rfl⟩
  · constructor
    · rintro ⟨f, hf, heq⟩
      cases heq
      exact ⟨StateSet.mem_toList.1 hf, rfl, rfl⟩
    · rintro ⟨hp, rfl, rfl⟩
      exact ⟨p, StateSet.mem_toList.2 hp, rfl⟩

theorem ends_of_mem_symbolEdges {n : Nfa} (hn : n.WellFormed) {p q : Nat} {r : Regex}
    (h : ((p, q), r) ∈ symbolEdges n) : p < n.size + 1 ∧ (q < n.size ∨ q = n.size + 1) := by
  rcases mem_symbolEdges.1 h with ⟨rfl, rfl, -⟩ | ⟨a, he, -⟩ | ⟨hp, rfl, -⟩
  · exact ⟨Nat.lt_succ_self n.size, .inl hn.start_lt⟩
  · exact ⟨Nat.lt_succ_of_lt (hn.source_lt _ he), .inl (hn.target_lt _ he)⟩
  · exact ⟨Nat.lt_succ_of_lt (hn.accepting_lt p hp), .inr rfl⟩

theorem wellFormed_ofNfa {n : Nfa} (hn : n.WellFormed) : (ofNfa n).WellFormed := by
  have hends : ∀ e ∈ (ofNfa n).edges.toList,
      e.1.1 < n.size + 1 ∧ (e.1.2 < n.size ∨ e.1.2 = n.size + 1) := by
    intro e he
    rcases mem_foldl_joinEdge he with ⟨d, hd, heq⟩ | he
    · rw [← heq]
      exact ends_of_mem_symbolEdges hn hd
    · exact absurd he List.not_mem_nil
  have hstart : (ofNfa n).start = n.size := rfl
  have haccept : (ofNfa n).accept = n.size + 1 := rfl
  have hstates : ∀ q, q ∈ (ofNfa n).states ↔ q < n.size + 2 := fun q => StateSet.mem_below
  constructor
  · rw [hstates, hstart]
    omega
  · rw [hstates, haccept]
    omega
  · rw [hstart, haccept]
    omega
  · intro e he
    have := hends e he
    rw [hstates, haccept]
    omega
  · intro e he
    have := hends e he
    rw [hstates, hstart]
    omega

/-! ## Snapshots as generalized automata -/

open SnapshotFormat

section Entries

variable {labels : LabelTable} {start accept source : Nat} {state key text : String}

/-- An entry that is read is looked at for the shape, unless its label is the empty language. -/
theorem edgeOfEntry_of_parse {q : Nat} {r : Regex} (hq : labels.id? key = some q)
    (hparse : Regex.parse text = .ok r) :
    edgeOfEntry labels.index start accept source state key text =
      if r = .emptySet then .ok none
      else if q = start then .error (.entersStart state)
      else if source = accept then .error (.leavesAccept key)
      else .ok (some ((source, q), r)) := by
  rw [edgeOfEntry, target_eq_ok_iff.2 hq, hparse]
  cases r <;> rfl

theorem edgeOfEntry_of_parse_error {q : Nat} {cause : Regex.ReadError}
    (hq : labels.id? key = some q)
    (hparse : Regex.parse text = .error cause) :
    edgeOfEntry labels.index start accept source state key text =
      .error (.badLabel state key cause) := by
  rw [edgeOfEntry, target_eq_ok_iff.2 hq, hparse]
  rfl

theorem edgeOfEntry_of_not_mem (hkey : key ∉ labels.toList) :
    edgeOfEntry labels.index start accept source state key text =
      .error (.unknownTarget state key) := by
  rw [edgeOfEntry, target_eq_error_iff.2 ⟨hkey, rfl⟩]
  rfl

theorem edgeOfEntry_eq_some_iff {e : (Nat × Nat) × Regex} :
    edgeOfEntry labels.index start accept source state key text = .ok (some e) ↔
      e.1.1 = source ∧ labels.id? key = some e.1.2 ∧ Regex.parse text = .ok e.2 ∧
        e.2 ≠ .emptySet ∧ e.1.2 ≠ start ∧ e.1.1 ≠ accept := by
  obtain ⟨⟨p, q⟩, r⟩ := e
  constructor
  · intro h
    obtain ⟨q', hq, h⟩ := bind_eq_ok_iff.1 h
    split at h
    · cases h
    · cases h
    · rename_i r' hne hparse
      split_ifs at h with hstart haccept
      cases h
      exact ⟨rfl, target_eq_ok_iff.1 hq, hparse, hne, hstart, haccept⟩
  · rintro ⟨rfl, hq, hparse, hne, hstart, haccept⟩
    rw [edgeOfEntry_of_parse hq hparse, if_neg hne, if_neg hstart, if_neg haccept]

theorem mem_edgesOfRow {row : Table String} {edges : List ((Nat × Nat) × Regex)}
    (h : edgesOfRow labels.index start accept state row = .ok edges) {e : (Nat × Nat) × Regex} :
    e ∈ edges ↔ labels.id? state = some e.1.1 ∧ ∃ key text, (key, text) ∈ row.toList ∧
      edgeOfEntry labels.index start accept e.1.1 state key text = .ok (some e) := by
  obtain ⟨source, hsource, h⟩ := bind_eq_ok_iff.1 h
  obtain ⟨entries, hentries, heq⟩ := bind_eq_ok_iff.1 h
  cases heq
  rw [target_eq_ok_iff] at hsource
  simp only [List.mem_filterMap, id_eq, exists_eq_right, mem_iff_of_mapM_eq_ok hentries,
    Prod.exists]
  rw [hsource, Option.some.injEq]
  constructor
  · rintro ⟨key, text, hrow, hedge⟩
    have hsource := (edgeOfEntry_eq_some_iff.1 hedge).1
    exact ⟨hsource.symm, key, text, hrow, hsource ▸ hedge⟩
  · rintro ⟨rfl, hedge⟩
    exact hedge

end Entries

def Snapshot.labels (s : Snapshot) : LabelTable :=
  LabelTable.ofList (s.table.keys ++ [s.start, s.accept])

theorem ofSnapshot_eq_ok_iff {s : Snapshot} {g : Gnfa} :
    ofSnapshot s = .ok g ↔ ∃ start accept rows, s.labels.id? s.start = some start ∧
      s.labels.id? s.accept = some accept ∧ start ≠ accept ∧
        s.table.toList.mapM (fun (state, row) => edgesOfRow s.labels.index start accept state row) =
          .ok rows ∧
          g = ⟨s.labels, StateSet.below s.labels.size, start, accept,
            SortedMap.ofList rows.flatten⟩ := by
  constructor
  · intro h
    obtain ⟨start, hstart, h⟩ := bind_eq_ok_iff.1 h
    obtain ⟨accept, haccept, h⟩ := bind_eq_ok_iff.1 h
    split_ifs at h with hne
    obtain ⟨rows, hrows, heq⟩ := bind_eq_ok_iff.1 h
    cases heq
    exact ⟨start, accept, rows, target_eq_ok_iff.1 hstart, target_eq_ok_iff.1 haccept,
      hne, hrows, rfl⟩
  · rintro ⟨start, accept, rows, hstart, haccept, hne, hrows, rfl⟩
    refine bind_eq_ok_iff.2 ⟨start, target_eq_ok_iff.2 hstart, ?_⟩
    refine bind_eq_ok_iff.2 ⟨accept, target_eq_ok_iff.2 haccept, ?_⟩
    rw [if_neg hne]
    exact bind_eq_ok_iff.2 ⟨rows, hrows, rfl⟩

/-- The edges are those of the entries that are read as something else than the empty language: as
no two entries have the same state and key, none replaces another. -/
theorem mem_edges_ofSnapshot {s : Snapshot} {g : Gnfa} (h : ofSnapshot s = .ok g)
    {e : (Nat × Nat) × Regex} :
    e ∈ g.edges.toList ↔ ∃ entry ∈ s.table.entries, g.labels.id? entry.state = some e.1.1 ∧
      g.labels.id? entry.key = some e.1.2 ∧ Regex.parse entry.value = .ok e.2 ∧ e.2 ≠ .emptySet ∧
        e.1.2 ≠ g.start ∧ e.1.1 ≠ g.accept := by
  obtain ⟨start, accept, rows, -, -, -, hrows, rfl⟩ := ofSnapshot_eq_ok_iff.1 h
  have hmem : ∀ {e : (Nat × Nat) × Regex}, e ∈ rows.flatten ↔
      ∃ entry ∈ s.table.entries, s.labels.id? entry.state = some e.1.1 ∧
        s.labels.id? entry.key = some e.1.2 ∧ Regex.parse entry.value = .ok e.2 ∧ e.2 ≠ .emptySet ∧
          e.1.2 ≠ start ∧ e.1.1 ≠ accept := by
    intro e
    rw [mem_flatten_iff_of_mapM_eq_ok hrows]
    constructor
    · rintro ⟨⟨state, row⟩, hrow, edges, hedges, he⟩
      obtain ⟨hsource, key, text, hentry, hedge⟩ := (mem_edgesOfRow hedges).1 he
      exact ⟨⟨state, key, text⟩, Table.mem_entries.2 ⟨row, hrow, hentry⟩, hsource,
        (edgeOfEntry_eq_some_iff.1 hedge).2⟩
    · rintro ⟨entry, hentry, hsource, hedge⟩
      obtain ⟨row, hrow, hv⟩ := Table.mem_entries.1 hentry
      obtain ⟨edges, hedges⟩ := exists_eq_ok_of_mapM_eq_ok hrows hrow
      exact ⟨(entry.state, row), hrow, edges, hedges, (mem_edgesOfRow hedges).2
        ⟨hsource, entry.key, entry.value, hv, edgeOfEntry_eq_some_iff.2 ⟨rfl, hedge⟩⟩⟩
  obtain ⟨k, r⟩ := e
  rw [← SortedMap.get?_eq_some_iff, SortedMap.get?_ofList,
    SortedMap.find?_eq_some_iff_of_unique, hmem]
  intro r r' hr hr'
  obtain ⟨entry, hentry, hsource, htarget, hparse, -⟩ := hmem.1 hr
  obtain ⟨entry', hentry', hsource', htarget', hparse', -⟩ := hmem.1 hr'
  have heq := Table.entry_unique hentry hentry' (LabelTable.id?_inj hsource hsource')
    (LabelTable.id?_inj htarget htarget')
  rw [heq, hparse', Except.ok.injEq] at hparse
  exact hparse.symm

theorem wellFormed_ofSnapshot {s : Snapshot} {g : Gnfa} (h : ofSnapshot s = .ok g) :
    g.WellFormed := by
  have hends : ∀ e ∈ g.edges.toList, (e.1.1 < g.labels.size ∧ e.1.1 ≠ g.accept) ∧
      e.1.2 < g.labels.size ∧ e.1.2 ≠ g.start := by
    intro e he
    obtain ⟨entry, -, hsource, htarget, -, -, hstart, haccept⟩ := (mem_edges_ofSnapshot h).1 he
    exact ⟨⟨LabelTable.lt_size_of_id? hsource, haccept⟩, LabelTable.lt_size_of_id? htarget, hstart⟩
  obtain ⟨start, accept, rows, hstart, haccept, hne, -, rfl⟩ := ofSnapshot_eq_ok_iff.1 h
  exact {
    start_mem := StateSet.mem_below.2 (LabelTable.lt_size_of_id? hstart)
    accept_mem := StateSet.mem_below.2 (LabelTable.lt_size_of_id? haccept)
    start_ne_accept := hne
    leaves := fun e he => (hends e he).1.imp_left StateSet.mem_below.2
    enters := fun e he => (hends e he).2.imp_left StateSet.mem_below.2 }

/-! ## Eliminations -/

theorem mem_interior {g : Gnfa} {q : Nat} :
    q ∈ g.interior ↔ q ∈ g.states ∧ q ≠ g.start ∧ q ≠ g.accept := by
  rw [interior, List.mem_filter, StateSet.mem_toList, Bool.and_eq_true, bne_iff_ne, bne_iff_ne]

theorem mem_interior_ofNfa {n : Nfa} {q : Nat} : q ∈ (ofNfa n).interior ↔ q < n.size := by
  have hstart : (ofNfa n).start = n.size := rfl
  have haccept : (ofNfa n).accept = n.size + 1 := rfl
  have hmem : q ∈ (ofNfa n).states ↔ q < n.size + 2 := StateSet.mem_below
  rw [mem_interior, hmem, hstart, haccept]
  omega

theorem pairwise_interior (g : Gnfa) : g.interior.Pairwise (· < ·) :=
  g.states.pairwise_toList.filter _

theorem nodup_interior (g : Gnfa) : g.interior.Nodup := g.pairwise_interior.imp Nat.ne_of_lt

theorem interior_bypass (g : Gnfa) (q : Nat) :
    (g.bypass q).interior = g.interior.filter (· != q) := by
  change (g.states.erase q).toList.filter _ = _
  rw [StateSet.toList_erase, interior, List.filter_filter, List.filter_filter]
  congr 1
  funext p
  exact Bool.and_comm _ _

theorem mem_interior_bypass {g : Gnfa} {q r : Nat} :
    q ∈ (g.bypass r).interior ↔ q ∈ g.interior ∧ q ≠ r := by
  rw [interior_bypass, List.mem_filter, bne_iff_ne]

theorem length_interior_bypass {g : Gnfa} {q : Nat} (hq : q ∈ g.interior) :
    (g.bypass q).interior.length + 1 = g.interior.length := by
  have hperm : (g.bypass q).interior.Perm (g.interior.erase q) := by
    apply (List.perm_ext_iff_of_nodup (nodup_interior _) ((nodup_interior g).erase q)).2
    intro p
    rw [(nodup_interior g).mem_erase_iff, mem_interior_bypass, and_comm]
  rw [hperm.length_eq]
  exact List.length_erase_add_one hq

theorem isFinal_iff {g : Gnfa} : g.isFinal = true ↔ g.interior.length = 0 := by
  rw [isFinal, List.isEmpty_iff_length_eq_zero]

theorem eliminate_eq_ok_iff {g g' : Gnfa} {q : Nat} :
    g.eliminate q = .ok g' ↔ q ∈ g.interior ∧ g.bypass q = g' := by
  rw [mem_interior, eliminate]
  split
  · rename_i hstart
    simp [hstart]
  · split
    · rename_i haccept
      simp [haccept]
    · split
      · rename_i hstart haccept hmem
        simp [hstart, haccept, hmem]
      · rename_i hmem
        simp [hmem]

theorem mem_detours {g : Gnfa} {r : Nat} {e : (Nat × Nat) × Regex} :
    e ∈ g.detours r ↔
      ∃ i j a b, ((i, r), a) ∈ g.edges.toList ∧ (i ≠ r ∧ i ∈ g.states) ∧
        ((r, j), b) ∈ g.edges.toList ∧ (j ≠ r ∧ j ∈ g.states) ∧
          ((i, j), a.times ((g.label r r).iterate.times b)) = e := by
  simp only [detours, List.mem_flatMap, List.mem_map, List.mem_filter, Bool.and_eq_true,
    decide_eq_true_eq, bne_iff_ne]
  constructor
  · rintro ⟨⟨⟨i, r'⟩, a⟩, ⟨hin, ⟨rfl, hne⟩, hi⟩, ⟨⟨r'', j⟩, b⟩, ⟨hout, ⟨rfl, hne'⟩, hj⟩, rfl⟩
    exact ⟨i, j, a, b, hin, ⟨hne, hi⟩, hout, ⟨hne', hj⟩, rfl⟩
  · rintro ⟨i, j, a, b, hin, ⟨hne, hi⟩, hout, ⟨hne', hj⟩, rfl⟩
    exact ⟨((i, r), a), ⟨hin, ⟨rfl, hne⟩, hi⟩, ((r, j), b), ⟨hout, ⟨rfl, hne'⟩, hj⟩, rfl⟩

theorem WellFormed.ends_bypass {g : Gnfa} (hg : g.WellFormed) {r : Nat} {e : (Nat × Nat) × Regex}
    (he : e ∈ (g.bypass r).edges.toList) :
    (e.1.1 ∈ g.states.erase r ∧ e.1.1 ≠ g.accept) ∧ e.1.2 ∈ g.states.erase r ∧ e.1.2 ≠ g.start := by
  rw [StateSet.mem_erase, StateSet.mem_erase]
  rcases mem_foldl_joinEdge he with ⟨d, hd, heq⟩ | he
  · rw [← heq]
    obtain ⟨i, j, a, b, hin, ⟨hir, hi⟩, hout, ⟨hjr, hj⟩, rfl⟩ := mem_detours.1 hd
    have hleaves := hg.leaves _ hin
    have henters := hg.enters _ hout
    exact ⟨⟨⟨hi, hir⟩, hleaves.2⟩, ⟨hj, hjr⟩, henters.2⟩
  · obtain ⟨hmem, hne⟩ := List.mem_filter.1 he
    rw [Bool.and_eq_true, bne_iff_ne, bne_iff_ne] at hne
    obtain ⟨hsource, haccept⟩ := hg.leaves e hmem
    obtain ⟨htarget, hstart⟩ := hg.enters e hmem
    exact ⟨⟨⟨hsource, hne.1⟩, haccept⟩, ⟨htarget, hne.2⟩, hstart⟩

theorem WellFormed.bypass {g : Gnfa} (hg : g.WellFormed) {r : Nat} (hr : r ∈ g.interior) :
    (g.bypass r).WellFormed := by
  obtain ⟨-, hstart, haccept⟩ := mem_interior.1 hr
  exact {
    start_mem := StateSet.mem_erase.2 ⟨hg.start_mem, hstart.symm⟩
    accept_mem := StateSet.mem_erase.2 ⟨hg.accept_mem, haccept.symm⟩
    start_ne_accept := hg.start_ne_accept
    leaves := fun e he => (hg.ends_bypass he).1
    enters := fun e he => (hg.ends_bypass he).2 }

theorem Made.wellFormed {g : Gnfa} (h : Made g) : g.WellFormed := by
  induction h with
  | ofNfa hn => exact wellFormed_ofNfa hn
  | ofSnapshot hs => exact wellFormed_ofSnapshot hs
  | eliminate _ hq ih =>
      obtain ⟨hinterior, rfl⟩ := eliminate_eq_ok_iff.1 hq
      exact ih.bypass hinterior

end Gnfa

end RegularLanguages
